import Nucleus.Proofs.Verdict

/-!
# Exceptions on scenes

Every part of the answer to an exception does on scenes what `Scene.Effect` says. A result `Yields`
a relation between dispatches and scenes when it succeeds and the relation holds of what it leaves.
-/
namespace Nucleus.Computer

variable {s t : Computer} {v w : View} {p q : Handle} {x : Process} {saved : SavedState}
variable {r : Except Fault (Dispatch × Computer)} {P Q : Dispatch → Scene → Prop} {σ : Scene}

def Yields (r : Except Fault (Dispatch × Computer)) (P : Dispatch → Scene → Prop) : Prop :=
  ∃ d t w, r = .ok (d, t) ∧ t.kernel.store.Arranged t.kernel.ready w ∧ P d (t.scene w)

theorem Yields.mono (h : Yields r P) (hpq : ∀ d τ, P d τ → Q d τ) : Yields r Q := by
  obtain ⟨d, t, w, hr, ha, hp⟩ := h
  exact ⟨d, t, w, hr, ha, hpq _ _ hp⟩

theorem schedule_yields (h : s.kernel.store.Arranged s.kernel.ready v) (hσ : s.scene v = σ) :
    Yields s.schedule σ.Scheduled := by
  subst hσ
  cases hq : v.queue .ready with
  | nil =>
    obtain ⟨machine, journal, hs, hm, ht, _, _, hn⟩ := schedule_nil h hq
    have hd : s.kernel.verdict.state? = none := by
      unfold Kernel.verdict
      split
      · rfl
      · split <;> rfl
    have hscene :
      ({ kernel := { s.kernel with current := none }, machine, journal } : Computer).scene v =
        { s.scene v with current := none, machine } := by
      simp only [scene, hn]
    refine ⟨_, _, v, hs, h, ?_⟩
    rw [hscene]
    exact .idle hq hm hd ht
  | cons p rest =>
    obtain ⟨x, store, ready, hx, hs, ha, _⟩ := schedule_cons h hq
    exact ⟨_, _, v.leave p, hs, ha, .dispatched hq hx⟩

theorem resumeOrSchedule_yields (h : s.kernel.store.Arranged s.kernel.ready v) (hσ : s.scene v = σ)
    (saved : SavedState) : Yields (s.resumeOrSchedule saved) (σ.Continued saved) := by
  unfold resumeOrSchedule
  split
  · next hc =>
    subst hσ
    exact ⟨_, _, v, rfl, h, .resumed hc⟩
  · next hc => exact (schedule_yields h hσ).mono fun _ _ => .scheduled (by rw [← hσ]; exact hc)

theorem resume_yields (h : s.kernel.store.Arranged s.kernel.ready v) (hp : v.process p = some x)
    (hσ : s.scene v = σ) : Yields (s.resume p) (σ.Resumed p) := by
  subst hσ
  obtain ⟨d, hd, _, rfl⟩ := process_eq h hp
  refine ⟨_, _, v, ?_, h, .mk hp⟩
  simp only [resume, hd, ok_bind, pure_eq_ok]
  rfl

theorem reply_yields (h : s.kernel.store.Arranged s.kernel.ready v) (hp : v.process p = some x)
    (hσ : s.scene v = σ) (value : Word) :
    Yields (s.reply p value) ((σ.setState p (·.setV0 value)).Resumed p) := by
  subst hσ
  obtain ⟨store, hm, ha, _⟩ := setState_eq h hp (·.setV0 value)
  have hr := resume_yields (s := { s with kernel := { s.kernel with store } }) ha
    (View.process_alter_self hp) rfl
  simp only [reply, hm, ok_bind]
  exact hr

theorem blockCurrent_yields (h : s.kernel.store.Arranged s.kernel.ready v)
    (hc : s.kernel.current = some p) (hp : v.process p = some x) (hσ : s.scene v = σ) :
    Yields s.blockCurrent (σ.charge p).stop.Scheduled := by
  subst hσ
  obtain ⟨store, hm, ha, _⟩ := charge_eq h hc hp
  simp only [blockCurrent, hm, ok_bind]
  exact schedule_yields (s := { s with
    kernel := { s.kernel with store, stopwatch := .startedAt s.machine, current := none } }) ha rfl

theorem interrupt_yields (h : s.kernel.Sound v) (hr : Route.ofCode saved.trapCode = .interrupt) :
    Yields (s.interrupt saved) ((s.scene v).Effect saved) := by
  unfold interrupt
  split
  · next hl =>
    have hm : saved.matter = .spurious := by simp [SavedState.matter, hr, hl]
    exact (resumeOrSchedule_yields h.arranged rfl saved).mono fun _ _ => .spurious hm
  · next line hl =>
    split
    · next htimer =>
      have hm : saved.matter = .sliceEnd := by simp [SavedState.matter, hr, hl, htimer]
      cases hc : s.kernel.current with
      | none =>
        have he : s.endSlice saved = s.schedule := by
          unfold endSlice
          rw [hc]
        rw [he]
        exact (schedule_yields h.arranged rfl).mono fun _ _ => .sliceIdle hm hc
      | some p =>
        obtain ⟨store, ready, he, ha, _⟩ := endSlice_eq h hc saved
        rw [he]
        exact (schedule_yields (σ := (s.scene v).preempt p saved) ha rfl).mono
          fun _ _ hd => .sliceEnded hm hc hd
    · next htimer =>
      split
      · next hinterval =>
        have hm : saved.matter = .tick := by
          rw [hinterval] at hl htimer
          simp [SavedState.matter, hr, hl, htimer]
        obtain ⟨store, ready, he, ha, _⟩ := clockTick_eq h rfl saved
        rw [he]
        exact (resumeOrSchedule_yields (σ := (s.scene v).tick) ha rfl saved).mono
          fun _ _ hd => .ticked hm hd
      · next hinterval =>
        have hm : saved.matter = .devices (UInt32.ofNat line) := by
          simp [SavedState.matter, hr, hl, htimer, hinterval]
        obtain ⟨t, w, ht, hst, hscene⟩ := serveDevices_stays h (UInt32.ofNat line)
          (pendingDevices s.machine (UInt32.ofNat line))
        simp only [deviceInterrupt, ht, ok_bind]
        exact (resumeOrSchedule_yields hst.sound.arranged hscene saved).mono fun _ _ hd =>
          .drained hm hd

theorem Ended.scene {l : List Handle} (h : Ended v l s t) :
    t.scene (v.without l) = (s.scene v).finish l := by
  simp only [Computer.scene, Scene.finish, h.current, h.channels, h.banked, h.stopwatch,
    h.timing, h.machine, h.dispatches]

theorem passUpOrDie_yields {c : ExceptionClass} {state : SavedState} (h : s.kernel.Sound v)
    (hc : s.kernel.current = some p) (hm : saved.matter = .passUp c state) :
    Yields (s.passUpOrDie c state) ((s.scene v).Effect saved) := by
  obtain ⟨x, hx, _⟩ := h.running p hc
  obtain ⟨d, hd, _, rfl⟩ := process_eq h.arranged hx
  simp only [passUpOrDie]
  rw [hc]
  simp only [hd, ok_bind]
  split
  · next area ha => exact ⟨_, _, v, rfl, h.arranged, .passedUp hm hc hx ha⟩
  · next hs =>
    obtain ⟨l, t, _, hn, hmem, ht, he⟩ :=
      terminate_eq (s := s.note (.unsupported p state.trapCode)) h hx
    simp only [ht, ok_bind]
    exact (schedule_yields (s := t.note _) he.sound.arranged he.scene).mono
      fun _ _ hd => .died hm hc hn ((hmem p).mpr .refl) hd hx hs hmem

theorem createProcess_yields (h : s.kernel.Sound v) (hp : v.process p = some x) (address : Word)
    (support : Option SupportArea) : Yields (s.createProcess p address support)
      ((s.scene v).Served p (.createProcess address support)) := by
  rcases createChild_cases h hp address support with
    ⟨e, he⟩ | ⟨child, store, ready, hn, hg, he, ha, _⟩
  · simp only [createProcess, he, ok_bind]
    exact (reply_yields (s := s.note (.creationRefused p e)) h.arranged hp rfl _).mono fun _ _ =>
      .uncreated
  · have hpc : p ≠ child := View.ne_of_process hp hn
    generalize hw : ((v.create child
      { state := s.machine.readState address, support }).adopt p child).join child .ready = w at ha
    have hx : w.process p = some x := by
      rw [← hw, View.join, View.process_alter_of_ne hpc, View.adopt, View.process_alter_of_ne hpc]
      simpa [View.create, hpc] using hp
    generalize ht : ({ s with
      kernel := { s.kernel with store, ready, processCount := s.kernel.processCount + 1 }
      journal := (s.journal.count fun c => { c with created := c.created.increment }).note
        (.created p child) } : Computer) = t at he
    have hta : t.kernel.store.Arranged t.kernel.ready w := by
      rw [← ht]
      exact ha
    have hscene : t.scene w = (s.scene v).enrol p child address support := by
      rw [← ht, ← hw]
      rfl
    obtain ⟨store', hm, ha', _⟩ := setState_eq hta hx (·.setV1 child.toWord)
    simp only [createProcess, he, ok_bind, hm]
    refine (reply_yields (s := { t with kernel := { t.kernel with store := store' } }) ha'
      (View.process_alter_self hx) rfl 0).mono fun _ _ hd => .created hn ?_ hg
    rw [← hscene]
    exact hd

theorem terminateProcess_yields (h : s.kernel.Sound v) (hc : s.kernel.current = some p)
    (target : Word) :
    Yields (s.terminateProcess p target) ((s.scene v).Served p (.terminateProcess target)) := by
  obtain ⟨x, hx, _⟩ := h.running p hc
  obtain ⟨r, hr, hnames⟩ := terminationTarget?_names (p := p) h target
  simp only [terminateProcess, hr, ok_bind]
  cases r with
  | none =>
    exact (reply_yields (s := s.note (.badTarget p target)) h.arranged hx rfl _).mono
      fun _ _ hd => .unnamed hd fun q hq => (Option.some_ne_none q ((hnames q).mpr hq).symm).elim
  | some victim =>
    have hv := (hnames victim).mp rfl
    obtain ⟨y, hy⟩ := View.exists_process_of_below hv.below ⟨x, hx⟩
    obtain ⟨l, t, _, hn, hmem, ht, he⟩ := terminate_eq h hy
    have hcur : (t.note (.terminated victim l.length)).kernel.current = (some p).filter (· ∉ l) :=
      he.current.trans (by rw [hc])
    simp only [ht, ok_bind]
    by_cases hp : p ∈ l
    · rw [hcur, Option.filter_some, if_neg (by simpa using hp)]
      exact (schedule_yields (s := t.note _) he.sound.arranged he.scene).mono
        fun _ _ hd => .ended hn hp hd hv hmem
    · rw [hcur, Option.filter_some, if_pos (by simpa using hp)]
      exact (reply_yields (s := t.note _) he.sound.arranged ((View.process_without hp).trans hx)
        he.scene 0).mono fun _ _ hd => .outlived hn hp hd hv hmem

theorem signal_scene (h : s.kernel.store.Arranged s.kernel.ready v) (key : SemKey) :
    ∃ t w, s.signal key = .ok ((s.scene v).woken? key, t) ∧
      t.kernel.store.Arranged t.kernel.ready w ∧ t.scene w = (s.scene v).signal key := by
  rcases signal_cases h key with ⟨q, rest, store, ready, hv, hq, hsig, ha, _⟩ | ⟨hn, hsig⟩
  · have hwoken : (s.scene v).woken? key = some q := by
      have hv' : (s.scene v).value key + 1 ≤ 0 := hv
      have hq' : (s.scene v).waiters key = q :: rest := hq
      simp [Scene.woken?, hv', hq']
    rw [hwoken]
    refine ⟨_, _, hsig, ha, ?_⟩
    simp only [Scene.signal, hwoken]
    rfl
  · have hwoken : (s.scene v).woken? key = none := by
      rcases hn with hv | hq
      · exact if_neg hv
      · have hq' : (s.scene v).waiters key = [] := hq
        simp [Scene.woken?, hq']
    rw [hwoken]
    refine ⟨_, v, hsig, h, ?_⟩
    simp only [Scene.signal, hwoken]
    rfl

theorem passeren_yields (h : s.kernel.Sound v) (hc : s.kernel.current = some p) (key : SemKey) :
    Yields (s.passeren p key) ((s.scene v).Served p (.passeren key)) := by
  have hloose := h.running p hc
  obtain ⟨x, hx, _⟩ := id hloose
  generalize hcells : s.cells.assign key (s.cells.value key - 1) = cells
  have htake : (s.setCells cells).scene v = (s.scene v).take key := by
    rw [← hcells]
    rfl
  rcases wait_cases h.arranged hloose key with ⟨hv, hw⟩ | ⟨hv, store, hw, ha, _⟩
  · rw [hcells] at hw
    simp only [passeren, hw, ok_bind]
    exact (resume_yields (s := s.setCells cells) h.arranged hx htake).mono fun _ _ hd =>
      .passed hv hd
  · rw [hcells] at hw
    simp only [passeren, hw, ok_bind]
    have hjoin : (((s.setCells cells).setStore store).note (.blocked p key)).scene
        (v.join p (.semaphore key)) = ((s.scene v).take key).join p (.semaphore key) := by
      rw [← htake]
      rfl
    exact (blockCurrent_yields (s := ((s.setCells cells).setStore store).note _) ha hc
      (View.process_alter_self hx) hjoin).mono fun _ _ hd => .blocked rfl hv hd

theorem verhogen_yields (h : s.kernel.Sound v) (hc : s.kernel.current = some p) (key : SemKey) :
    Yields (s.verhogen p key) ((s.scene v).Served p (.verhogen key)) := by
  obtain ⟨t, w, hsig, ha, hscene⟩ := signal_scene h.arranged key
  obtain ⟨x, hx⟩ : ∃ x, w.process p = some x := by
    obtain ⟨y, hy, _⟩ := h.running p hc
    have hw : w = ((s.scene v).signal key).view := congrArg Scene.view hscene
    rw [hw, Scene.signal]
    split
    · exact View.exists_process_alter.mpr (View.exists_process_alter.mpr ⟨y, hy⟩)
    · exact ⟨y, hy⟩
  simp only [verhogen, hsig, ok_bind]
  cases (s.scene v).woken? key with
  | none => exact (resume_yields ha hx hscene).mono fun _ _ => .signalled
  | some q => exact (resume_yields (s := t.note _) ha hx hscene).mono fun _ _ => .signalled

/-- The process is counted before it is known whether it waits; a scene does not show the count. -/
theorem waitOn_yields (h : s.kernel.Sound v) (hc : s.kernel.current = some p) {c : Channel}
    {r : Request} (hr : r.channel? = some c) : Yields (s.waitOn p c) ((s.scene v).Served p r) := by
  have hloose := h.running p hc
  obtain ⟨x, hx, _⟩ := id hloose
  generalize hs₁ :
    { s with kernel := { s.kernel with softBlockCount := s.kernel.softBlockCount + 1 } } = s₁
  have harr : s₁.kernel.store.Arranged s₁.kernel.ready v := by
    rw [← hs₁]
    exact h.arranged
  have hcur : s₁.kernel.current = some p := by
    rw [← hs₁]
    exact hc
  generalize hcells : s₁.cells.assign c.key (s₁.cells.value c.key - 1) = cells
  have htake : (s₁.setCells cells).scene v = (s.scene v).take c.key := by
    rw [← hcells, ← hs₁]
    rfl
  have hvalue : s₁.cells.value c.key = (s.scene v).value c.key := by
    rw [← hs₁]
    rfl
  rcases wait_cases harr hloose c.key with ⟨hv, hw⟩ | ⟨hv, store, hw, ha, _⟩
  · rw [hcells] at hw
    rw [hvalue] at hv
    have hlow : lower (s₁.setCells cells).kernel.softBlockCount 1 =
        .ok s.kernel.softBlockCount := by
      rw [← hs₁]
      simp [lower, setCells]
    have hbanked : (s₁.setCells cells).kernel.banked = s.kernel.banked :=
      congrArg Scene.banked htake
    have hscene : ({ s₁.setCells cells with
        kernel := { (s₁.setCells cells).kernel with
          softBlockCount := s.kernel.softBlockCount
          banked := s.kernel.banked.set c 0 c.isLt } } : Computer).scene v =
        { (s.scene v).take c.key with banked := s.kernel.banked.set c 0 c.isLt } := by
      rw [← htake]
      rfl
    simp only [waitOn, hs₁, hw, ok_bind, hlow, hbanked]
    refine (reply_yields ?_ hx hscene _).mono fun _ _ hd => .consumed hr hv hd
    exact harr
  · rw [hcells] at hw
    rw [hvalue] at hv
    simp only [waitOn, hs₁, hw, ok_bind]
    have hjoin : (((s₁.setCells cells).setStore store).note (.softBlocked p c.key)).scene
        (v.join p (.semaphore c.key)) = ((s.scene v).take c.key).join p (.semaphore c.key) := by
      rw [← htake]
      rfl
    exact (blockCurrent_yields (s := ((s₁.setCells cells).setStore store).note _) ha hcur
      (View.process_alter_self hx) hjoin).mono
        fun _ _ hd => .blocked (Request.taken?_of_channel? hr) hv hd

theorem serve_yields (h : s.kernel.Sound v) (hc : s.kernel.current = some p) {r : Request}
    (hr : r.isWellFormed = true) : Yields (s.serve p r) ((s.scene v).Served p r) := by
  obtain ⟨x, hx, _⟩ := h.running p hc
  obtain ⟨d, hd, _, rfl⟩ := process_eq h.arranged hx
  cases r with
  | createProcess address support => exact createProcess_yields h hx address support
  | terminateProcess target => exact terminateProcess_yields h hc target
  | passeren key => exact passeren_yields h hc key
  | verhogen key => exact verhogen_yields h hc key
  | waitDevice line device receive =>
    simp only [serve]
    split
    · next c hdev => exact waitOn_yields h hc (by rw [Request.channel?, hdev]; rfl)
    · next e hdev =>
      simp only [Request.isWellFormed, hdev] at hr
      cases hr
  | cpuTime =>
    simp only [serve, hd, ok_bind]
    exact (reply_yields h.arranged hx rfl _).mono fun _ _ ht =>
      .told (.inl rfl) ht fun _ => ⟨_, hx, rfl⟩
  | waitClock => exact waitOn_yields h hc rfl
  | supportArea =>
    simp only [serve, hd, ok_bind]
    exact (reply_yields h.arranged hx rfl _).mono fun _ _ ht =>
      .told (.inr rfl) ht fun hr' => by cases hr'

theorem request_yields (h : s.kernel.Sound v) (hc : s.kernel.current = some p)
    (hroute : Route.ofCode saved.trapCode = .request) :
    Yields (s.request saved) ((s.scene v).Effect saved) := by
  unfold request
  rw [hc]
  simp only
  split
  · next hr => exact passUpOrDie_yields h hc (by simp [SavedState.matter, hroute, hr])
  · next r hr =>
    split
    · next hu => exact passUpOrDie_yields h hc (by simp [SavedState.matter, hroute, hr, hu])
    · next hu =>
      split
      · next hw =>
        have hw' : r.isWellFormed = false := by simpa using hw
        exact passUpOrDie_yields h hc (by simp [SavedState.matter, hroute, hr, hu, hw'])
      · next hw =>
        have hw' : r.isWellFormed = true := by simpa using hw
        have hm : saved.matter = .request r := by simp [SavedState.matter, hroute, hr, hu, hw']
        obtain ⟨x, hx, _⟩ := h.running p hc
        generalize hs₁ : (s.count fun c => { c with requests := c.requests.increment }).note
          (.requested p r) = s₁
        have hst : Stays s v s₁ v := by
          rw [← hs₁]
          exact .frame h rfl rfl rfl
        have hscene : s₁.scene v = s.scene v := by
          rw [← hs₁]
          rfl
        obtain ⟨store, hmod, ha, hf⟩ := setState_eq hst.sound.arranged hx fun _ =>
          saved.pastInstruction
        have hset := Stays.alter hst.sound ha hf fun _ => rfl
        simp only [hmod, ok_bind]
        refine (serve_yields hset.sound (hst.current.trans hc) hw').mono fun _ _ hd =>
          .served hm hc ?_
        rw [← hscene]
        exact hd

theorem exception_yields (h : s.kernel.Sound v) (saved : SavedState) :
    Yields (s.exception saved) ((s.scene v).Effect saved) := by
  have hcode : Route.ofCode saved.trapCode ≠ .interrupt → saved.trapCode ≠ 0 := fun hr hz =>
    hr (Route.ofCode_eq_interrupt_iff.mpr hz)
  unfold exception
  cases hr : Route.ofCode saved.trapCode with
  | interrupt => exact interrupt_yields h hr
  | request =>
    cases hc : s.kernel.current with
    | none =>
      refine ⟨_, s, v, ?_, h.arranged, .unasked hc (hcode (by simp [hr]))⟩
      unfold request
      rw [hc]
      rfl
    | some p => exact request_yields h hc hr
  | passUp c =>
    cases hc : s.kernel.current with
    | none =>
      refine ⟨_, s, v, ?_, h.arranged, .unasked hc (hcode (by simp [hr]))⟩
      unfold passUpOrDie
      rw [hc]
      rfl
    | some p => exact passUpOrDie_yields h hc (by simp [SavedState.matter, hr])

theorem exception_effect_of_sound (h : s.kernel.Sound v) (saved : SavedState) :
    ∃ d t w, s.exception saved = .ok (d, t) ∧ t.kernel.Sound w ∧
      (s.scene v).Effect saved d (t.scene w) := by
  obtain ⟨d, t, w, he, ha, heffect⟩ := exception_yields h saved
  obtain ⟨_, _, w', he', hw', _⟩ := enter_sound h (.exception saved)
  cases he.symm.trans he'
  obtain rfl := ha.unique hw'.arranged
  exact ⟨d, t, w, he, hw', heffect⟩

/-- An exception at a settled kernel has its effect and leaves a settled kernel. -/
theorem exception_effect (h : s.kernel.Sound v) (hs : s.kernel.Settled v) (saved : SavedState) :
    ∃ d t w, s.exception saved = .ok (d, t) ∧ t.kernel.Sound w ∧ t.kernel.Settled w ∧
      (s.scene v).Effect saved d (t.scene w) := by
  obtain ⟨d, t, w, he, ha, heffect⟩ := exception_yields h saved
  obtain ⟨_, _, he', ⟨w', hw', hset⟩, _⟩ := exception_exact h hs saved
  rw [he] at he'
  cases he'
  obtain rfl := ha.unique hw'.arranged
  exact ⟨d, t, w, he, hw', hset, heffect⟩

/-- The process of a start is ready when the scheduler is asked for the first time. -/
theorem start_eq (h : s.kernel.store.Arranged s.kernel.ready v) {table : Table}
    (halloc : s.kernel.table.alloc = some (p, table)) (first : SavedState) :
    ∃ store ready, s.start first = schedule { s with
        kernel := { s.kernel with store, ready, processCount := s.kernel.processCount + 1 }
        machine := s.machine.loadIntervalTimer s.kernel.timing.tick
        journal := (s.journal.count fun c => { c with created := c.created.increment }).note
          (.booted p) } ∧
      store.Arranged ready ((v.create p { state := first }).join p .ready) := by
  obtain ⟨_, _, ha₁, _⟩ := h.alloc halloc
  obtain ⟨t₂, hm₂, ha₂, _⟩ := ha₁.modify (p := p) (x := {}) (by simp [View.create])
    (f := ({ · with state := first })) (g := ({ · with state := first }))
    (fun _ => rfl) (fun _ => rfl) (fun _ => rfl) fun _ => rfl
  rw [View.alter_create] at ha₂
  obtain ⟨store, ready, hm₃, ha₃, _⟩ := makeReady_kernel (k := s.kernel.setTable t₂) (p := p) ha₂
    ((View.loose_create rfl).mpr (.inr rfl))
  refine ⟨store, ready, ?_, ha₃⟩
  have hm₂' : table.modify p ({ · with state := first }) = .ok t₂ := hm₂
  simp only [start, halloc, hm₂', ok_bind, hm₃]
  rfl

theorem start_effect (timing : Timing) (machine : Machine) (first : SavedState) :
    ∃ t w p, (initial timing machine).start first = .ok (.load first, t) ∧ t.kernel.Sound w ∧
      t.kernel.Settled w ∧ t.scene w = .boot timing machine p first := by
  have h := Kernel.sound_initial timing
  obtain ⟨⟨p, table⟩, halloc⟩ : ∃ r, (initial timing machine).kernel.table.alloc = some r :=
    ⟨_, rfl⟩
  obtain ⟨store, ready, hstart, ha⟩ :=
    start_eq (s := initial timing machine) h.arranged halloc first
  have hq : ((View.empty.create p { state := first }).join p .ready).queue .ready = [p] := by
    simp [View.join, View.create, View.alter, View.empty]
  have hp : ((View.empty.create p { state := first }).join p .ready).process p =
      some { state := first, station := some .ready } := by
    simp [View.join, View.create, View.alter]
  generalize hs : ({ initial timing machine with
    kernel := { (initial timing machine).kernel with
      store, ready, processCount := (initial timing machine).kernel.processCount + 1 }
    machine := machine.loadIntervalTimer timing.tick
    journal := ((initial timing machine).journal.count fun c =>
      { c with created := c.created.increment }).note (.booted p) } : Computer) = s
  have ha' : s.kernel.store.Arranged s.kernel.ready
      ((View.empty.create p { state := first }).join p .ready) := by
    rw [← hs]
    exact ha
  obtain ⟨x, store', ready', hx, hsched, ha₄, _⟩ := schedule_cons ha' hq
  rw [hp, Option.some.injEq] at hx
  subst hx
  obtain ⟨_, t, he, ⟨w, hw, hset⟩, _⟩ := start_exact (s := initial timing machine) h
    (fun _ hp => by obtain ⟨_, hx, _⟩ := hp; cases hx) first
  have hload := hstart.trans ((congrArg schedule hs).trans hsched)
  rw [hload] at he
  cases he
  obtain rfl := ha₄.unique hw.arranged
  refine ⟨_, _, p, hload, hw, hset, ?_⟩
  rw [← hs]
  rfl

end Nucleus.Computer
