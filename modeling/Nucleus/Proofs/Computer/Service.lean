import Nucleus.Proofs.Computer.Answers
import Nucleus.Proofs.Process.Ancestry

/-!
# Services answer

Passing an exception up, the eight services and the request exception that asks for them. The caller
is the running process, and whatever a service does to it and to others, the processor goes to
somebody or nobody is ready.
-/
namespace Nucleus.Computer

variable {s t : Computer} {v w : View} {p q : Handle} {x : Process}

theorem Ended.balance {l : List Handle} (h : Ended v l s t) : t.balance = s.balance := by
  have hp : UInt32.ofNat s.kernel.processCount =
      UInt32.ofNat t.kernel.processCount + UInt32.ofNat l.length := by
    rw [← h.processes, UInt32.ofNat_add]
  rw [Computer.balance, Computer.balance, h.created, h.killed, hp]
  generalize UInt32.ofNat t.kernel.processCount = a
  generalize UInt32.ofNat l.length = b
  generalize s.journal.counters.created.value = c
  generalize s.journal.counters.killed.value = d
  grind

theorem Ended.stays {l : List Handle} (h : Ended v l s t) (hc : s.kernel.current = some p)
    (hp : p ∉ l) : Stays s v t (v.without l) where
  sound := h.sound
  balance := h.balance
  current := by simpa [hc, Option.filter_some, hp] using h.current
  loose q hq := (View.loose_without.mp hq).1

theorem Ended.schedule_answers {l : List Handle} (h : Ended v l s t)
    (hc : s.kernel.current = some p) (hp : p ∈ l) (e : Event) :
    Answers s.balance (s.kernel.Attended v) (t.note e).schedule := by
  rw [← h.balance]
  refine (Computer.schedule_answers (s := t.note e) h.sound).mono fun ha q hq => ?_
  obtain ⟨hq, hn⟩ := View.loose_without.mp hq
  exact hn (Option.some.inj ((ha q hq).symm.trans hc) ▸ hp)

/-- A live handle that a word names is the caller itself or below it. -/
theorem terminationTarget?_names (h : s.kernel.Sound v) (target : Word) :
    ∃ r, s.terminationTarget? p target = .ok r ∧ ∀ q, r = some q ↔ v.Names p target q := by
  unfold terminationTarget? View.Names
  split
  · exact ⟨some p, rfl, fun q => by simp [eq_comm]⟩
  · cases ho : Handle.ofWord? target with
    | none => exact ⟨none, rfl, fun q => by simp⟩
    | some q =>
      obtain ⟨b, hb, hiff⟩ := Table.isAncestorOrSelf_iff h.arranged.shows p q
      have hb' : s.kernel.table.isAncestorOrSelf p q = .ok b := hb
      simp only [hb', ok_bind, pure_eq_ok]
      refine ⟨_, rfl, fun r => ?_⟩
      rw [Option.ite_none_right_eq_some, hiff, Option.some.injEq]
      constructor
      · rintro ⟨hr, rfl⟩
        exact ⟨rfl, hr⟩
      · rintro ⟨rfl, hr⟩
        exact ⟨hr, rfl⟩

theorem terminateProcess_answers (h : Stays s v t w) (hc : t.kernel.current = some p)
    (target : Word) : Answers s.balance (s.kernel.Attended v) (t.terminateProcess p target) := by
  obtain ⟨x, hx, _⟩ := h.sound.running p hc
  obtain ⟨r, hr, hnames⟩ := terminationTarget?_names (p := p) h.sound target
  simp only [terminateProcess, hr, ok_bind]
  cases r with
  | none => exact refuse_answers (h.note _) hc _
  | some victim =>
    obtain ⟨y, hy⟩ := View.exists_process_of_below ((hnames victim).mp rfl).below ⟨x, hx⟩
    obtain ⟨l, u, _, _, _, ht, he⟩ := terminate_eq h.sound hy
    simp only [ht, ok_bind]
    by_cases hp : p ∈ l
    · have hcur : u.kernel.current = none := by simpa [hc, Option.filter_some, hp] using he.current
      have hcur' : (u.note (.terminated victim l.length)).kernel.current = none := hcur
      rw [hcur', ← h.balance]
      exact (he.schedule_answers hc hp _).mono h.attended
    · have hst := he.stays hc hp
      have hcur : (u.note (.terminated victim l.length)).kernel.current = some p :=
        hst.current.trans hc
      rw [hcur]
      exact reply_answers ((h.trans hst).note _) hcur 0

theorem passUpOrDie_answers (h : Stays s v t w) (hc : t.kernel.current = some p)
    (c : ExceptionClass) (saved : SavedState) :
    Answers s.balance (s.kernel.Attended v) (t.passUpOrDie c saved) := by
  obtain ⟨x, hx, _⟩ := h.sound.running p hc
  obtain ⟨d, hd, _⟩ := process_eq h.sound.arranged hx
  simp only [passUpOrDie]
  rw [hc]
  simp only [hd, ok_bind]
  split
  · rw [pure_eq_ok]
    refine load_answers (w := w) (p := p) ?_ ?_ ?_
    · exact h.trans (.frame h.sound rfl rfl rfl)
    · exact hc
    · rfl
  · have hst := h.note (.unsupported p saved.trapCode)
    obtain ⟨l, u, _, _, hm, ht, he⟩ := terminate_eq hst.sound hx
    simp only [ht, ok_bind]
    rw [← hst.balance]
    exact (he.schedule_answers hc ((hm p).mpr .refl) _).mono hst.attended

theorem enrolled_stays (h : s.kernel.Sound v) {child : Handle} (hn : v.process child = none)
    (hl : ∀ q, w.Loose q ↔ v.Loose q ∨ q = child) (hs : w.softBlocked = v.softBlocked)
    {store : Store} {ready : Ring} (ha : store.Arranged ready (w.join child .ready))
    (hf : s.kernel.store.table.free.length = store.table.free.length + 1) : Stays s v { s with
      kernel := { s.kernel with store, ready, processCount := s.kernel.processCount + 1 }
      journal := s.journal.count fun c => { c with created := c.created.increment } }
      (w.join child .ready) := by
  have hloose : ∀ q, (w.join child .ready).Loose q ↔ v.Loose q := fun q => by
    rw [View.loose_join, hl]
    constructor
    · rintro ⟨hq | hq, hqc⟩
      · exact hq
      · exact (hqc hq).elim
    · rintro ⟨y, hy, hs⟩
      exact ⟨.inl ⟨y, hy, hs⟩, View.ne_of_process hy hn⟩
  have hsoft : s.kernel.softBlockCount = (w.join child .ready).softBlocked := by
    rw [View.softBlocked_join, if_neg (by decide), Nat.add_zero, hs, h.softBlocks]
  refine ⟨⟨ha, ?_, hsoft, fun p hp => (hloose p).mpr (h.running p hp)⟩, ?_, rfl,
    fun q => (hloose q).mp⟩
  · have hsum := h.processes
    simp only
    omega
  · have ho : UInt32.ofNat (s.kernel.processCount + 1) = UInt32.ofNat s.kernel.processCount + 1 :=
      UInt32.ofNat_add ..
    simp only [balance, Journal.count, Counter.increment, ho]
    generalize UInt32.ofNat s.kernel.processCount = a
    generalize s.journal.counters.created.value = c
    generalize s.journal.counters.killed.value = d
    grind

/-- The descriptor of a new process comes under a handle that was not
live, and makes one slot less. -/
theorem createChild_eq (h : s.kernel.Sound v) (hp : v.process p = some x) {address : Word}
    (haddress : ¬(address = 0 ∨ address % wordBytes ≠ 0)) (support : Option SupportArea)
    {child : Handle} {table : Table} (halloc : s.kernel.table.alloc = some (child, table)) :
    ∃ store ready, v.process child = none ∧ child.generation = v.generation child.slot + 1 ∧
      s.createChild p address support = .ok (.ok child, { s with
        kernel := { s.kernel with store, ready, processCount := s.kernel.processCount + 1 }
        journal := (s.journal.count fun c => { c with created := c.created.increment }).note
          (.created p child) }) ∧
      store.Arranged ready (((v.create child
        { state := s.machine.readState address, support }).adopt p child).join child .ready) ∧
      s.kernel.store.table.free.length = store.table.free.length + 1 := by
  obtain ⟨hn, hg, ha₁, hf₁⟩ := h.arranged.alloc halloc
  have hchildren : v.children child = [] := h.arranged.wf.children_eq_nil hn
  have hpc : p ≠ child := View.ne_of_process hp hn
  obtain ⟨t₂, hm₂, ha₂, hf₂⟩ := ha₁.modify (p := child) (x := {}) (by simp [View.create])
    (f := ({ · with state := s.machine.readState address, support }))
    (g := ({ · with state := s.machine.readState address, support }))
    (fun _ => rfl) (fun _ => rfl) (fun _ => rfl) fun _ => rfl
  rw [View.alter_create] at ha₂
  obtain ⟨t₃, hm₃, ha₃, hf₃⟩ := ha₂.adopt (q := p) (y := x) (p := child)
    (x := { state := s.machine.readState address, support }) (by simp [View.create, hpc, hp])
    (by simp [View.create]) rfl (ha₂.wf.not_below_of_childless hchildren hpc)
  obtain ⟨store, ready, hm₄, ha₄, hf₄⟩ :=
    makeReady_kernel (k := s.kernel.setTable t₃) (p := child) ha₃
      (by
        rw [View.loose_adopt]
        exact (View.loose_create rfl).mpr (.inr rfl))
  refine ⟨store, ready, hn, hg, ?_, ha₄, ?_⟩
  · have hm₂' : table.modify child ({ · with state := s.machine.readState address, support }) =
        .ok t₂ :=
      hm₂
    have hm₃' : t₂.adopt p child = .ok t₃ := hm₃
    simp only [createChild, if_neg haddress, halloc, hm₂', ok_bind, hm₃', hm₄]
    rfl
  · rw [hf₁, hf₄]
    simp only [Kernel.setTable, hf₃, hf₂]

theorem createChild_cases (h : s.kernel.Sound v) (hp : v.process p = some x) (address : Word)
    (support : Option SupportArea) :
    (∃ e, s.createChild p address support = .ok (.error e, s)) ∨
    ∃ child store ready, v.process child = none ∧ child.generation = v.generation child.slot + 1 ∧
      s.createChild p address support = .ok (.ok child, { s with
        kernel := { s.kernel with store, ready, processCount := s.kernel.processCount + 1 }
        journal := (s.journal.count fun c => { c with created := c.created.increment }).note
          (.created p child) }) ∧
      store.Arranged ready (((v.create child
        { state := s.machine.readState address, support }).adopt p child).join child .ready) ∧
      s.kernel.store.table.free.length = store.table.free.length + 1 := by
  by_cases haddress : address = 0 ∨ address % wordBytes ≠ 0
  · exact .inl ⟨.invalidArgument, by rw [createChild, if_pos haddress, pure_eq_ok]⟩
  · cases halloc : s.kernel.table.alloc with
    | none =>
      exact .inl ⟨.noFreeProcess, by simp only [createChild, if_neg haddress, halloc, pure_eq_ok]⟩
    | some r => exact .inr ⟨r.1, createChild_eq h hp haddress support halloc⟩

theorem createProcess_answers (h : Stays s v t w) (hc : t.kernel.current = some p) (address : Word)
    (support : Option SupportArea) :
    Answers s.balance (s.kernel.Attended v) (t.createProcess p address support) := by
  obtain ⟨x, hx, _⟩ := h.sound.running p hc
  rcases createChild_cases h.sound hx address support with
    ⟨e, he⟩ | ⟨child, store, ready, hn, _, he, ha, hf⟩
  · simp only [createProcess, he, ok_bind]
    exact refuse_answers (h.note _) hc e
  · have hst := enrolled_stays h.sound hn (w := (w.create child
      { state := t.machine.readState address, support }).adopt p child) (fun q => by
        rw [View.loose_adopt]
        exact View.loose_create rfl) rfl ha hf
    have hst := hst.note (.created p child)
    obtain ⟨y, hy, _⟩ := hst.sound.running p hc
    obtain ⟨store', hm, ha', hf'⟩ := setState_eq hst.sound.arranged hy (·.setV1 child.toWord)
    have hset := Stays.alter hst.sound ha' hf' fun _ => rfl
    have hm' := hm
    simp only [note] at hm'
    simp only [createProcess, he, ok_bind, hm']
    exact reply_answers ((h.trans hst).trans hset) hc 0

theorem passeren_answers (h : Stays s v t w) (hc : t.kernel.current = some p) {key : SemKey}
    (hk : Channel.slot? key = none) :
    Answers s.balance (s.kernel.Attended v) (t.passeren p key) := by
  have hsoft : ¬(Station.semaphore key).isSoft = true := by simp [Station.isSoft, hk]
  rcases wait_cases h.sound.arranged (h.sound.running p hc) key with
    ⟨_, hw⟩ | ⟨_, store, hw, ha, hf⟩
  · simp only [passeren, hw, ok_bind]
    exact resume_answers (h.trans (.frame h.sound rfl rfl rfl)) hc
  · simp only [passeren, hw, ok_bind]
    refine block_answers h hc ha hf rfl ?_ rfl rfl
    rw [if_neg hsoft]
    rfl

theorem verhogen_answers (h : Stays s v t w) (hc : t.kernel.current = some p) {key : SemKey}
    (hk : Channel.slot? key = none) :
    Answers s.balance (s.kernel.Attended v) (t.verhogen p key) := by
  have hsoft : ¬(Station.semaphore key).isSoft = true := by simp [Station.isSoft, hk]
  rcases signal_cases h.sound.arranged key with ⟨q, rest, store, ready, _, hq, hs, ha, hf⟩ | ⟨_, hs⟩
  · simp only [verhogen, hs, ok_bind]
    refine resume_answers (w := (w.leave q).join q .ready) (Stays.note ?_ _) hc
    have hm : q ∈ w.queue (.semaphore key) := by simp [hq]
    refine h.trans (.wake h.sound hm ha hf rfl ?_ rfl rfl)
    rw [if_neg hsoft]
    rfl
  · simp only [verhogen, hs, ok_bind]
    exact resume_answers (h.trans (.frame h.sound rfl rfl rfl)) hc

/-- The process is counted before it is known whether it waits, and counted off when it does not. -/
theorem waitOn_answers (h : Stays s v t w) (hc : t.kernel.current = some p) (c : Channel) :
    Answers s.balance (s.kernel.Attended v) (t.waitOn p c) := by
  generalize ht₁ : { t with kernel := { t.kernel with
    softBlockCount := t.kernel.softBlockCount + 1 } } = t₁
  have harr : t₁.kernel.store.Arranged t₁.kernel.ready w := by
    rw [← ht₁]
    exact h.sound.arranged
  rcases wait_cases harr (h.sound.running p hc) c.key with ⟨_, hw⟩ | ⟨_, store, hw, ha, hf⟩
  · generalize hcells : t₁.cells.assign c.key (t₁.cells.value c.key - 1) = cells at hw
    have hlow : lower (t₁.setCells cells).kernel.softBlockCount 1 =
        .ok t.kernel.softBlockCount := by
      rw [← ht₁]
      simp [lower, setCells]
    simp only [waitOn, ht₁, hw, ok_bind, hlow]
    refine reply_answers (w := w) ?_ ?_ _
    · rw [← ht₁]
      exact h.trans (.frame h.sound rfl rfl rfl)
    · rw [← ht₁]
      exact hc
  · simp only [waitOn, ht₁, hw, ok_bind]
    rw [← ht₁] at ha hf ⊢
    refine block_answers h hc ha hf rfl ?_ rfl rfl
    rw [if_pos (isSoft_channel c)]
    rfl

theorem serve_answers (h : Stays s v t w) (hc : t.kernel.current = some p) {r : Request}
    (hr : r.isWellFormed = true) : Answers s.balance (s.kernel.Attended v) (t.serve p r) := by
  obtain ⟨x, hx, _⟩ := h.sound.running p hc
  obtain ⟨d, hd, _⟩ := process_eq h.sound.arranged hx
  cases r with
  | createProcess address support => exact createProcess_answers h hc address support
  | terminateProcess target => exact terminateProcess_answers h hc target
  | passeren key =>
    refine passeren_answers h hc ?_
    simpa [Request.isWellFormed, Request.isUserKey] using (Bool.and_eq_true_iff.mp hr).2
  | verhogen key =>
    refine verhogen_answers h hc ?_
    simpa [Request.isWellFormed, Request.isUserKey] using (Bool.and_eq_true_iff.mp hr).2
  | waitDevice line device receive =>
    simp only [serve]
    split
    · exact waitOn_answers h hc _
    · exact refuse_answers h hc _
  | cpuTime =>
    simp only [serve, hd, ok_bind]
    exact reply_answers h hc _
  | waitClock => exact waitOn_answers h hc .clock
  | supportArea =>
    simp only [serve, hd, ok_bind]
    exact reply_answers h hc _

theorem request_answers (h : s.kernel.Sound v) (hc : s.kernel.current = some p)
    (saved : SavedState) : Answers s.balance (s.kernel.Attended v) (s.request saved) := by
  unfold request
  rw [hc]
  simp only
  split
  · exact passUpOrDie_answers (.refl h) hc .general saved
  · next r _ =>
    split
    · exact passUpOrDie_answers (.refl h) hc .general _
    · split
      · exact passUpOrDie_answers (.refl h) hc .general saved
      · next hr =>
        obtain ⟨x, hx, _⟩ := h.running p hc
        generalize hs₁ : (s.count fun c => { c with requests := c.requests.increment }).note
          (.requested p r) = s₁
        have hst : Stays s v s₁ v := by
          rw [← hs₁]
          exact .frame h rfl rfl rfl
        obtain ⟨store, hm, ha, hf⟩ := setState_eq hst.sound.arranged hx fun _ =>
          saved.pastInstruction
        simp only [hm, ok_bind]
        refine serve_answers (hst.trans (.alter hst.sound ha hf fun _ => rfl))
          (hst.current.trans hc) ?_
        simpa using hr

end Nucleus.Computer
