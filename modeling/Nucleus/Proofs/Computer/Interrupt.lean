import Nucleus.Proofs.Computer.Answers
import Nucleus.Proofs.Computer.Scene

/-!
# Interrupts answer

The end of a time slice and a tick of the pseudo-clock are written out as the scheduler on an
explicit computer; a device in service wakes at most one process. All of them answer.
-/
namespace Nucleus.Computer

variable {s t : Computer} {v w : View} {p : Handle} {x : Process}

/-- The view after the running process left the processor with `saved`. -/
def preempted (s : Computer) (v : View) (p : Handle) (saved : SavedState) : View :=
  ((v.alter p fun y => { y with
    cpuTime := y.cpuTime + s.kernel.stopwatch.elapsed s.machine }).alter p
      fun y => { y with state := saved }).join p .ready

theorem endSlice_eq (h : s.kernel.Sound v) (hc : s.kernel.current = some p) (saved : SavedState) :
    ∃ store ready, s.endSlice saved = schedule { s with
        kernel := { s.kernel with store, ready, current := none, stopwatch := .startedAt s.machine }
        journal := (s.journal.count fun c => { c with preemptions := c.preemptions.increment }).note
          (.quantumExpired p) } ∧
      store.Arranged ready (s.preempted v p saved) ∧
      store.table.free = s.kernel.store.table.free := by
  obtain ⟨x, hx, hs⟩ := h.running p hc
  obtain ⟨store₁, hm₁, ha₁, hf₁⟩ := charge_eq h.arranged hc hx
  have hx₁ := View.process_alter_self (v := v) (f := fun y => { y with
    cpuTime := y.cpuTime + s.kernel.stopwatch.elapsed s.machine }) hx
  obtain ⟨store₂, hm₂, ha₂, hf₂⟩ := setState_eq
    (s := { s with kernel := { s.kernel with store := store₁, stopwatch := .startedAt s.machine } })
    ha₁ hx₁ fun _ => saved
  obtain ⟨store₃, ready, hm₃, ha₃, hf₃⟩ := makeReady_eq
    (s := { s with kernel := { s.kernel with store := store₂, stopwatch := .startedAt s.machine } })
    ha₂ ⟨_, View.process_alter_self hx₁, hs⟩
  refine ⟨store₃, ready, ?_, ha₃, (hf₃.trans hf₂).trans hf₁⟩
  unfold endSlice
  split
  · next hn => cases hc.symm.trans hn
  · next q hq =>
    obtain rfl : p = q := Option.some.inj (hc.symm.trans hq)
    simp only [hm₁, ok_bind, hm₂, hm₃]
    rfl

theorem endSlice_answers (h : s.kernel.Sound v) (saved : SavedState) :
    Answers s.balance (s.kernel.Attended v) (s.endSlice saved) := by
  cases hc : s.kernel.current with
  | none =>
    have he : s.endSlice saved = s.schedule := by
      unfold endSlice
      rw [hc]
    rw [he]
    exact (schedule_answers h).mono fun ha => ha.none_loose hc
  | some p =>
    obtain ⟨store, ready, he, ha, hf⟩ := endSlice_eq h hc saved
    rw [he]
    have hsound : Kernel.Sound { s.kernel with
        store, ready, current := none, stopwatch := .startedAt s.machine }
          (s.preempted v p saved) := by
      refine h.rearrange ha hf rfl ?_ fun q hq => by cases hq
      rw [preempted, View.softBlocked_join, if_neg (by decide), Nat.add_zero]
      exact h.softBlocks
    refine (schedule_answers hsound).mono fun hat q hq => ?_
    rw [preempted, View.loose_join, View.loose_alter, View.loose_alter] at hq
    · exact hq.2 (Option.some.inj ((hat q hq.1).symm.trans hc))
    · exact fun _ => rfl
    · exact fun _ => rfl

theorem clockTick_eq (h : s.kernel.Sound v) {l : List Handle}
    (hl : v.queue (.semaphore Channel.clock.key) = l) (saved : SavedState) :
    ∃ store ready, s.clockTick saved = resumeOrSchedule { s with
        kernel := { s.kernel with
          store, ready
          channels := s.kernel.channels.set Channel.clock 0 Channel.clock.isLt
          softBlockCount := s.kernel.softBlockCount - l.length }
        machine := s.machine.loadIntervalTimer s.kernel.timing.tick
        journal := (s.journal.count fun c => { c with ticks := c.ticks.increment }).note
          (.ticked l.length) } saved ∧
      store.Arranged ready ((v.leaveAll l).joinAll l .ready) ∧
      store.table.free = s.kernel.store.table.free := by
  have hlen : l.length ≤ maxProcesses := hl ▸ (h.arranged.shows.queues.holds _).length_le
  have hn : l.Nodup := hl ▸ h.arranged.shows.nodup_queue _
  have hlive : ∀ p ∈ l, ∃ x, v.process p = some x := fun p hp => by
    rw [← hl] at hp
    obtain ⟨x, hx, _⟩ := (h.arranged.wf.mem_queue _ p).mp hp
    exact ⟨x, hx⟩
  obtain ⟨store₁, hd, ha₁, hf₁⟩ := h.arranged.drain hl hlen
  generalize hs₁ : { s with
    kernel := { s.kernel with
      store := store₁, channels := s.kernel.channels.set Channel.clock 0 Channel.clock.isLt }
    machine := s.machine.loadIntervalTimer s.kernel.timing.tick } = s₁
  have harr : s₁.kernel.store.Arranged s₁.kernel.ready (v.leaveAll l) := by
    rw [← hs₁]
    exact ha₁
  obtain ⟨store₂, ready, hm, ha₂, hf₂⟩ := makeReady_all harr
    (fun p hp => (View.loose_leaveAll hlive).mpr (.inr hp)) hn
  have hsoft : l.length ≤ s.kernel.softBlockCount := by
    have hsum := View.softBlocked_leaveAll h.arranged.wf (fun p hp => hl ▸ hp) hn
      (h.arranged.shows.nodup_queue (.semaphore Channel.clock.key))
    rw [if_pos (isSoft_channel _), ← h.softBlocks] at hsum
    omega
  refine ⟨store₂, ready, ?_, ha₂, ?_⟩
  · generalize hs₀ : { s with machine := s.machine.loadIntervalTimer s.kernel.timing.tick } = s₀
    have hset : (s₀.setCells (s₀.cells.assign Channel.clock.key 0)).setStore store₁ = s₁ := by
      rw [setCells_channel, ← hs₀, ← hs₁]
      rfl
    have hb : s.kernel.store.broadcast s₀.cells Channel.clock.key =
        .ok (l, store₁, s₀.cells.assign Channel.clock.key 0) := by
      simp only [Store.broadcast, hd, ok_bind, pure_eq_ok]
      rfl
    have hlow : lower s₁.kernel.softBlockCount l.length =
        .ok (s.kernel.softBlockCount - l.length) := by
      rw [← hs₁]
      exact if_pos hsoft
    simp only [clockTick, hs₀, hb, ok_bind, hset, hm, hlow]
    rw [← hs₁]
    rfl
  · rw [hf₂, ← hs₁]
    exact hf₁

theorem clockTick_answers (h : s.kernel.Sound v) (saved : SavedState) :
    Answers s.balance (s.kernel.Attended v) (s.clockTick saved) := by
  generalize hl : v.queue (.semaphore Channel.clock.key) = l
  obtain ⟨store, ready, he, ha, hf⟩ := clockTick_eq h hl saved
  have hw := h.arranged.wf
  have hmem : ∀ p ∈ l, p ∈ v.queue (.semaphore Channel.clock.key) := fun p hp => hl ▸ hp
  have hlive : ∀ p ∈ l, ∃ x, v.process p = some x := fun p hp => by
    obtain ⟨x, hx, _⟩ := (hw.mem_queue _ p).mp (hmem p hp)
    exact ⟨x, hx⟩
  have hloose : ∀ q, ((v.leaveAll l).joinAll l .ready).Loose q ↔ v.Loose q := fun q => by
    rw [View.loose_joinAll, View.loose_leaveAll hlive]
    constructor
    · rintro ⟨hq | hq, hn⟩
      · exact hq
      · exact (hn hq).elim
    · exact fun hq => ⟨.inl hq, fun hm => hw.not_loose (hmem q hm) hq⟩
  have hsoft := View.softBlocked_leaveAll hw hmem (hl ▸ h.arranged.shows.nodup_queue _)
    (h.arranged.shows.nodup_queue _)
  rw [if_pos (isSoft_channel _), ← h.softBlocks] at hsoft
  rw [he]
  refine resumeOrSchedule_answers (w := (v.leaveAll l).joinAll l .ready)
    ⟨?_, rfl, rfl, fun q => (hloose q).mp⟩ saved
  refine h.rearrange ha hf rfl ?_ fun p hp => ?_
  · rw [View.softBlocked_joinAll, if_neg (by decide), Nat.add_zero]
    exact (Nat.eq_sub_of_add_eq hsoft).symm
  · exact (hloose p).mpr (h.running p hp)

/-- The process that a completion wakes is ready with the status in its first result register. -/
theorem modifyProcess_woken (h : s.kernel.Sound v) {c : Channel} {rest : List Handle}
    (hv : s.cells.value c.key + 1 ≤ 0) (hq : v.queue (.semaphore c.key) = p :: rest)
    {store : Store} {ready : Ring} (ha : store.Arranged ready ((v.leave p).join p .ready))
    (hf : store.table.free = s.kernel.store.table.free) (status : Word) :
    1 ≤ s.kernel.softBlockCount ∧ ∃ t w,
      modifyProcess { s with kernel := { s.kernel with
        store, ready
        channels := s.kernel.channels.set c (s.cells.value c.key + 1) c.isLt
        softBlockCount := s.kernel.softBlockCount - 1 } } p
          (fun d => { d with state := d.state.setV0 status }) = .ok t ∧
      Stays s v t w ∧ t.scene w = (s.scene v).complete c status := by
  have hm : p ∈ v.queue (.semaphore c.key) := by simp [hq]
  have hone : 1 ≤ s.kernel.softBlockCount := by
    have hsoft := View.softBlocked_leave h.arranged.wf hm (h.arranged.shows.nodup_queue _)
    rw [if_pos (isSoft_channel c), ← h.softBlocks] at hsoft
    omega
  have hwake := Stays.wake (t := { s with kernel := { s.kernel with
    store, ready
    channels := s.kernel.channels.set c (s.cells.value c.key + 1) c.isLt
    softBlockCount := s.kernel.softBlockCount - 1 } }) h hm ha hf rfl
    (by rw [if_pos (isSoft_channel c)]; exact Nat.sub_add_cancel hone) rfl rfl
  obtain ⟨x, hx, _⟩ := (h.arranged.wf.mem_queue _ p).mp hm
  have hx' := View.process_alter_self (f := ({ · with station := some .ready }))
    (View.process_alter_self (f := ({ · with station := none })) hx)
  obtain ⟨store', hset, ha', hf'⟩ := setState_eq hwake.sound.arranged hx' (·.setV0 status)
  refine ⟨hone, _, _, hset, hwake.trans (.alter hwake.sound ha' hf' fun _ => rfl), ?_⟩
  have hwoken : (s.scene v).woken? c.key = some p := by
    have hv' : (s.scene v).value c.key + 1 ≤ 0 := hv
    have hq' : (s.scene v).waiters c.key = p :: rest := hq
    simp [Scene.woken?, hv', hq']
  simp only [Scene.complete, hwoken, Scene.give, Scene.assign_channel]
  rfl

theorem serveDevice_stays (h : s.kernel.Sound v) (line device : Word) :
    ∃ t w, s.serveDevice line device = .ok t ∧ Stays s v t w ∧
      t.scene w = (s.scene v).serve line device := by
  obtain ⟨status, receive, word, hdone⟩ : ∃ status receive word,
      completion line (s.machine.device line device) = (status, receive, word) := ⟨_, _, _, rfl⟩
  generalize hs₁ : ({ s with
    machine := s.machine.writeDevice line device word DeviceRegister.acknowledge } :
      Computer).count (fun c => { c with deviceInterrupts := c.deviceInterrupts.increment }) = s₁
  have hst : Stays s v s₁ v := by
    rw [← hs₁]
    exact .frame h rfl rfl rfl
  have hdone' : completion line ((s.scene v).machine.device line device) =
      (status, receive, word) := hdone
  have hscene : s₁.scene v = { s.scene v with
      machine := s.machine.writeDevice line device word DeviceRegister.acknowledge } := by
    rw [← hs₁]
    rfl
  simp only [serveDevice, hdone, hs₁]
  cases hc : Channel.ofDevice? line device receive with
  | error e =>
    have hserve : (s.scene v).serve line device = s₁.scene v := by
      simp only [Scene.serve, hdone', hc, hscene]
      rfl
    exact ⟨s₁, v, rfl, hst, hserve.symm⟩
  | ok c =>
    have hserve : (s.scene v).serve line device = (s₁.scene v).complete c status := by
      simp only [Scene.serve, hdone', hc, hscene]
      rfl
    rw [hserve]
    rcases signal_cases hst.sound.arranged c.key with
      ⟨q, rest, store, ready, hv, hq, hsig, ha, hf⟩ | ⟨hn, hsig⟩
    · rw [setCells_channel] at hsig
      obtain ⟨hone, t, w, hset, hstays, hcomplete⟩ :=
        modifyProcess_woken hst.sound hv hq ha hf status
      have hlow : lower s₁.kernel.softBlockCount 1 = .ok (s₁.kernel.softBlockCount - 1) :=
        if_pos hone
      simp only [hsig, ok_bind, hlow, hset]
      exact ⟨_, w, rfl, (hst.trans hstays).note _, hcomplete⟩
    · rw [setCells_channel] at hsig
      have hwoken : (s₁.scene v).woken? c.key = none := by
        rcases hn with hv | hq
        · exact if_neg hv
        · have hq' : (s₁.scene v).waiters c.key = [] := hq
          simp [Scene.woken?, hq']
      have hkept : 0 < (s₁.kernel.channels.set c (s₁.cells.value c.key + 1) c.isLt).get c ↔
          ¬(s₁.scene v).value c.key + 1 ≤ 0 := by
        have hg : (s₁.kernel.channels.set c (s₁.cells.value c.key + 1) c.isLt).get c =
            (s₁.scene v).value c.key + 1 := Vector.getElem_set_self c.isLt
        rw [hg, Int32.not_le]
      simp only [hsig, ok_bind, hkept, Scene.complete, hwoken, Scene.give, Scene.assign_channel]
      by_cases hv : (s₁.scene v).value c.key + 1 ≤ 0
      · simp only [hv, not_true_eq_false, if_false, if_true]
        exact ⟨_, v, rfl, hst.trans (.frame hst.sound rfl rfl rfl), rfl⟩
      · simp only [hv, not_false_eq_true, if_false, if_true]
        exact ⟨_, v, rfl, hst.trans (.frame hst.sound rfl rfl rfl), rfl⟩

theorem serveDevices_stays (h : s.kernel.Sound v) (line : Word) (devices : List Word) :
    ∃ t w, devices.foldlM (·.serveDevice line ·) s = .ok t ∧ Stays s v t w ∧
      t.scene w = (s.scene v).serveAll line devices := by
  induction devices generalizing s v with
  | nil => exact ⟨s, v, rfl, .refl h, rfl⟩
  | cons device devices ih =>
    obtain ⟨t, w, ht, hst, hscene⟩ := serveDevice_stays h line device
    obtain ⟨u, z, hu, hst', hscene'⟩ := ih hst.sound
    refine ⟨u, z, ?_, hst.trans hst', ?_⟩
    · rw [List.foldlM_cons, ht, ok_bind, hu]
    · rw [hscene', hscene]
      rfl

theorem interrupt_answers (h : s.kernel.Sound v) (saved : SavedState) :
    Answers s.balance (s.kernel.Attended v) (s.interrupt saved) := by
  unfold interrupt
  split
  · exact resumeOrSchedule_answers (.refl h) saved
  · split
    · exact endSlice_answers h saved
    · split
      · exact clockTick_answers h saved
      · next line _ _ _ =>
        obtain ⟨t, w, ht, hst, _⟩ := serveDevices_stays h (UInt32.ofNat line)
          (pendingDevices s.machine (UInt32.ofNat line))
        simp only [deviceInterrupt, ht, ok_bind]
        exact resumeOrSchedule_answers hst saved

end Nucleus.Computer
