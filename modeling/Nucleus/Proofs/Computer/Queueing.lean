import Nucleus.Proofs.Computer.Handling

/-!
# The ready queue and the local timer

While an exception is handled, the ready queue loses those who end and grows at its end; the
scheduler takes its first process. The local timer is loaded by the scheduler alone.
-/
namespace Nucleus

theorem Machine.localTimer_credit {m : Machine} {o : Option SemKey} :
    (m.credit o).localTimer = m.localTimer := by
  cases o with
  | none => rfl
  | some key => exact localTimer_write

theorem View.localTimer_repay {v : View} {l : List Handle} {m : Machine} :
    (v.repay l m).localTimer = m.localTimer := by
  induction l generalizing m with
  | nil => rfl
  | cons p l ih => exact (ih (m := m.credit (v.debt p))).trans Machine.localTimer_credit

namespace Scene
variable {σ τ ρ : Scene} {p q : Handle} {key : SemKey} {l : List Handle} {d : Dispatch}
variable {saved : SavedState} {r : Request} {line : Word} {cs : List (Channel × Word)}
  {devices : List Word}

@[simp] theorem localTimer_assign {n : Int32} :
    (σ.assign key n).machine.localTimer = σ.machine.localTimer := by
  simp only [assign, cells, NucleusCells.assign]
  split
  · rfl
  · exact Machine.localTimer_write

theorem localTimer_signal : (σ.signal key).machine.localTimer = σ.machine.localTimer := by
  unfold signal
  split <;> exact localTimer_assign

theorem localTimer_serveAll :
    (σ.serveAll line devices).machine.localTimer = σ.machine.localTimer := by
  induction devices generalizing σ with
  | nil => rfl
  | cons device devices ih =>
    have hserve : (σ.serve line device).machine.localTimer = σ.machine.localTimer := by
      rw [serve_eq]
      exact Machine.localTimer_writeDevice
    exact (ih (σ := σ.serve line device)).trans hserve

theorem complete_frame (σ : Scene) (c : Channel) (status : Word) :
    ∃ view channels banked, σ.complete c status = { σ with view, channels, banked } := by
  unfold complete
  rw [give, assign_channel]
  split
  · exact ⟨_, _, _, rfl⟩
  · split <;> exact ⟨_, _, _, rfl⟩

theorem completeAll_frame (σ : Scene) (cs : List (Channel × Word)) :
    ∃ view channels banked, σ.completeAll cs = { σ with view, channels, banked } := by
  induction cs generalizing σ with
  | nil => exact ⟨_, _, _, rfl⟩
  | cons c cs ih =>
    obtain ⟨view, channels, banked, h⟩ := complete_frame σ c.1 c.2
    obtain ⟨view', channels', banked', h'⟩ := ih (σ.complete c.1 c.2)
    rw [h] at h'
    exact ⟨view', channels', banked', (congrArg (·.completeAll cs) h).trans h'⟩

theorem dispatches_completeAll : (σ.completeAll cs).dispatches = σ.dispatches := by
  obtain ⟨_, _, _, h⟩ := completeAll_frame σ cs
  rw [h]

theorem timing_completeAll : (σ.completeAll cs).timing = σ.timing := by
  obtain ⟨_, _, _, h⟩ := completeAll_frame σ cs
  rw [h]

theorem stopwatch_completeAll : (σ.completeAll cs).stopwatch = σ.stopwatch := by
  obtain ⟨_, _, _, h⟩ := completeAll_frame σ cs
  rw [h]

/-- From `σ` to `ρ` the ready queue loses those who end, and `fresh` join it at its end. The running
process is among them only when its slice has ended. -/
structure Grows (σ : Scene) (saved : SavedState) (ρ : Scene) (fresh : List Handle) : Prop where
  nodup : fresh.Nodup
  new : ∀ q ∈ fresh, q ∉ σ.view.queue .ready
  preempted : ∀ q ∈ fresh, σ.current = some q → saved.matter = .sliceEnd
  ready : ρ.view.queue .ready = (σ.view.queue .ready).filter (fun q => (ρ.state? q).isSome) ++ fresh

/-- What handling an exception does to the ready queue and the local timer. -/
structure Queued (σ : Scene) (saved : SavedState) (ρ : Scene) : Prop where
  dispatches : ρ.dispatches = σ.dispatches
  timing : ρ.timing = σ.timing
  localTimer : ρ.machine.localTimer = σ.machine.localTimer
  grows : ∃ fresh, σ.Grows saved ρ fresh

theorem Sound.isSome_of_mem_ready (hσ : σ.Sound) (hq : q ∈ σ.view.queue .ready) :
    (σ.state? q).isSome := by
  obtain ⟨x, hx, _⟩ := (hσ.wf.mem_queue _ q).mp hq
  simp [state?, hx]

section
variable (hσ : σ.Sound) {fresh : List Handle}
include hσ

theorem Sound.filter_ready (hlive : ∀ q, (σ.state? q).isSome → (ρ.state? q).isSome) :
    (σ.view.queue .ready).filter (fun q => (ρ.state? q).isSome) = σ.view.queue .ready :=
  List.filter_eq_self.mpr fun q hq => hlive q (hσ.isSome_of_mem_ready hq)

theorem Sound.grows_nil (hlive : ∀ q, (σ.state? q).isSome → (ρ.state? q).isSome)
    (hr : ρ.view.queue .ready = σ.view.queue .ready) : σ.Grows saved ρ [] where
  nodup := List.nodup_nil
  new := by simp
  preempted := by simp
  ready := by rw [hr, hσ.filter_ready hlive, List.append_nil]

theorem Sound.grows_woken (hn : fresh.Nodup) (hwait : ∀ q ∈ fresh, ∃ key, q ∈ σ.waiters key)
    (hlive : ∀ q, (σ.state? q).isSome → (ρ.state? q).isSome)
    (hr : ρ.view.queue .ready = σ.view.queue .ready ++ fresh) : σ.Grows saved ρ fresh where
  nodup := hn
  new q hq hready := by
    obtain ⟨key, hw⟩ := hwait q hq
    cases hσ.orderly.apart hw hready
  preempted q hq hc := by
    obtain ⟨key, hw⟩ := hwait q hq
    exact (hσ.notMem_queue hc _ hw).elim
  ready := by rw [hr, hσ.filter_ready hlive]

theorem Sound.grows_finish : σ.Grows saved (σ.finish l) [] where
  nodup := List.nodup_nil
  new := by simp
  preempted := by simp
  ready := by
    have hqueue : (σ.finish l).view.queue .ready = (σ.view.queue .ready).filter (· ∉ l) := rfl
    rw [hqueue, List.append_nil]
    refine List.filter_congr fun q hq => ?_
    have hlive := hσ.isSome_of_mem_ready hq
    by_cases hl : q ∈ l <;> simp [hl, hlive]

end

theorem Grows.congr {fresh : List Handle} {ρ' : Scene} (h : σ.Grows saved ρ fresh)
    (hv : ρ'.view = ρ.view) : σ.Grows saved ρ' fresh := by
  have hstate : ∀ q, ρ'.state? q = ρ.state? q := fun q => by rw [state?, hv, state?]
  refine ⟨h.nodup, h.new, h.preempted, ?_⟩
  simp only [hv, hstate]
  exact h.ready

theorem Grows.setState {fresh : List Handle} (h : σ.Grows saved ρ fresh)
    (f : SavedState → SavedState) : σ.Grows saved (ρ.setState p f) fresh where
  nodup := h.nodup
  new := h.new
  preempted := h.preempted
  ready := by
    refine h.ready.trans (congrArg (· ++ fresh) (List.filter_congr fun q _ => ?_))
    rw [state?_setState]
    split <;> simp

theorem Queued.setState (h : σ.Queued saved ρ) (f : SavedState → SavedState) :
    σ.Queued saved (ρ.setState p f) where
  dispatches := h.dispatches
  timing := h.timing
  localTimer := h.localTimer
  grows := h.grows.imp fun _ hg => hg.setState f

theorem Sound.queued_finish (hσ : σ.Sound) : σ.Queued saved (σ.finish l) where
  dispatches := rfl
  timing := rfl
  localTimer := View.localTimer_repay
  grows := ⟨[], hσ.grows_finish⟩

theorem Sound.grows_created (hσ : σ.Sound) {child : Handle} {address : Word}
    {support : Option SupportArea} (hn : σ.view.process child = none) :
    σ.Grows saved (σ.enrol p child address support) [child] where
  nodup := List.nodup_singleton child
  new q hq hready := by
    rw [List.mem_singleton.mp hq] at hready
    obtain ⟨x, hx, _⟩ := (hσ.wf.mem_queue _ child).mp hready
    cases hn.symm.trans hx
  preempted q hq hq' := by
    rw [List.mem_singleton.mp hq] at hq'
    obtain ⟨x, hx, _⟩ := hσ.running child hq'
    cases hn.symm.trans hx
  ready := by
    have hqueue : (σ.enrol p child address support).view.queue .ready =
        σ.view.queue .ready ++ [child] := by
      simp [enrol, View.join, View.adopt, View.create, View.alter]
    rw [hqueue, hσ.filter_ready fun q hq => ?_]
    rw [state?_enrol]
    split
    · rfl
    · exact hq

theorem ready_signal (hσ : σ.Sound) :
    (σ.signal key).view.queue .ready = σ.view.queue .ready ++ (σ.woken? key).toList := by
  unfold signal
  cases h : σ.woken? key with
  | none => simp [give, assign]
  | some q =>
    exact ready_wake (σ := σ.give key) (hσ.give key).orderly (mem_waiters_of_woken? (σ := σ) h)

theorem Performed.queued (hσ : σ.Sound) (h : σ.Performed p r ρ) : σ.Queued saved ρ := by
  cases h with
  | created hn =>
    refine Queued.setState (Queued.setState ?_ _) _
    exact ⟨rfl, rfl, rfl, _, hσ.grows_created hn⟩
  | answered =>
    refine Queued.setState ?_ _
    exact ⟨rfl, rfl, rfl, [], hσ.grows_nil (fun _ => id) rfl⟩
  | outlived => exact hσ.queued_finish.setState _
  | ended => exact hσ.queued_finish
  | passed => exact ⟨rfl, rfl, localTimer_assign, [], hσ.grows_nil (fun _ => id) rfl⟩
  | @consumed r c =>
    have hq : σ.Queued saved ((σ.take c.key).setState p (·.setV0 (σ.banked.get c))) := by
      refine Queued.setState ?_ _
      exact ⟨rfl, rfl, localTimer_assign, [], hσ.grows_nil (fun _ => id) rfl⟩
    exact ⟨hq.dispatches, hq.timing, hq.localTimer, hq.grows.imp fun _ hg => hg.congr rfl⟩
  | @blocked r key =>
    refine ⟨rfl, rfl, localTimer_assign, [], hσ.grows_nil (fun q hq => ?_) ?_⟩
    · simpa [block, take] using hq
    · simp [block, stop, charge, join, alter, View.join, View.alter, take, assign]
  | @signalled key =>
    have hframe : (σ.signal key).dispatches = σ.dispatches ∧ (σ.signal key).timing = σ.timing := by
      unfold signal
      split <;> exact ⟨rfl, rfl⟩
    have hnodup : (σ.woken? key).toList.Nodup := by cases σ.woken? key <;> simp
    refine ⟨hframe.1, hframe.2, localTimer_signal, _,
      hσ.grows_woken hnodup (fun q hq => ⟨key, ?_⟩) (fun q hq => ?_) (ready_signal hσ)⟩
    · exact mem_waiters_of_woken? (Option.mem_toList.mp hq)
    · rwa [state?_signal]

theorem ready_tick (hσ : σ.Sound) : σ.tick.view.queue .ready =
    σ.view.queue .ready ++ σ.waiters Channel.clock.key := by
  have hqueue : σ.tick.view.queue .ready =
      (σ.view.leaveAll (σ.waiters Channel.clock.key)).queue .ready ++
        σ.waiters Channel.clock.key := by
    rw [tick, View.queue_joinAll, if_pos rfl]
  rw [hqueue, View.queue_leaveAll, List.filter_eq_self.mpr fun q hq => ?_]
  simp only [decide_eq_true_eq]
  intro hw
  cases hσ.orderly.apart hq hw

theorem nodup_wokenAll (hσ : σ.Sound) (hn : (cs.map (·.1)).Nodup) :
    (σ.wokenAll cs).Nodup := by
  have hready := (hσ.completeAll cs).nodup .ready
  rw [ready_completeAll hσ hn] at hready
  exact (List.nodup_append.mp hready).2.1

theorem Handled.queued (hσ : σ.Sound) (h : σ.Handled saved ρ) : σ.Queued saved ρ := by
  cases h with
  | ignored => exact ⟨rfl, rfl, rfl, [], hσ.grows_nil (fun _ => id) rfl⟩
  | @sliceEnded p hm hc =>
    refine ⟨rfl, rfl, rfl, [p], List.nodup_singleton p, fun q hq => ?_, fun _ _ _ => hm, ?_⟩
    · rw [List.mem_singleton.mp hq]
      exact hσ.notMem_queue hc _
    · have hqueue : (σ.preempt p saved).view.queue .ready = σ.view.queue .ready ++ [p] := by
        simp [preempt, stop, join, View.join, View.alter, setState, charge, alter]
      rw [hqueue, hσ.filter_ready fun q hq => ?_]
      simp only [preempt, state?_stop, state?_join, state?_setState, state?_charge]
      split <;> simpa using hq
  | ticked hm =>
    refine ⟨rfl, rfl, Machine.localTimer_loadIntervalTimer, _, hσ.grows_woken (hσ.nodup _)
      (fun q hq => ⟨_, hq⟩) (fun q hq => ?_) (ready_tick hσ)⟩
    rwa [state?_tick]
  | @drained line hm =>
    have hready : (σ.completeAll (saved.completions σ.machine)).view.queue .ready =
        σ.view.queue .ready ++ σ.wokenAll (saved.completions σ.machine) :=
      ready_completeAll hσ SavedState.nodup_completions
    have htimer : (σ.serveAll line (Computer.pendingDevices σ.machine line)).machine.localTimer =
        σ.machine.localTimer := localTimer_serveAll
    rw [serveAll_completions hm] at htimer ⊢
    refine ⟨dispatches_completeAll, timing_completeAll, htimer, _,
      hσ.grows_woken ?_ (fun q hq => ?_) (fun q hq => ?_) hready⟩
    · exact nodup_wokenAll hσ SavedState.nodup_completions
    · obtain ⟨c, _, hw⟩ := List.mem_filterMap.mp hq
      exact ⟨_, mem_waiters_of_woken? hw⟩
    · rw [← Option.ne_none_iff_isSome] at hq ⊢
      exact state?_completeAll_eq_none.not.mpr hq
  | served hm hc h =>
    have hq : (σ.setState _ fun _ => saved.pastInstruction).Queued saved ρ :=
      h.queued (hσ.setState _)
    exact ⟨hq.dispatches, hq.timing, hq.localTimer,
      hq.grows.imp fun fresh hg => ⟨hg.nodup, hg.new, hg.preempted, hg.ready⟩⟩
  | passedUp => exact ⟨rfl, rfl, Machine.localTimer_writeState, [], hσ.grows_nil (fun _ => id) rfl⟩
  | died => exact hσ.queued_finish

/-- Either the ready queue is left as it is, or its first process is given the processor for one
time slice. -/
inductive Rotated (ρ : Scene) (d : Dispatch) (τ : Scene) : Prop
  | kept (hn : τ.dispatches = ρ.dispatches) (hr : τ.view.queue .ready = ρ.view.queue .ready)
      (ht : τ.machine.localTimer = if d = .wait then idleTimer else ρ.machine.localTimer)
      (hw : d = .wait → τ.current = none) : Rotated ρ d τ
  | dispatched {p : Handle} (hn : τ.dispatches = ρ.dispatches + 1) (hc : τ.current = some p)
      (hr : ρ.view.queue .ready = p :: τ.view.queue .ready)
      (ht : τ.machine.localTimer = ρ.timing.quantum) : Rotated ρ d τ

theorem Proceeds.rotated (hn : (ρ.view.queue .ready).Nodup) (h : ρ.Proceeds d τ) :
    ρ.Rotated d τ := by
  cases h with
  | decided hd => exact .kept rfl rfl (if_neg hd).symm fun hw => (hd hw).elim
  | scheduled hc h =>
    have hline := h.line_eq hn
    cases h with
    | dispatched => exact .dispatched rfl rfl hline.symm rfl
    | idle _ _ _ ht => exact .kept rfl rfl ht fun _ => rfl

theorem Proceeds.timing (h : ρ.Proceeds d τ) : τ.timing = ρ.timing := by
  cases h with
  | decided => rfl
  | scheduled _ h => cases h <;> rfl

theorem Proceeds.state?_eq (h : ρ.Proceeds d τ) (q : Handle) : τ.state? q = ρ.state? q := by
  cases h with
  | decided => rfl
  | scheduled _ h => exact h.state?_eq q

theorem Queued.nodup_ready (hσ : σ.Sound) (h : σ.Queued saved ρ) : (ρ.view.queue .ready).Nodup := by
  obtain ⟨fresh, hg⟩ := h.grows
  rw [hg.ready]
  refine List.Nodup.append ((hσ.nodup _).filter _) hg.nodup fun q hq hf => ?_
  exact hg.new q hf (List.mem_filter.mp hq).1

/-- The scheduler does not choose the process that ran before, unless its slice has ended. -/
theorem Queued.unrenewed (hσ : σ.Sound) (h : σ.Queued saved ρ) (hc : σ.current = some p)
    (hp : p ∈ ρ.view.queue .ready) : saved.matter = .sliceEnd := by
  obtain ⟨fresh, hg⟩ := h.grows
  rw [hg.ready] at hp
  rcases List.mem_append.mp hp with hp | hp
  · exact (hσ.notMem_queue hc _ (List.mem_filter.mp hp).1).elim
  · exact hg.preempted p hp hc

end Scene
end Nucleus
