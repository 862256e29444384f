import Nucleus.Proofs.Authority
import Nucleus.Proofs.Computer.Queueing

/-!
# Processes take turns

Whoever becomes ready goes to the end of the ready queue, and the scheduler takes its first process.
So nobody is overtaken: a ready process only moves forward, and gets the processor when those before
it have had it. The local timer is loaded with a time slice when the scheduler gives the processor
to a process and at no other time, so a process cannot get more than its slice by what it asks for.
-/
namespace Nucleus

namespace Turn

/-- The process that the scheduler gives the processor to. -/
def dispatched? (turn : Turn) : Option Handle :=
  if turn.after.journal.counters.dispatches.value = turn.before.journal.counters.dispatches.value
  then none
  else turn.after.kernel.current

/-- Is the turn an interrupt of the local timer? -/
def IsTimer (turn : Turn) : Prop :=
  ∃ saved, turn.entry = .exception saved ∧ saved.trapCode = 0 ∧ saved.isPending Bus.timerLine

/-- What a turn makes of the ready processes. -/
structure Rotates (turn : Turn) (ready ready' : List Handle) : Prop where
  queue : ∃ readied : List Handle, readied.Nodup ∧ (∀ q ∈ readied, q ∉ ready) ∧
    turn.dispatched?.toList ++ ready' = ready.filter (fun q => !turn.loses q) ++ readied
  expired : turn.IsTimer → ∀ c, turn.before.kernel.current = some c →
    ∃ p, turn.dispatched? = some p ∧ p :: ready' = ready ++ [c]
  closer : ∀ q ∈ ready', q ∈ ready → ready'.idxOf q ≤ ready.idxOf q
  ordered : ∀ p ∈ ready', ∀ q ∈ ready', p ∈ ready → q ∈ ready →
    (ready'.idxOf p < ready'.idxOf q ↔ ready.idxOf p < ready.idxOf q)
  nodup : (turn.after.kernel.current.toList ++ ready').Nodup

structure Fair (turn : Turn) : Prop where
  rotates : ∃ ready ready', turn.before.kernel.readyList = .ok ready ∧
    turn.after.kernel.readyList = .ok ready' ∧ turn.Rotates ready ready'
  current : ∀ p, turn.dispatched? = some p → turn.after.kernel.current = some p
  counted : turn.after.journal.counters.dispatches.value =
    turn.before.journal.counters.dispatches.value + if turn.dispatched?.isSome then 1 else 0
  timing : turn.after.kernel.timing = turn.before.kernel.timing
  loaded : ∀ p, turn.dispatched? = some p →
    turn.after.machine.localTimer = turn.before.kernel.timing.quantum
  unloaded : turn.dispatched? = none → turn.after.machine.localTimer =
    if turn.dispatch = .wait then idleTimer else turn.before.machine.localTimer
  unrenewed : ∀ c, turn.before.kernel.current = some c → turn.after.kernel.current = some c →
    ¬turn.IsTimer → turn.dispatched? = none ∧
      turn.after.machine.localTimer = turn.before.machine.localTimer

/-- What is promised to those who are ready or run after a turn by the turns that follow it. -/
structure FollowedBy (turn : Turn) (later : List Turn) : Prop where
  served : ∀ ready k q, turn.after.kernel.readyList = .ok ready → ready[k]? = some q →
    k < later.countP (·.dispatched?.isSome) →
      ∃ next ∈ later, next.dispatched? = some q ∨ next.loses q
  round : ∀ ready c, turn.after.kernel.readyList = .ok ready → turn.after.kernel.current = some c →
    (∀ next ∈ later, next.IsTimer) → later.length = ready.length + 1 →
      (ready ++ [c]).Nodup ∧ later.map (·.dispatched?) = (ready ++ [c]).map some ∧
        ∀ last ∈ later.getLast?, last.after.kernel.current = some c ∧
          last.after.kernel.readyList = .ok ready
  unrenewed : ∀ c, turn.after.kernel.current = some c →
    (∀ next ∈ later, next.after.kernel.current = some c ∧ ¬next.IsTimer) →
      ∀ next ∈ later, next.dispatched? = none ∧
        next.after.machine.localTimer = next.before.machine.localTimer

end Turn

theorem SavedState.matter_eq_sliceEnd_iff {saved : SavedState} :
    saved.matter = .sliceEnd ↔ saved.trapCode = 0 ∧ saved.isPending Bus.timerLine := by
  constructor
  · intro h
    unfold SavedState.matter at h
    split at h
    · next hroute =>
      refine ⟨Route.ofCode_eq_interrupt_iff.mp hroute, ?_⟩
      split at h
      · cases h
      · next line hline =>
        split at h
        · next htimer =>
          rw [← htimer]
          exact List.find?_some hline
        · split at h <;> cases h
    · split at h
      · cases h
      · split at h
        · cases h
        · split at h <;> cases h
    · cases h
  · intro ⟨hcode, hpending⟩
    have hroute := Route.ofCode_eq_interrupt_iff.mpr hcode
    have hline : Computer.servedLine? saved = some Bus.timerLine := List.find?_cons_of_pos hpending
    simp [SavedState.matter, hroute, hline]

section
variable {α : Type} {l : List α} {f : α → Bool} {a b : α} {n : ℕ}

/-- What is among the first of a list is among the first of what is kept of it. -/
theorem mem_take_filter (ha : f a) (h : a ∈ l.take n) : a ∈ (l.filter f).take n := by
  have hshort : (l.take n).filter f <+: l.filter f := (List.take_prefix n l).filter f
  have hlength : ((l.take n).filter f).length ≤ n :=
    (List.length_filter_le _ _).trans (List.length_take_le _ _)
  exact (List.prefix_take_iff.mpr ⟨hshort, hlength⟩).subset (List.mem_filter.mpr ⟨h, ha⟩)

variable [DecidableEq α]

theorem idxOf_filter_le (ha : f a) : (l.filter f).idxOf a ≤ l.idxOf a := by
  induction l with
  | nil => exact Nat.le_refl _
  | cons x l ih =>
    by_cases hx : x = a
    · subst hx
      simp [ha]
    · rw [List.idxOf_cons_ne _ hx]
      cases hf : f x with
      | true =>
        rw [List.filter_cons_of_pos hf, List.idxOf_cons_ne _ hx]
        exact Nat.succ_le_succ ih
      | false =>
        rw [List.filter_cons_of_neg (by simp [hf])]
        exact Nat.le_succ_of_le ih

theorem idxOf_filter_lt_iff (ha : f a) (hb : f b) :
    (l.filter f).idxOf a < (l.filter f).idxOf b ↔ l.idxOf a < l.idxOf b := by
  induction l with
  | nil => rfl
  | cons x l ih =>
    by_cases hxa : x = a
    · subst hxa
      by_cases hxb : x = b
      · simp [hxb]
      · simp [ha, List.idxOf_cons_ne _ hxb]
    · by_cases hxb : x = b
      · subst hxb
        simp [hb]
      · cases hf : f x <;>
          simp [hf, List.idxOf_cons_ne _ hxa, List.idxOf_cons_ne _ hxb, ih]

end

namespace Turn
variable {turn : Turn} {ready ready' readied : List Handle} {p q : Handle}

theorem dispatched?_eq_none (h : turn.after.journal.counters.dispatches.value =
    turn.before.journal.counters.dispatches.value) : turn.dispatched? = none := if_pos h

theorem dispatched?_eq_current (h : turn.after.journal.counters.dispatches.value =
    turn.before.journal.counters.dispatches.value + 1) :
    turn.dispatched? = turn.after.kernel.current := by
  refine if_neg fun he => ?_
  rw [h] at he
  simp at he

section
variable (h : turn.dispatched?.toList ++ ready' = ready.filter (fun q => !turn.loses q) ++ readied)
variable (hnew : ∀ q ∈ readied, q ∉ ready)
include h hnew

theorem mem_kept_of_eq (hq : q ∈ ready') (hq' : q ∈ ready) :
    q ∈ ready.filter fun q => !turn.loses q := by
  have hm : q ∈ turn.dispatched?.toList ++ ready' := List.mem_append_right _ hq
  rw [h] at hm
  exact (List.mem_append.mp hm).resolve_right fun hr => hnew q hr hq'

/-- A ready process that stays ready moves forward by one place when another one is taken from the
queue, and by one place for everybody before it who ends. -/
theorem idxOf_of_eq (hn : (turn.dispatched?.toList ++ ready').Nodup) (hq : q ∈ ready')
    (hq' : q ∈ ready) :
    ready'.idxOf q + turn.dispatched?.toList.length =
      (ready.filter fun q => !turn.loses q).idxOf q := by
  have hout : q ∉ turn.dispatched?.toList := fun hm => (List.nodup_append.mp hn).2.2 q hm q hq rfl
  have hidx := congrArg (List.idxOf q) h
  rw [List.idxOf_append, if_neg hout, List.idxOf_append,
    if_pos (mem_kept_of_eq h hnew hq hq')] at hidx
  omega

theorem closer_of_eq (hn : (turn.dispatched?.toList ++ ready').Nodup) (hq : q ∈ ready')
    (hq' : q ∈ ready) : ready'.idxOf q ≤ ready.idxOf q := by
  have hidx := idxOf_of_eq h hnew hn hq hq'
  have hle : (ready.filter fun q => !turn.loses q).idxOf q ≤ ready.idxOf q :=
    idxOf_filter_le (List.mem_filter.mp (mem_kept_of_eq h hnew hq hq')).2
  omega

theorem ordered_of_eq (hn : (turn.dispatched?.toList ++ ready').Nodup) (hp : p ∈ ready')
    (hp' : p ∈ ready) (hq : q ∈ ready') (hq' : q ∈ ready) :
    ready'.idxOf p < ready'.idxOf q ↔ ready.idxOf p < ready.idxOf q := by
  have hidxp := idxOf_of_eq h hnew hn hp hp'
  have hidxq := idxOf_of_eq h hnew hn hq hq'
  have hiff :
      (ready.filter fun q => !turn.loses q).idxOf p <
        (ready.filter fun q => !turn.loses q).idxOf q ↔ ready.idxOf p < ready.idxOf q :=
    idxOf_filter_lt_iff (List.mem_filter.mp (mem_kept_of_eq h hnew hp hp')).2
      (List.mem_filter.mp (mem_kept_of_eq h hnew hq hq')).2
  rw [← hiff, ← hidxp, ← hidxq]
  omega

end

end Turn

namespace Scene
variable {σ τ ρ : Scene} {p c : Handle} {d : Dispatch} {saved : SavedState}

theorem Sound.nodup_line (hσ : σ.Sound) : (σ.current.toList ++ σ.view.queue .ready).Nodup := by
  cases hc : σ.current with
  | none => exact hσ.nodup _
  | some p => exact List.nodup_cons.mpr ⟨hσ.notMem_queue hc _, hσ.nodup _⟩

theorem Effect.expired (hσ : σ.Sound) (h : σ.Effect saved d τ) (hm : saved.matter = .sliceEnd)
    (hc : σ.current = some c) :
    ∃ p, τ.dispatches = σ.dispatches + 1 ∧ τ.current = some p ∧
      p :: τ.view.queue .ready = σ.view.queue .ready ++ [c] := by
  have hother : ∀ {m}, saved.matter = m → m = .sliceEnd := fun h => h.symm.trans hm
  cases h with
  | sliceEnded _ hc' h =>
    cases hc'.symm.trans hc
    have hqueue : (σ.preempt c saved).view.queue .ready = σ.view.queue .ready ++ [c] := by
      simp [preempt, stop, join, View.join, View.alter, setState, charge, alter]
    have hline := h.line_eq ((orderly_preempt hσ hc saved).nodup _)
    rw [hqueue] at hline
    cases h with
    | dispatched => exact ⟨_, rfl, rfl, hline⟩
    | idle hq =>
      rw [hqueue] at hq
      simp at hq
  | unasked hn | sliceIdle _ hn => simp [hn] at hc
  | spurious hm' | ticked hm' | drained hm' | served hm' | passedUp hm'
  | died hm' => cases hother hm'

end Scene

namespace Turn
variable {s t : Computer} {v w : View} {ρ : Scene} {e : Entry} {saved : SavedState} {d : Dispatch}

theorem dispatched?_cases (h : ρ.Rotated d (t.scene w))
    (hn : ρ.dispatches = s.journal.counters.dispatches.value) :
    ((Turn.mk s e d t).dispatched? = none ∧ w.queue .ready = ρ.view.queue .ready ∧
      t.journal.counters.dispatches.value = s.journal.counters.dispatches.value ∧
      t.machine.localTimer = (if d = .wait then idleTimer else ρ.machine.localTimer) ∧
      (d = .wait → t.kernel.current = none)) ∨
    ∃ p, (Turn.mk s e d t).dispatched? = some p ∧ p :: w.queue .ready = ρ.view.queue .ready ∧
      t.journal.counters.dispatches.value = s.journal.counters.dispatches.value + 1 ∧
      t.machine.localTimer = ρ.timing.quantum ∧ t.kernel.current = some p := by
  cases h with
  | kept hd hr ht hw =>
    have hd' : t.journal.counters.dispatches.value = s.journal.counters.dispatches.value :=
      hd.trans hn
    exact .inl ⟨dispatched?_eq_none hd', hr, hd', ht, hw⟩
  | @dispatched p hd hc hr ht =>
    have hd' : t.journal.counters.dispatches.value = s.journal.counters.dispatches.value + 1 :=
      hd.trans (congrArg (· + 1) hn)
    exact .inr ⟨p, (dispatched?_eq_current hd').trans hc, hr.symm, hd', ht, hc⟩

theorem isTimer_iff : (Turn.mk s (.exception saved) d t).IsTimer ↔ saved.matter = .sliceEnd := by
  rw [SavedState.matter_eq_sliceEnd_iff, IsTimer]
  constructor
  · intro ⟨saved', he, hs⟩
    cases he
    exact hs
  · exact fun hs => ⟨saved, rfl, hs⟩

theorem loses_of_ready {q : Handle} (h : s.kernel.Sound v) (ht : t.kernel.Sound w)
    (hq : q ∈ v.queue .ready) : (!(Turn.mk s e d t).loses q) = ((t.scene w).state? q).isSome := by
  have hbefore : s.kernel.table.isLive q = true := by
    rw [h.isLive_scene]
    exact h.scene.isSome_of_mem_ready hq
  rw [loses, hbefore, Bool.true_and, Bool.not_not]
  exact ht.isLive_scene q

section
variable (h : s.kernel.Sound v) (ht : t.kernel.Sound w)
  (heffect : (s.scene v).Effect saved d (t.scene w))
include h ht heffect

theorem rotates : Rotates ⟨s, .exception saved, d, t⟩ (v.queue .ready) (w.queue .ready) := by
  obtain ⟨ρ, hρ, hp⟩ := heffect.handled
  have hq := hρ.queued h.scene
  obtain ⟨fresh, hg⟩ := hq.grows
  have hn := hq.nodup_ready h.scene
  have hline : (Turn.mk s (.exception saved) d t).dispatched?.toList ++ w.queue .ready =
      ρ.view.queue .ready := by
    rcases dispatched?_cases (hp.rotated hn) hq.dispatches with ⟨hd, hr, _⟩ | ⟨p, hd, hr, _⟩
    · rw [hd, hr]
      rfl
    · rw [hd, ← hr]
      rfl
  have hkept : (v.queue .ready).filter (fun q => !(Turn.mk s (.exception saved) d t).loses q) =
      (v.queue .ready).filter fun q => (ρ.state? q).isSome :=
    List.filter_congr fun q hq => by rw [loses_of_ready h ht hq, hp.state?_eq]
  have hqueue : (Turn.mk s (.exception saved) d t).dispatched?.toList ++ w.queue .ready =
      (v.queue .ready).filter (fun q => !(Turn.mk s (.exception saved) d t).loses q) ++ fresh := by
    rw [hline, hkept]
    exact hg.ready
  rw [← hline] at hn
  constructor
  · exact ⟨fresh, hg.nodup, hg.new, hqueue⟩
  · intro htimer c hc
    obtain ⟨p, hd, hcurrent, hr⟩ := heffect.expired h.scene (isTimer_iff.mp htimer) hc
    have hd' : (Turn.mk s (.exception saved) d t).dispatched? = t.kernel.current :=
      dispatched?_eq_current hd
    exact ⟨p, hd'.trans hcurrent, hr⟩
  · exact fun q hq hq' => closer_of_eq hqueue hg.new hn hq hq'
  · exact fun p hp q hq hp' hq' => ordered_of_eq hqueue hg.new hn hp hp' hq hq'
  · exact ht.scene.nodup_line

theorem fair : Fair ⟨s, .exception saved, d, t⟩ := by
  have hrotates := rotates h ht heffect
  obtain ⟨ρ, hρ, hp⟩ := heffect.handled
  have hq := hρ.queued h.scene
  have htiming : ρ.timing = s.kernel.timing := hq.timing
  have htimer : ρ.machine.localTimer = s.machine.localTimer := hq.localTimer
  have hready : ∃ ready ready', s.kernel.readyList = .ok ready ∧ t.kernel.readyList = .ok ready' ∧
      Rotates ⟨s, .exception saved, d, t⟩ ready ready' :=
        ⟨_, _, h.readyList_eq, ht.readyList_eq, hrotates⟩
  rcases dispatched?_cases (e := .exception saved)
    (hp.rotated (hq.nodup_ready h.scene)) hq.dispatches with
    ⟨hd, _, hn, hl, hw⟩ | ⟨p, hd, hr, hn, hl, hc⟩
  · rw [htimer] at hl
    refine ⟨hready, ?_, ?_, hp.timing.trans hq.timing, ?_, fun _ => hl, fun c _ hc _ => ⟨hd, ?_⟩⟩
    · simp [hd]
    · simp [hd, hn]
    · simp [hd]
    · refine hl.trans (if_neg fun hwait => ?_)
      cases (hw hwait).symm.trans hc
  · rw [htiming] at hl
    refine ⟨hready, ?_, ?_, hp.timing.trans hq.timing, fun _ _ => hl, ?_, fun c hc' hc'' hout => ?_⟩
    · rw [hd]
      exact fun _ he => hc.trans he
    · simp [hd, hn]
    · simp [hd]
    · cases hc.symm.trans hc''
      refine (hout (isTimer_iff.mpr (hq.unrenewed h.scene hc' ?_))).elim
      rw [← hr]
      exact List.mem_cons_self

end

theorem dispatched?_start {timing : Timing} {machine : Machine} {first : SavedState} {p : Handle}
    (hboot : t.scene w = .boot timing machine p first) :
    (Turn.mk (.initial timing machine) (.start first) d t).dispatched? = some p := by
  have hcurrent : t.kernel.current = some p := congrArg Scene.current hboot
  have hcount : t.journal.counters.dispatches.value = 0 + 1 := congrArg Scene.dispatches hboot
  exact (dispatched?_eq_current hcount).trans hcurrent

theorem fair_start {timing : Timing} {machine : Machine} {first : SavedState} {p : Handle}
    (ht : t.kernel.Sound w) (hboot : t.scene w = .boot timing machine p first) :
    Fair ⟨.initial timing machine, .start first, .load first, t⟩ := by
  have hcurrent : t.kernel.current = some p := congrArg Scene.current hboot
  have hcount : t.journal.counters.dispatches.value = 0 + 1 := congrArg Scene.dispatches hboot
  have htiming : t.kernel.timing = timing := congrArg Scene.timing hboot
  have htimer : t.machine.localTimer = timing.quantum := congrArg (·.machine.localTimer) hboot
  have hready : w.queue .ready = [] := by
    refine (congrArg (·.view.queue .ready) hboot).trans ?_
    simp [Scene.boot, Scene.dispatch, View.leave, View.join, View.create, View.alter, View.empty]
  have hd := dispatched?_start (d := .load first) hboot
  refine ⟨⟨[], [], (Kernel.sound_initial timing).readyList_eq, hready ▸ ht.readyList_eq, ?_⟩, ?_,
    ?_, htiming, fun _ _ => htimer, ?_, fun c hc => ?_⟩
  · refine ⟨⟨[p], List.nodup_singleton p, by simp, by simp [hd]⟩, ?_, by simp, by simp,
      by simp [hcurrent]⟩
    rintro ⟨saved, he, _⟩
    cases he
  · rw [hd]
    exact fun _ he => hcurrent.trans he
  · rw [hd]
    exact hcount
  · simp [hd]
  · cases hc

section
variable {turn : Turn} {later : List Turn} {ready xs ys : List Handle} {c q : Handle} {k : ℕ}
variable (hfair : ∀ next ∈ later, next.Fair)
variable (hchain : (turn :: later).IsChain fun turn next => next.before.kernel = turn.after.kernel)
include hfair hchain

/-- Whoever is among the first `k + 1` is dispatched by `k + 1` dispatches, or ends. -/
theorem served_of_chain (hready : turn.after.kernel.readyList = .ok ready)
    (hq : q ∈ ready.take (k + 1)) (hk : k < later.countP (·.dispatched?.isSome)) :
    ∃ next ∈ later, next.dispatched? = some q ∨ next.loses q := by
  induction later generalizing turn ready k with
  | nil => simp at hk
  | cons next later ih =>
    obtain ⟨hbefore, hchain⟩ := List.isChain_cons_cons.mp hchain
    obtain ⟨hnext, hfair⟩ := List.forall_mem_cons.mp hfair
    obtain ⟨before, ready', hready', hafter, hrotates⟩ := hnext.rotates
    rw [hbefore, hready, Except.ok.injEq] at hready'
    subst hready'
    obtain ⟨readied, _, _, hqueue⟩ := hrotates.queue
    by_cases hl : next.loses q
    · exact ⟨next, List.mem_cons_self, .inr hl⟩
    have hline : q ∈ (next.dispatched?.toList ++ ready').take (k + 1) := by
      rw [hqueue, List.take_append]
      exact List.mem_append_left _ (mem_take_filter (by simpa using hl) hq)
    have hlater : ∀ j, q ∈ ready'.take (j + 1) → j < later.countP (·.dispatched?.isSome) →
        ∃ next' ∈ next :: later, next'.dispatched? = some q ∨ next'.loses q := by
      intro j hj hcount
      obtain ⟨next', hm, hn⟩ := ih hfair hchain hafter hj hcount
      exact ⟨next', List.mem_cons_of_mem _ hm, hn⟩
    cases hd : next.dispatched? with
    | none =>
      rw [List.countP_cons_of_neg (by simp [hd])] at hk
      rw [hd] at hline
      exact hlater k hline hk
    | some p =>
      rw [List.countP_cons_of_pos (by simp [hd])] at hk
      rw [hd] at hline
      rcases List.mem_cons.mp hline with rfl | hline
      · exact ⟨next, List.mem_cons_self, .inl hd⟩
      · cases k with
        | zero => cases hline
        | succ j => exact hlater j hline (Nat.lt_of_succ_lt_succ hk)

/-- Interrupts of the timer take the line of all who can run round: the first `xs` are dispatched,
and stand behind the others afterwards. -/
theorem round_of_chain (htimer : ∀ next ∈ later, next.IsTimer)
    (hready : turn.after.kernel.readyList = .ok ready) (hc : turn.after.kernel.current = some c)
    (hline : ready ++ [c] = xs ++ ys) (hlength : later.length = xs.length) :
    later.map (·.dispatched?) = xs.map some ∧ ∃ ready' c',
      ((turn :: later).getLast (List.cons_ne_nil _ _)).after.kernel.readyList = .ok ready' ∧
      ((turn :: later).getLast (List.cons_ne_nil _ _)).after.kernel.current = some c' ∧
      ready' ++ [c'] = ys ++ xs := by
  induction later generalizing turn ready c xs ys with
  | nil =>
    obtain rfl : xs = [] := List.length_eq_zero_iff.mp hlength.symm
    exact ⟨rfl, ready, c, hready, hc, by simpa using hline⟩
  | cons next later ih =>
    obtain ⟨hbefore, hchain⟩ := List.isChain_cons_cons.mp hchain
    obtain ⟨hnext, hfair⟩ := List.forall_mem_cons.mp hfair
    obtain ⟨hexpires, htimer⟩ := List.forall_mem_cons.mp htimer
    obtain ⟨before, ready', hready', hafter, hrotates⟩ := hnext.rotates
    rw [hbefore, hready, Except.ok.injEq] at hready'
    subst hready'
    obtain ⟨p, hd, hr⟩ := hrotates.expired hexpires c (by rw [hbefore, hc])
    cases xs with
    | nil => cases hlength
    | cons x xs =>
      rw [hline, List.cons_append, List.cons.injEq] at hr
      obtain ⟨rfl, rfl⟩ := hr
      have hlength' : later.length = xs.length := Nat.succ.inj hlength
      obtain ⟨hmap, ready', c', hlast, hcurrent, hr'⟩ :=
        ih hfair hchain htimer hafter (hnext.current p hd)
          (List.append_assoc xs ys [p]) hlength'
      rw [List.append_assoc, List.singleton_append] at hr'
      exact ⟨by rw [List.map_cons, List.map_cons, hd, hmap], ready', c', hlast, hcurrent, hr'⟩

theorem unrenewed_of_chain (hc : turn.after.kernel.current = some c)
    (hrun : ∀ next ∈ later, next.after.kernel.current = some c ∧ ¬next.IsTimer) :
    ∀ next ∈ later, next.dispatched? = none ∧
    next.after.machine.localTimer = next.before.machine.localTimer := by
  induction later generalizing turn with
  | nil => simp
  | cons next later ih =>
    obtain ⟨hbefore, hchain⟩ := List.isChain_cons_cons.mp hchain
    obtain ⟨hnext, hfair⟩ := List.forall_mem_cons.mp hfair
    obtain ⟨⟨hc', hout⟩, hrun⟩ := List.forall_mem_cons.mp hrun
    exact List.forall_mem_cons.mpr ⟨hnext.unrenewed c (by rw [hbefore, hc]) hc' hout,
      ih hfair hchain hc' hrun⟩

theorem followedBy (hturn : turn.Fair) : turn.FollowedBy later where
  served ready k q hready hk hcount := by
    refine served_of_chain hfair hchain hready ?_ hcount
    refine List.mem_iff_getElem?.mpr ⟨k, ?_⟩
    rw [List.getElem?_take_of_lt (Nat.lt_succ_self k), hk]
  round ready c hready hc htimer hlength := by
    have hlength' : later.length = (ready ++ [c]).length := by simpa using hlength
    obtain ⟨hmap, ready', c', hready', hc', hline⟩ := round_of_chain hfair hchain htimer hready hc
      (List.append_nil _).symm hlength'
    rw [List.nil_append] at hline
    obtain ⟨rfl, hc''⟩ := List.append_inj' hline rfl
    obtain rfl : c' = c := List.singleton_inj.mp hc''
    obtain ⟨_, ready'', _, hready'', hrotates⟩ := hturn.rotates
    cases hready.symm.trans hready''
    have hn := hrotates.nodup
    rw [hc] at hn
    refine ⟨(List.perm_append_singleton c' ready').nodup_iff.mpr hn, hmap, fun last hlast => ?_⟩
    obtain ⟨front, rfl⟩ := List.getLast?_eq_some_iff.mp hlast
    have hend : (turn :: (front ++ [last])).getLast (List.cons_ne_nil _ _) = last :=
      List.getLast_append_singleton (turn :: front)
    rw [hend] at hready' hc'
    exact ⟨hc', hready'⟩
  unrenewed c hc hrun := unrenewed_of_chain hfair hchain hc hrun

end

end Turn

/-- In a run of one start and any exceptions every turn treats the processes fairly, and so do the
turns after it together. -/
theorem Computer.turns_fair (timing : Timing) (machine : Machine) (first : SavedState)
    (calls : List (Machine × SavedState)) : ∃ turns, (initial timing machine).turns
        ((machine, .start first) :: calls.map fun call => (call.1, .exception call.2)) = .ok turns ∧
      (∀ turn ∈ turns, turn.Fair) ∧
        ∀ turn later, turn :: later <:+: turns → turn.FollowedBy later := by
  obtain ⟨t, w, p, hstart, ht, _, hboot⟩ := start_effect timing machine first
  have hstart' : ((initial timing machine).onMachine machine).enter (.start first) =
      .ok (.load first, t) :=
    hstart
  obtain ⟨rest, hrest, hall⟩ := turns_of_exceptions
    (I := fun s => ∃ v, s.kernel.Sound v) (Q := Turn.Fair) ⟨w, ht⟩
    (fun s machine saved ⟨v, hv⟩ => by
      have hs : (s.onMachine machine).kernel.Sound v := hv
      obtain ⟨d, t, w, he, hw, heffect⟩ := exception_effect_of_sound hs saved
      exact ⟨d, t, he, ⟨w, hw⟩, Turn.fair hs hw heffect⟩) calls
  have hrun := turns_cons hstart' hrest
  have hfair := List.forall_mem_cons.mpr ⟨Turn.fair_start ht hboot, hall⟩
  refine ⟨_, hrun, hfair, fun turn later hpart => ?_⟩
  have hsub := hpart.subset
  obtain ⟨front, back, hparts⟩ := hpart
  have hchain := isChain_turns hrun
  rw [← hparts] at hchain
  exact Turn.followedBy (fun next hn => hfair next (hsub (List.mem_cons_of_mem _ hn)))
    hchain.left_of_append.right_of_append (hfair turn (hsub List.mem_cons_self))

end Nucleus
