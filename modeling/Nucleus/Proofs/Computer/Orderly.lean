import Nucleus.Proofs.Computer.Scene

/-!
# Scenes in order

In a view in order every process stands in one queue at most. The changes that an exception makes
keep that, and hardly any of them touches the state of a process.
-/
namespace Nucleus

namespace View
variable {v : View} {p q : Handle} {s : Station} {l : List Handle}

/-- Every process stands in one queue at most, and there once. -/
structure Orderly (v : View) : Prop where
  apart : ∀ {p s s'}, p ∈ v.queue s → p ∈ v.queue s' → s = s'
  nodup : ∀ s, (v.queue s).Nodup

theorem Orderly.congr (h : v.Orderly) {w : View} (hq : w.queue = v.queue) : w.Orderly := by
  constructor
  · intro p s s' hp hp'
    rw [hq] at hp hp'
    exact h.apart hp hp'
  · intro s
    rw [hq]
    exact h.nodup s

theorem Orderly.filter (h : v.Orderly) {w : View} {f : Handle → Bool}
    (hq : ∀ s, w.queue s = (v.queue s).filter f) : w.Orderly := by
  constructor
  · intro p s s' hp hp'
    rw [hq] at hp hp'
    exact h.apart (List.mem_filter.mp hp).1 (List.mem_filter.mp hp').1
  · intro s
    rw [hq]
    exact (h.nodup s).filter _

theorem Orderly.leave (h : v.Orderly) : (v.leave p).Orderly := h.filter fun _ => rfl

theorem mem_queue_join {s' : Station} :
    q ∈ (v.join p s).queue s' ↔ q ∈ v.queue s' ∨ (q = p ∧ s' = s) := by
  by_cases hs : s' = s
  · simp [join, hs]
  · simp [join, hs]

theorem Orderly.join (h : v.Orderly) (hp : ∀ s, p ∉ v.queue s) : (v.join p s).Orderly := by
  constructor
  · intro q s₁ s₂ h₁ h₂
    rcases mem_queue_join.mp h₁ with hq | ⟨hq, hs⟩
    · rcases mem_queue_join.mp h₂ with hq' | ⟨rfl, _⟩
      · exact h.apart hq hq'
      · exact (hp _ hq).elim
    · rcases mem_queue_join.mp h₂ with hq' | ⟨_, hs'⟩
      · exact (hp _ (hq ▸ hq')).elim
      · rw [hs, hs']
  · intro s'
    by_cases hs : s' = s
    · subst hs
      have hd : List.Disjoint (v.queue s') [p] := by
        intro q hq hqp
        rw [List.mem_singleton] at hqp
        exact hp _ (hqp ▸ hq)
      simpa [View.join] using List.Nodup.append (h.nodup s') (List.nodup_singleton p) hd
    · simpa [View.join, hs] using h.nodup s'

theorem Orderly.wake (h : v.Orderly) : ((v.leave p).join p s).Orderly :=
  h.leave.join fun s hp => by simp [View.leave] at hp

theorem queue_leaveAll : (v.leaveAll l).queue s = (v.queue s).filter (· ∉ l) := by
  induction l generalizing v with
  | nil => simp [leaveAll]
  | cons p l ih =>
    have hstep : v.leaveAll (p :: l) = (v.leave p).leaveAll l := rfl
    rw [hstep, ih, leave, List.filter_filter]
    refine List.filter_congr fun q _ => ?_
    by_cases hq : q = p <;> simp [hq]

theorem queue_joinAll {s' : Station} :
    (v.joinAll l s).queue s' = if s' = s then v.queue s' ++ l else v.queue s' := by
  induction l generalizing v with
  | nil => simp [joinAll]
  | cons p l ih =>
    have hstep : v.joinAll (p :: l) s = (v.join p s).joinAll l s := rfl
    rw [hstep, ih]
    by_cases hs : s' = s
    · simp [join, hs]
    · simp [join, hs]

theorem Orderly.joinAll (h : v.Orderly) (hl : ∀ p ∈ l, ∀ s, p ∉ v.queue s) (hn : l.Nodup) :
    (v.joinAll l s).Orderly := by
  induction l generalizing v with
  | nil => exact h
  | cons p l ih =>
    obtain ⟨hp, hn⟩ := List.nodup_cons.mp hn
    refine ih (h.join (hl p (by simp))) (fun q hq s' hm => ?_) hn
    rcases mem_queue_join.mp hm with hm | ⟨rfl, _⟩
    · exact hl q (by simp [hq]) s' hm
    · exact hp hq

theorem Orderly.tick (h : v.Orderly) :
    ((v.leaveAll (v.queue s)).joinAll (v.queue s) .ready).Orderly := by
  refine (h.filter fun _ => queue_leaveAll).joinAll (fun p hp s' hm => ?_) (h.nodup s)
  rw [queue_leaveAll] at hm
  simp [hp] at hm

end View

namespace Scene
variable {σ τ : Scene} {p q : Handle} {key k : SemKey} {d : Dispatch} {saved : SavedState}
variable {c : Channel} {status : Word}

/-- A scene that a sound kernel shows: the processor runs a process that stands in no queue. -/
structure Sound (σ : Scene) : Prop where
  wf : σ.view.Wf
  nodup : ∀ s, (σ.view.queue s).Nodup
  running : ∀ p, σ.current = some p → σ.view.Loose p

theorem Sound.orderly (h : σ.Sound) : σ.view.Orderly := ⟨h.wf.eq_of_mem_queue, h.nodup⟩

theorem Sound.notMem_queue (h : σ.Sound) (hc : σ.current = some p) (s : Station) :
    p ∉ σ.view.queue s := by
  obtain ⟨x, hx, hs⟩ := h.running p hc
  exact h.wf.notMem_queue hx hs

theorem Sound.isSome_of_mem_waiters (h : σ.Sound) (hq : q ∈ σ.waiters key) :
    (σ.state? q).isSome := by
  obtain ⟨x, hx, _⟩ := (h.wf.mem_queue _ q).mp hq
  simp [state?, hx]

theorem Sound.setState (hσ : σ.Sound) (f : SavedState → SavedState) : (σ.setState p f).Sound where
  wf := hσ.wf.alter (fun _ => rfl) fun _ => rfl
  nodup := hσ.nodup
  running q hq := (View.loose_alter (f := fun x => { x with state := f x.state }) fun _ => rfl).mpr
    (hσ.running q hq)

theorem Sound.state?_setState_running (hσ : σ.Sound) (hc : σ.current = some p) (x : SavedState) :
    (σ.setState p fun _ => x).state? p = some x := by
  obtain ⟨y, hy, _⟩ := hσ.running p hc
  rw [state?_setState, if_pos rfl, state?, hy]
  rfl

theorem orderly_block (hσ : σ.Sound) (hc : σ.current = some p) (k : SemKey) :
    (σ.block p k).view.Orderly :=
  (hσ.orderly.join (s := .semaphore k) (hσ.notMem_queue hc)).congr rfl

theorem orderly_preempt (hσ : σ.Sound) (hc : σ.current = some p) (saved : SavedState) :
    (σ.preempt p saved).view.Orderly :=
  ((hσ.orderly.congr (w := ((σ.charge p).setState p fun _ => saved).view) rfl).join (s := .ready)
    (hσ.notMem_queue hc)).congr rfl

theorem orderly_finish (hσ : σ.Sound) (l : List Handle) : (σ.finish l).view.Orderly :=
  hσ.orderly.filter fun _ => rfl

theorem woken?_eq_some (h : σ.woken? k = some q) :
    σ.value k + 1 ≤ 0 ∧ ∃ rest, σ.waiters k = q :: rest := by
  unfold woken? at h
  split at h
  · next hv => exact ⟨hv, List.head?_eq_some_iff.mp h⟩
  · cases h

theorem mem_waiters_of_woken? (h : σ.woken? k = some q) : q ∈ σ.waiters k := by
  obtain ⟨_, rest, hq⟩ := woken?_eq_some h
  simp [hq]

theorem Sound.wake (hσ : σ.Sound) (hq : q ∈ σ.waiters k) : (σ.wake q).Sound where
  wf := by
    obtain ⟨x, hx, _⟩ := (hσ.wf.mem_queue _ q).mp hq
    exact hσ.wf.leave.join (View.process_alter_self hx) rfl
  nodup := hσ.orderly.wake.nodup
  running p hp := (View.loose_wake hσ.wf hq).mpr (hσ.running p hp)

theorem Sound.give (hσ : σ.Sound) (k : SemKey) : (σ.give k).Sound := ⟨hσ.wf, hσ.nodup, hσ.running⟩

theorem Sound.complete (hσ : σ.Sound) (c : Channel) (status : Word) :
    (σ.complete c status).Sound := by
  unfold Scene.complete
  cases h : σ.woken? c.key with
  | some q => exact ((hσ.give c.key).wake (mem_waiters_of_woken? (σ := σ) h)).setState _
  | none =>
    simp only
    split
    · exact hσ.give c.key
    · exact ⟨hσ.wf, hσ.nodup, hσ.running⟩

theorem Sound.completeAll (hσ : σ.Sound) (cs : List (Channel × Word)) :
    (σ.completeAll cs).Sound := by
  induction cs generalizing σ with
  | nil => exact hσ
  | cons c cs ih => exact ih (hσ.complete c.1 c.2)

theorem state?_setState_eq_none {f : SavedState → SavedState} {q : Handle} :
    (σ.setState p f).state? q = none ↔ σ.state? q = none := by
  rw [state?_setState]
  split <;> simp

theorem state?_signal (q : Handle) : (σ.signal k).state? q = σ.state? q := by
  unfold signal
  split
  · exact state?_wake
  · rfl

theorem state?_complete (c : Channel) (status : Word) (q : Handle) :
    (σ.complete c status).state? q =
    if σ.woken? c.key = some q then (σ.state? q).map (·.setV0 status) else σ.state? q := by
  unfold complete
  cases h : σ.woken? c.key with
  | some q' =>
    have hgive : (σ.give c.key).state? q = σ.state? q := rfl
    by_cases hq : q = q'
    · simp [hq, give]
    · simp [hq, Ne.symm hq, give]
  | none =>
    simp only
    split <;> rfl

theorem state?_completeAll_eq_none {cs : List (Channel × Word)} {q : Handle} :
    (σ.completeAll cs).state? q = none ↔ σ.state? q = none := by
  induction cs generalizing σ with
  | nil => rfl
  | cons c cs ih =>
    have hstep : σ.completeAll (c :: cs) = (σ.complete c.1 c.2).completeAll cs := rfl
    rw [hstep, ih, state?_complete]
    split <;> simp

theorem state?_tick (q : Handle) : σ.tick.state? q = σ.state? q :=
  (View.map_joinAll (fun _ => rfl) _ _ q).trans (View.map_leaveAll (fun _ => rfl) _ _ q)

theorem Scheduled.state?_eq (h : σ.Scheduled d τ) (q : Handle) : τ.state? q = σ.state? q := by
  cases h with
  | dispatched => exact state?_dispatch
  | idle => rfl

theorem Continued.state?_eq (h : σ.Continued saved d τ) (q : Handle) : τ.state? q = σ.state? q := by
  cases h with
  | resumed => rfl
  | scheduled _ h => exact h.state?_eq q

end Scene

end Nucleus
