import Mathlib.Algebra.BigOperators.Group.Finset.Piecewise
import Nucleus.Computer.Entry
import Nucleus.Proofs.Semaphore.Store

/-!
# Kernels in order

A kernel is sound for a view when its store shows the view and its two counts are right: one counts
the slots in use, the other the processes that stand at one of the nucleus's own semaphores. The
running process, if any, stands nowhere. A process that stands nowhere is called loose.
-/
namespace Nucleus
open scoped BigOperators

def Station.isSoft : Station → Bool
  | .ready => false
  | .semaphore key => (Channel.slot? key).isSome

theorem isSoft_channel (c : Channel) : (Station.semaphore c.key).isSoft = true := by
  simp [Station.isSoft]

namespace View
variable {v : View} {p q : Handle} {s : Station} {f : Process → Process} {x : Process}
  {l : List Handle}

def softBlocked (v : View) : Nat := ∑ c : Channel, (v.queue (.semaphore c.key)).length

theorem sum_channels (s : Station) :
    (∑ c : Channel, if s = .semaphore c.key then 1 else 0) = if s.isSoft then 1 else 0 := by
  cases s with
  | ready => simp [Station.isSoft]
  | semaphore key =>
    simp only [Station.semaphore.injEq, Station.isSoft]
    obtain hk | ⟨c, hk⟩ := Option.eq_none_or_eq_some (Channel.slot? key)
    · have hn : ∀ c : Channel, key ≠ c.key := by
        rintro c rfl
        simp at hk
      simp [hn, hk]
    · have hc : ∀ d : Channel, key = d.key ↔ c = d := fun d => by
        rw [← Channel.key_of_slot? hk]
        exact ⟨Channel.key_inj, congrArg _⟩
      simp [hc, hk]

theorem softBlocked_join :
    (v.join p s).softBlocked = v.softBlocked + if s.isSoft then 1 else 0 := by
  rw [← sum_channels, softBlocked, softBlocked, ← Finset.sum_add_distrib]
  refine Finset.sum_congr rfl fun c _ => ?_
  by_cases hc : s = .semaphore c.key
  · simp [join, hc]
  · simp [join, hc, Function.update_of_ne (Ne.symm hc)]

theorem softBlocked_leave (hw : v.Wf) (hm : p ∈ v.queue s) (hn : (v.queue s).Nodup) :
    (v.leave p).softBlocked + (if s.isSoft then 1 else 0) = v.softBlocked := by
  rw [← sum_channels, softBlocked, softBlocked, ← Finset.sum_add_distrib]
  refine Finset.sum_congr rfl fun c _ => ?_
  by_cases hc : s = .semaphore c.key
  · have hpos := List.length_pos_of_mem hm
    have hl := List.length_erase_of_mem hm
    rw [hn.erase_eq_filter, hc] at hl
    rw [hc] at hpos
    simp only [leave, hl, hc, if_true]
    omega
  · rw [queue_leave_of_notMem fun hm' => hc (hw.eq_of_mem_queue hm hm'), if_neg hc]
    rfl

theorem softBlocked_leave_loose (hw : v.Wf) (hp : v.Loose p) :
    (v.leave p).softBlocked = v.softBlocked := by
  obtain ⟨x, hx, hs⟩ := hp
  refine Finset.sum_congr rfl fun c _ => ?_
  rw [queue_leave_of_notMem (hw.notMem_queue hx hs)]

theorem softBlocked_leaveAll (hw : v.Wf) (hl : ∀ p ∈ l, p ∈ v.queue s) (hn : l.Nodup)
    (hq : (v.queue s).Nodup) :
    (v.leaveAll l).softBlocked + (if s.isSoft then l.length else 0) = v.softBlocked := by
  induction l generalizing v with
  | nil => simp [leaveAll]
  | cons p l ih =>
    obtain ⟨hp, hn⟩ := List.nodup_cons.mp hn
    have hone := softBlocked_leave hw (hl p (by simp)) hq
    have hrest := ih hw.leave (v := v.leave p)
      (fun q hm => List.mem_filter.mpr ⟨hl q (by simp [hm]), bne_iff_ne.mpr fun e => hp (e ▸ hm)⟩)
      hn (hq.filter _)
    rw [leaveAll] at hrest
    rw [leaveAll, List.foldl_cons, ← hone, ← hrest]
    split <;> simp [Nat.add_assoc]

theorem softBlocked_joinAll :
    (v.joinAll l s).softBlocked = v.softBlocked + if s.isSoft then l.length else 0 := by
  induction l generalizing v with
  | nil => simp [joinAll]
  | cons p l ih =>
    have hstep : v.joinAll (p :: l) s = (v.join p s).joinAll l s := rfl
    rw [hstep, ih, softBlocked_join, List.length_cons]
    split <;> omega

theorem softBlocked_eq_length (hw : v.Wf) (hq : ∀ s, (v.queue s).Nodup) (hn : l.Nodup)
    (hl : ∀ p, p ∈ l ↔ ∃ s, s.isSoft ∧ p ∈ v.queue s) : v.softBlocked = l.length := by
  have hcard : ∀ c : Channel, (v.queue (.semaphore c.key)).toFinset.card =
      (v.queue (.semaphore c.key)).length := fun c => List.toFinset_card_of_nodup (hq _)
  have hdisj : ∀ c ∈ (Finset.univ : Finset Channel), ∀ d ∈ (Finset.univ : Finset Channel), c ≠ d →
      Disjoint (v.queue (.semaphore c.key)).toFinset (v.queue (.semaphore d.key)).toFinset := by
    intro c _ d _ hcd
    rw [Finset.disjoint_left]
    intro p hc hd
    have hs := hw.eq_of_mem_queue (List.mem_toFinset.mp hc) (List.mem_toFinset.mp hd)
    exact hcd (Channel.key_inj (Station.semaphore.inj hs))
  have hunion : (Finset.univ.biUnion fun c : Channel => (v.queue (.semaphore c.key)).toFinset) =
      l.toFinset := by
    ext p
    rw [Finset.mem_biUnion, List.mem_toFinset, hl]
    constructor
    · rintro ⟨c, _, hc⟩
      exact ⟨_, isSoft_channel c, List.mem_toFinset.mp hc⟩
    · rintro ⟨s, hs, hp⟩
      cases s with
      | ready => cases hs
      | semaphore key =>
        obtain ⟨c, hc⟩ := Option.isSome_iff_exists.mp hs
        have hk := Channel.key_of_slot? hc
        exact ⟨c, Finset.mem_univ c, List.mem_toFinset.mpr (hk ▸ hp)⟩
  have hsum := Finset.card_biUnion hdisj
  rw [hunion, List.toFinset_card_of_nodup hn] at hsum
  rw [hsum, softBlocked]
  exact Finset.sum_congr rfl fun c _ => (hcard c).symm

theorem loose_alter (hs : ∀ y, (f y).station = y.station) : (v.alter p f).Loose q ↔ v.Loose q := by
  unfold Loose alter
  by_cases hq : q = p
  · cases hc : v.process q <;> simp [← hq, hc, hs]
  · simp [hq]

theorem loose_alter_some (hs : ∀ y, ((f y).station = some s)) :
    (v.alter p f).Loose q ↔ v.Loose q ∧ q ≠ p := by
  unfold Loose alter
  by_cases hq : q = p
  · cases hc : v.process q <;> simp [← hq, hc, hs]
  · simp [hq]

theorem loose_join : (v.join p s).Loose q ↔ v.Loose q ∧ q ≠ p := loose_alter_some fun _ => rfl

theorem loose_leave (hp : ∃ x, v.process p = some x) : (v.leave p).Loose q ↔ v.Loose q ∨ q = p := by
  obtain ⟨x, hx⟩ := hp
  unfold Loose leave alter
  by_cases hq : q = p
  · simp [hq, hx]
  · simp [hq]

theorem loose_leaveAll (hl : ∀ p ∈ l, ∃ x, v.process p = some x) :
    (v.leaveAll l).Loose q ↔ v.Loose q ∨ q ∈ l := by
  induction l generalizing v with
  | nil => simp [leaveAll]
  | cons p l ih =>
    have hrest : ∀ r ∈ l, ∃ x, (v.leave p).process r = some x := fun r hr =>
      exists_process_alter.mpr (hl r (by simp [hr]))
    have hstep : v.leaveAll (p :: l) = (v.leave p).leaveAll l := rfl
    rw [hstep, ih hrest, loose_leave (hl p (by simp)), List.mem_cons, or_assoc]

theorem loose_joinAll : (v.joinAll l s).Loose q ↔ v.Loose q ∧ q ∉ l := by
  induction l generalizing v with
  | nil => simp [joinAll]
  | cons p l ih =>
    have hstep : v.joinAll (p :: l) s = (v.join p s).joinAll l s := rfl
    rw [hstep, ih, loose_join, List.mem_cons, not_or, and_assoc]

theorem Wf.not_loose (h : v.Wf) (hm : p ∈ v.queue s) : ¬v.Loose p := fun ⟨_, hx, hs⟩ =>
  h.notMem_queue hx hs hm

theorem loose_wake (h : v.Wf) (hm : p ∈ v.queue s) {s' : Station} :
    ((v.leave p).join p s').Loose q ↔ v.Loose q := by
  obtain ⟨x, hx, _⟩ := (h.mem_queue s p).mp hm
  rw [loose_join, loose_leave ⟨x, hx⟩]
  have hp := h.not_loose hm
  constructor
  · rintro ⟨hq | hq, hqp⟩
    · exact hq
    · exact (hqp hq).elim
  · exact fun hq => ⟨.inl hq, fun e => hp (e ▸ hq)⟩

theorem loose_create (hx : x.station = none) :
    (v.create p x).Loose q ↔ v.Loose q ∨ q = p := by
  unfold Loose create
  by_cases hq : q = p
  · simp [hq, hx]
  · simp [hq]

theorem loose_adopt : (v.adopt p q).Loose = v.Loose :=
  funext fun _ => propext (loose_alter fun _ => rfl)

theorem loose_orphan : (v.orphan p).Loose = v.Loose :=
  funext fun _ => propext (loose_alter fun _ => rfl)

theorem loose_without : (v.without l).Loose q ↔ v.Loose q ∧ q ∉ l := by
  unfold Loose without
  by_cases hq : q ∈ l <;> simp [hq]

end View

structure Kernel.Sound (k : Kernel) (v : View) : Prop where
  arranged : k.store.Arranged k.ready v
  processes : k.processCount + k.store.table.free.length = maxProcesses
  softBlocks : k.softBlockCount = v.softBlocked
  running : ∀ p, k.current = some p → v.Loose p

theorem Kernel.Sound.rearrange {k k' : Kernel} {v w : View} (h : k.Sound v)
    (ha : k'.store.Arranged k'.ready w) (hf : k'.store.table.free = k.store.table.free)
    (hp : k'.processCount = k.processCount) (hs : k'.softBlockCount = w.softBlocked)
    (hr : ∀ p, k'.current = some p → w.Loose p) : k'.Sound w where
  arranged := ha
  processes := by rw [hf, hp, h.processes]
  softBlocks := hs
  running := hr

/-- What to do while no process is ready. -/
def Kernel.verdict (k : Kernel) : Dispatch :=
  if k.processCount = 0 then .halt
  else if 0 < k.softBlockCount then .wait
  else .panic (.deadlock k.processCount)

/-- Processes created and not yet killed, beyond those that are counted. -/
def Computer.balance (s : Computer) : Word :=
  s.journal.counters.created.value - s.journal.counters.killed.value -
    UInt32.ofNat s.kernel.processCount

theorem Kernel.sound_initial (timing : Timing) : (Kernel.initial timing).Sound .empty where
  arranged := Store.arranged_empty
  processes := rfl
  softBlocks := by simp [View.softBlocked, View.empty, Kernel.initial]
  running p hp := by cases hp

end Nucleus
