import Nucleus.Proofs.Process.Ancestry
import Nucleus.Proofs.Computer.Reading
import Nucleus.Proofs.Run

/-!
# The forest of processes

The parents and the rings of children that a table keeps are one ordered forest, however the table
came about, and the operations on families are what they say on it: a child comes last among its new
siblings, or is taken from among them, and nothing else in the table is touched but the links of
these siblings. So whoever climbs from a process meets its ancestors and comes to an end.
-/
namespace Nucleus
open Relation

namespace Table
variable {t u : Table} {ring : Station → Ring} {v : View} {p c q : Handle} {d : Descriptor}

/-- `children` are the children of every process, oldest first: the parents say the same, every
parent is live, and nobody is below itself. -/
structure IsForest (t : Table) (children : Handle → List Handle) : Prop where
  listed : ∀ p, t.isLive p → t.childrenOf p = .ok (children p)
  nodup : ∀ p, (children p).Nodup
  mem_iff : ∀ p c, c ∈ children p ↔ t.IsChild c p
  live : ∀ c p, t.IsChild c p → t.isLive p
  acyclic : ∀ p, ¬TransGen t.IsChild p p

/-- Tables that come about by the operations on the pool and on families, beginning with a fresh
table or with that of a nucleus in the midst of its run. -/
inductive Grown : Table → Prop
  | empty : Grown .empty
  | running {timing : Timing} {machine : Machine} {s : Computer}
      (h : Computer.Reaches (.initial timing machine) s) :
      Grown s.kernel.table
  | alloc {t u : Table} {p : Handle} (h : Grown t) (hu : t.alloc = some (p, u)) : Grown u
  | release {t u : Table} {p : Handle} (h : Grown t) (hu : t.release p = .ok u) : Grown u
  | adopt {t u : Table} {p c : Handle} {d : Descriptor} (h : Grown t) (hp : t.isLive p)
      (hc : t.find? c = some d) (hd : d.parent = none) (hpc : ¬ReflTransGen t.IsChild p c)
      (hu : t.adopt p c = .ok u) : Grown u
  | dropFirstChild {t u : Table} {p : Handle} {o : Option Handle} (h : Grown t)
      (hu : t.dropFirstChild p = .ok (o, u)) : Grown u
  | detach {t u : Table} {c : Handle} {o : Option Handle} (h : Grown t)
      (hu : t.detach c = .ok (o, u)) : Grown u

theorem Pooled.occupied (h : t.Pooled) (hp : p.InPool) :
    ((t.entry p).parent = none ∧ (t.entry p).children = {}) ∨
      ∃ q, q.slot = p.slot ∧ t.find? q = some (t.entry p) := by
  by_cases hl : (t.entry p).location = .free
  · exact .inl (h.vacant p hp hl)
  · have hs := h.own p hp
    have hpool : (t.entry p).handle.InPool := by rwa [Handle.InPool, hs]
    exact .inr ⟨_, hs, find?_eq_some_iff.mpr ⟨hpool, entry_congr hs, rfl, hl⟩⟩

theorem inPool_of_dropFirstChild {r : Option Handle × Table} (h : t.dropFirstChild p = .ok r) :
    p.InPool := by
  by_contra hp
  have hp' : ¬p.slot.toNat < maxProcesses := hp
  simp [dropFirstChild, slot, hp', bind, Except.bind] at h

theorem inPool_of_detach {r : Option Handle × Table} (h : t.detach c = .ok r) : c.InPool := by
  by_contra hc
  have hc' : ¬c.slot.toNat < maxProcesses := hc
  simp [detach, slot, hc', bind, Except.bind] at h

theorem dropFirstChild_congr (h : p.slot = q.slot) : t.dropFirstChild p = t.dropFirstChild q := by
  simp only [dropFirstChild, slot, modify, h]

namespace Shows

theorem isForest (h : t.Shows ring v) : t.IsForest v.children where
  listed _ := h.childrenOf_of_isLive
  nodup := h.nodup_children
  mem_iff p c := by
    rw [h.isChild_eq]
    exact h.wf.mem_children p c
  live c p hc := by
    rw [h.isChild_eq] at hc
    exact h.isLive_iff.mpr (h.wf.parent_live hc)
  acyclic p := by
    rw [h.isChild_eq]
    exact fun hp => h.wf.forest.transGen.asymmetric p p hp hp

theorem children_orphan (h : t.Shows ring v) (hm : c ∈ v.children p) :
    (v.orphan c).children = Function.update v.children p ((v.children p).erase c) :=
  h.families.filter_ne hm

theorem adopt_eq (h : t.Shows ring v) (hp : t.isLive p) (hc : t.find? c = some d)
    (hd : d.parent = none) (hpc : ¬ReflTransGen t.IsChild p c) :
    ∃ u, t.adopt p c = .ok u ∧ u.Shows ring (v.adopt p c) ∧
      Replanted p c (c :: v.children p) (some p) t u := by
  obtain ⟨y, hy⟩ := h.isLive_iff.mp hp
  rw [h.isChild_eq] at hpc
  exact h.adopt hy (h.registers.process_eq hc) hd hpc

theorem dropFirstChild_eq (h : t.Shows ring v) {cs : List Handle} (hc : v.children p = c :: cs) :
    ∃ u, t.dropFirstChild p = .ok (some c, u) ∧ u.Shows ring (v.orphan c) ∧
      Replanted p c (v.children p) none t u := by
  obtain ⟨x, hx⟩ := h.wf.parent_live ((h.wf.mem_children p c).mp (by simp [hc]))
  exact h.dropFirstChild_cons hx hc

theorem detach_eq (h : t.Shows ring v) (hc : t.IsChild c p) :
    ∃ u, t.detach c = .ok (some c, u) ∧ u.Shows ring (v.orphan c) ∧
      Replanted p c (v.children p) none t u := by
  rw [h.isChild_eq] at hc
  obtain ⟨x, hx, hp⟩ := hc
  exact h.detach_some hx hp

theorem detach_eq_self (h : t.Shows ring v) (hc : c.InPool) (hn : ∀ p, ¬t.IsChild c p) :
    t.detach c = .ok (none, t) := by
  cases hp : (t.entry c).parent with
  | none => simp [detach, slot_eq hc, hp]
  | some p =>
    rcases h.registers.pool.occupied hc with ⟨hv, _⟩ | ⟨q, _, hq⟩
    · rw [hv] at hp
      cases hp
    · obtain ⟨e, he⟩ := Option.isSome_iff_exists.mp (h.isForest.live q p ⟨_, hq, hp⟩)
      have hm : c ∉ v.children p := fun hm => hn p ((h.isForest.mem_iff p c).mp hm)
      simp [detach, slot_eq hc, hp, slot_eq (inPool_of_find? he),
        entry_of_find? he, childRing_eq he, Ring.remove_of_not_mem (h.families.holds p) hm]

theorem children_eq_nil (h : t.Shows ring v) (hd : t.find? p = some d) (hc : d.children.isEmpty) :
    v.children p = [] := by
  have ht := (h.families.holds p).tail
  rw [← childRing_eq hd, Option.isNone_iff_eq_none.mp hc] at ht
  exact List.getLast?_eq_none_iff.mp ht.symm

theorem exists_of_release (h : t.Shows ring v) (hu : t.release p = .ok u) :
    ∃ w, u.Shows ring w := by
  cases hd : t.find? p with
  | none =>
    simp only [Table.release, hd, pure_eq_ok] at hu
    cases hu
    exact ⟨v, h⟩
  | some d =>
    by_cases hgood : d.location = .unqueued ∧ d.parent = none ∧ d.children.isEmpty
    · obtain ⟨hl, hx, hc⟩ := hgood
      have hs : d.process.station = none := by simp [Descriptor.process, hl, Location.station?]
      obtain ⟨u', _, hr, _, _, hw⟩ :=
        h.release (h.registers.process_eq hd) hs hx (h.children_eq_nil hd hc)
      rw [hr] at hu
      cases hu
      exact ⟨_, hw⟩
    · simp [Table.release, hd, hgood, bind, Except.bind] at hu

theorem exists_of_dropFirstChild {o : Option Handle} (h : t.Shows ring v)
    (hu : t.dropFirstChild p = .ok (o, u)) : ∃ w, u.Shows ring w := by
  have hp := inPool_of_dropFirstChild hu
  rcases h.registers.pool.occupied hp with ⟨_, hc⟩ | ⟨q, hs, hq⟩
  · simp only [dropFirstChild, slot_eq hp, hc, ok_bind, Ring.pop, Ring.head?, pure_eq_ok] at hu
    cases hu
    exact ⟨v, h⟩
  · rw [dropFirstChild_congr hs.symm] at hu
    cases hc : v.children q with
    | nil =>
      rw [h.dropFirstChild_nil (h.registers.process_eq hq) hc] at hu
      cases hu
      exact ⟨v, h⟩
    | cons c cs =>
      obtain ⟨u', hd, hw, _⟩ := h.dropFirstChild_eq hc
      rw [hd] at hu
      cases hu
      exact ⟨_, hw⟩

theorem exists_of_detach {o : Option Handle} (h : t.Shows ring v) (hu : t.detach c = .ok (o, u)) :
    ∃ w, u.Shows ring w := by
  by_cases hc : ∃ p, t.IsChild c p
  · obtain ⟨p, hc⟩ := hc
    obtain ⟨u', hd, hw, _⟩ := h.detach_eq hc
    rw [hd] at hu
    cases hu
    exact ⟨_, hw⟩
  · rw [h.detach_eq_self (inPool_of_detach hu) (not_exists.mp hc)] at hu
    cases hu
    exact ⟨v, h⟩

end Shows

namespace Grown

theorem shows (h : Grown t) : ∃ ring v, t.Shows ring v := by
  induction h with
  | empty => exact ⟨_, _, Store.arranged_empty.shows⟩
  | @running timing _ _ h =>
    obtain ⟨w, hw⟩ := Computer.reaches_sound h (Kernel.sound_initial timing)
    exact ⟨_, w, hw.arranged.shows⟩
  | alloc _ hu ih =>
    obtain ⟨ring, v, h⟩ := ih
    exact ⟨ring, _, (h.create hu).2.2.1⟩
  | release _ hu ih =>
    obtain ⟨ring, v, h⟩ := ih
    exact ⟨ring, h.exists_of_release hu⟩
  | adopt _ hp hc hd hpc hu ih =>
    obtain ⟨ring, v, h⟩ := ih
    obtain ⟨u', hu', hw, _⟩ := h.adopt_eq hp hc hd hpc
    rw [hu'] at hu
    cases hu
    exact ⟨ring, _, hw⟩
  | dropFirstChild _ hu ih =>
    obtain ⟨ring, v, h⟩ := ih
    exact ⟨ring, h.exists_of_dropFirstChild hu⟩
  | detach _ hu ih =>
    obtain ⟨ring, v, h⟩ := ih
    exact ⟨ring, h.exists_of_detach hu⟩

/-- A table keeps an ordered forest. A process without a parent may be adopted by any that is not
below it, and comes last among the children. The first child, or any, is taken from among the
others, which keep their order, and has no parent then; where there is no first child, or no parent,
nothing is done. Links of queues and all else in the table stay. The climb from any handle ends, and
finds whoever is on the way up. -/
theorem acts_on_forest (h : Grown t) : ∃ children, t.IsForest children ∧
    (∀ p c d, t.isLive p → t.find? c = some d → d.parent = none → ¬ReflTransGen t.IsChild p c →
      ∃ u, t.adopt p c = .ok u ∧ u.IsForest (Function.update children p (children p ++ [c])) ∧
        Replanted p c (c :: children p) (some p) t u) ∧
    (∀ p, t.isLive p → children p = [] → t.dropFirstChild p = .ok (none, t)) ∧
    (∀ p c cs, children p = c :: cs → ∃ u, t.dropFirstChild p = .ok (some c, u) ∧
      u.IsForest (Function.update children p cs) ∧ Replanted p c (children p) none t u) ∧
    (∀ c, c.InPool → (∀ p, ¬t.IsChild c p) → t.detach c = .ok (none, t)) ∧
    (∀ p c, t.IsChild c p → ∃ u, t.detach c = .ok (some c, u) ∧
      u.IsForest (Function.update children p ((children p).erase c)) ∧
      Replanted p c (children p) none t u) ∧
    ∀ a p, ∃ b, t.isAncestorOrSelf a p = .ok b ∧ (b = true ↔ ReflTransGen t.IsChild p a) ∧
      (t.isLive a → ¬t.isLive p → b = false) := by
  obtain ⟨ring, v, hs⟩ := h.shows
  refine ⟨v.children, hs.isForest, fun p c d hp hc hd hpc => ?adopt, fun p hp hn => ?nil,
    fun p c cs hc => ?cons, fun c => hs.detach_eq_self, fun p c hc => ?detach, fun a p => ?climb⟩
  case adopt =>
    obtain ⟨u, hu, hw, hr⟩ := hs.adopt_eq hp hc hd hpc
    exact ⟨u, hu, hw.isForest, hr⟩
  case nil =>
    obtain ⟨x, hx⟩ := hs.isLive_iff.mp hp
    exact hs.dropFirstChild_nil hx hn
  case cons =>
    obtain ⟨u, hu, hw, hr⟩ := hs.dropFirstChild_eq hc
    have hm : c ∈ v.children p := by simp [hc]
    have hf := hw.isForest
    rw [hs.children_orphan hm, hc, List.erase_cons_head] at hf
    exact ⟨u, hu, hf, hr⟩
  case detach =>
    obtain ⟨u, hu, hw, hr⟩ := hs.detach_eq hc
    have hf := hw.isForest
    rw [hs.children_orphan ((hs.isForest.mem_iff p c).mpr hc)] at hf
    exact ⟨u, hu, hf, hr⟩
  case climb =>
    obtain ⟨b, hb, hiff⟩ := isAncestorOrSelf_iff hs a p
    rw [← hs.isChild_eq] at hiff
    refine ⟨b, hb, hiff, fun ha hp => Bool.eq_false_iff.mpr fun e => ?_⟩
    -- a handle that is not current is nobody's child, so the way up ends with it
    rcases ReflTransGen.cases_head (hiff.mp e) with rfl | ⟨_, ⟨d, hd, _⟩, _⟩
    · exact hp ha
    · exact hp (Option.isSome_iff_exists.mpr ⟨d, hd⟩)

end Grown

def sprout (t : Table) : Table := (t.alloc.map (·.2)).getD t

def graft (t : Table) (p c : Handle) : Table := (t.adopt p c).toOption.getD t

theorem Grown.sprout (h : Grown t) : Grown t.sprout := by
  cases hu : t.alloc with
  | none => rwa [Table.sprout, hu]
  | some r =>
    rw [Table.sprout, hu]
    exact h.alloc hu

theorem Grown.graft (h : Grown t) (hp : t.isLive p) (hc : t.find? c = some d) (hd : d.parent = none)
    (hb : t.isAncestorOrSelf c p = .ok false) : Grown (t.graft p c) := by
  obtain ⟨ring, v, hs⟩ := h.shows
  obtain ⟨b, hb', hiff⟩ := isAncestorOrSelf_iff hs c p
  rw [hb] at hb'
  cases hb'
  have hpc : ¬ReflTransGen t.IsChild p c := fun hr => by
    rw [hs.isChild_eq, ← hiff] at hr
    cases hr
  obtain ⟨u, hu, _⟩ := hs.adopt_eq hp hc hd hpc
  rw [Table.graft, hu]
  exact h.adopt hp hc hd hpc hu

/-- A process and its two children. -/
def smallForest : Table := (empty.sprout.sprout.sprout.graft ⟨0, 1⟩ ⟨1, 1⟩).graft ⟨0, 1⟩ ⟨2, 1⟩

theorem smallForest_grown : Grown smallForest :=
  (Grown.empty.sprout.sprout.sprout.graft (d := { handle := ⟨1, 1⟩ })
    (by decide +kernel) (by decide +kernel) rfl (by decide +kernel)).graft
      (d := { handle := ⟨2, 1⟩ })
      (by decide +kernel) (by decide +kernel) rfl (by decide +kernel)

/-- The older child is taken away and the younger one stays; an old handle
of its slot is below nobody. -/
theorem smallForest_acts : ∃ u, smallForest.detach ⟨1, 1⟩ = .ok (some ⟨1, 1⟩, u) ∧
    u.childrenOf ⟨0, 1⟩ = .ok [⟨2, 1⟩] ∧ smallForest.isAncestorOrSelf ⟨0, 1⟩ ⟨2, 1⟩ = .ok true ∧
    smallForest.isAncestorOrSelf ⟨0, 1⟩ ⟨2, 0⟩ = .ok false := by
  obtain ⟨children, hf, -, -, -, -, hdetach, hclimb⟩ := smallForest_grown.acts_on_forest
  have hchildren : children ⟨0, 1⟩ = [⟨1, 1⟩, ⟨2, 1⟩] := by
    have hl := hf.listed ⟨0, 1⟩ (by decide +kernel)
    have he : smallForest.childrenOf ⟨0, 1⟩ = .ok [⟨1, 1⟩, ⟨2, 1⟩] := by decide +kernel
    rw [he] at hl
    exact (Except.ok.inj hl).symm
  have hchild : ∀ c ∈ children ⟨0, 1⟩, smallForest.IsChild c ⟨0, 1⟩ :=
    fun c => (hf.mem_iff ⟨0, 1⟩ c).mp
  obtain ⟨u, hu, hfu, _⟩ := hdetach ⟨0, 1⟩ ⟨1, 1⟩ (hchild _ (by simp [hchildren]))
  obtain ⟨_, hb, hiff, _⟩ := hclimb ⟨0, 1⟩ ⟨2, 1⟩
  obtain ⟨_, hb', _, hstale⟩ := hclimb ⟨0, 1⟩ ⟨2, 0⟩
  rw [hiff.mpr (.single (hchild _ (by simp [hchildren])))] at hb
  rw [hstale (by decide +kernel) (by decide +kernel)] at hb'
  refine ⟨u, hu, ?_, hb, hb'⟩
  have hlive : u.isLive ⟨0, 1⟩ :=
    hfu.live ⟨2, 1⟩ ⟨0, 1⟩ ((hfu.mem_iff _ _).mp (by simp [hchildren]))
  simpa [hchildren] using hfu.listed ⟨0, 1⟩ hlive

end Table
end Nucleus
