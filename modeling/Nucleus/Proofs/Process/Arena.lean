import Nucleus.Proofs.Process.RingList

/-!
# Several rings in one pool

The links of all rings of a chain are kept in the same descriptors. Rings that share no entry do not
disturb each other all the same: an operation on one of them changes links in its own entries and in
the one that joins it. Nor do they share a slot, for the link there would lead on to an entry of
both. `Hosts` says no more than that the rings hold such lists; for `Rings` they are all there are
on the chain, so whoever is in none is not linked.
-/
namespace Nucleus.Table
variable {ι : Type} {t u : Table} {c : Chain} {ring : ι → Ring} {list : ι → List Handle}
variable {p : Handle} {i : ι}

theorem link_eq_ok_iff {k : Link} : t.link c p = .ok k ↔ p.InPool ∧ (t.entry p).link c = k := by
  by_cases hp : p.InPool
  · simp [link_eq hp, hp]
  · have hp' : ¬p.slot.toNat < maxProcesses := hp
    exact iff_of_false (by simp [link, slot, hp', bind, Except.bind]) fun h => hp h.1

/-- The rings hold lists that share no entry. -/
structure Hosts (t : Table) (c : Chain) (ring : ι → Ring) (list : ι → List Handle) : Prop where
  holds : ∀ i, (ring i).Holds t c (list i)
  disjoint : ∀ i j, i ≠ j → (list i).Disjoint (list j)

namespace Hosts

theorem slot_ne (h : t.Hosts c ring list) {j : ι} {q : Handle} (hij : i ≠ j) (hp : p ∈ list i)
    (hq : q ∈ list j) : p.slot ≠ q.slot := fun e => by
  obtain ⟨⟨a, ha, hpa⟩, _⟩ := (h.holds i).neighbours hp
  obtain ⟨⟨b, hb, hqb⟩, _⟩ := (h.holds j).neighbours hq
  rw [entry_congr e, hqb] at hpa
  cases hpa
  exact h.disjoint i j hij ha hb

theorem slot_ne_of_unlinked (h : t.Hosts c ring list) (hf : (t.entry p).link c = {}) (i : ι) :
    ∀ q ∈ list i, q.slot ≠ p.slot := fun q hq e => by
  have hlinked := (h.holds i).isLinked hq
  rw [entry_congr e, hf] at hlinked
  cases hlinked

variable [DecidableEq ι]

/-- One ring is given another list; the links in the entries of all others stay. -/
theorem update (h : t.Hosts c ring list) {r : Ring} {l m : List Handle} (hr : r.Holds u c l)
    (hl : Relinked c m t u) (hm : ∀ q ∈ m, ∀ j, j ≠ i → ∀ x ∈ list j, x.slot ≠ q.slot)
    (hlm : l ⊆ m) : u.Hosts c (Function.update ring i r) (Function.update list i l) where
  holds j := by
    obtain rfl | hj := eq_or_ne j i
    · simpa using hr
    · rw [Function.update_of_ne hj, Function.update_of_ne hj]
      refine (h.holds j).congr fun x hx => hl.link x fun hs => ?_
      obtain ⟨q, hq, e⟩ := List.mem_map.mp hs
      exact hm q hq j hj x hx e.symm
  disjoint j k hjk a ha hb := by
    obtain rfl | hj := eq_or_ne j i
    · rw [Function.update_self] at ha
      rw [Function.update_of_ne hjk.symm] at hb
      exact hm a (hlm ha) k hjk.symm a hb rfl
    · rw [Function.update_of_ne hj] at ha
      obtain rfl | hk := eq_or_ne k i
      · rw [Function.update_self] at hb
        exact hm a (hlm hb) j hj a ha rfl
      · rw [Function.update_of_ne hk] at hb
        exact h.disjoint j k hjk ha hb

theorem insert (h : t.Hosts c ring list) (hp : p.InPool) (hf : (t.entry p).link c = {}) (i : ι) :
    ∃ u, (ring i).insert t c p = .ok (⟨some p⟩, u) ∧ Relinked c (p :: list i) t u ∧
      u.Hosts c (Function.update ring i ⟨some p⟩) (Function.update list i (list i ++ [p])) := by
  obtain ⟨u, hu, hr, hl⟩ := Ring.insert_holds (h.holds i) hp hf
  refine ⟨u, hu, hl, h.update hr hl (fun q hq j hj x hx => ?_) (by simp)⟩
  rcases List.mem_cons.mp hq with rfl | hq
  · exact h.slot_ne_of_unlinked hf j x hx
  · exact h.slot_ne hj hx hq

theorem erase (h : t.Hosts c ring list) {r : Ring} (hr : r.Holds u c ((list i).erase p))
    (hl : Relinked c (list i) t u) :
    u.Hosts c (Function.update ring i r) (Function.update list i ((list i).erase p)) :=
  h.update hr hl (fun _ hq _ hj _ hx => h.slot_ne hj hx hq) List.erase_subset

theorem remove (h : t.Hosts c ring list) (hm : p ∈ list i) :
    ∃ r u, (ring i).remove t c p = .ok (some p, r, u) ∧ Relinked c (list i) t u ∧
      (u.entry p).link c = {} ∧
      u.Hosts c (Function.update ring i r) (Function.update list i ((list i).erase p)) := by
  obtain ⟨r, u, hu, hr, hl, hf⟩ := Ring.remove_of_mem (h.holds i) hm
  exact ⟨r, u, hu, hl, hf, h.erase hr hl⟩

theorem pop (h : t.Hosts c ring list) {l : List Handle} (e : list i = p :: l) :
    ∃ r u, (ring i).pop t c = .ok (some p, r, u) ∧ Relinked c (list i) t u ∧
      (u.entry p).link c = {} ∧
      u.Hosts c (Function.update ring i r) (Function.update list i l) := by
  obtain ⟨r, u, hu, hr, hl, hf⟩ := Ring.pop_cons (e ▸ h.holds i)
  have he : (list i).erase p = l := by simp [e]
  rw [← e] at hl
  exact ⟨r, u, hu, hl, hf, he ▸ h.erase (he ▸ hr) hl⟩

/-- Whatever is done to one of the queues is done to its list. Reading gives what the list gives; an
entry that is not linked is put at the end; the first one, or any that is in the list, is taken out
and left without links; and whoever is not in the list, be it under another generation of a slot
that is, changes nothing. The links of the chain change only in the list's own slots and that of the
new entry, and nothing else in any descriptor. -/
theorem acts_on_lists (h : t.Hosts c ring list) (i : ι) : ((ring i).tail = (list i).getLast? ∧
      (ring i).isEmpty = (list i).isEmpty ∧
      (ring i).head? t c = .ok (list i).head? ∧
      (ring i).toList t c = .ok (list i) ∧
      (ring i).size t c = .ok (list i).length ∧
      ∀ p, (ring i).contains t c p = .ok (decide (p ∈ list i))) ∧
    (∀ p, t.link c p = .ok {} → ∃ u, (ring i).insert t c p = .ok (⟨some p⟩, u) ∧
      Relinked c (p :: list i) t u ∧
      u.Hosts c (Function.update ring i ⟨some p⟩) (Function.update list i (list i ++ [p]))) ∧
    (list i = [] → (ring i).pop t c = .ok (none, ring i, t)) ∧
    (∀ p l, list i = p :: l → ∃ r u, (ring i).pop t c = .ok (some p, r, u) ∧
      Relinked c (list i) t u ∧
      u.link c p = .ok {} ∧ u.Hosts c (Function.update ring i r) (Function.update list i l)) ∧
    (∀ p ∈ list i, ∃ r u, (ring i).remove t c p = .ok (some p, r, u) ∧ Relinked c (list i) t u ∧
      u.link c p = .ok {} ∧
      u.Hosts c (Function.update ring i r) (Function.update list i ((list i).erase p))) ∧
    ∀ p ∉ list i, (ring i).remove t c p = .ok (none, ring i, t) := by
  have hi := h.holds i
  have hlist := Ring.toList_eq hi
  refine ⟨⟨hi.tail, ?isEmpty, Ring.head?_eq hi, hlist, ?size, fun p => ?contains⟩,
    fun p hp => ?insert, fun e => Ring.pop_nil (e ▸ hi), fun p l e => ?pop, fun p hm => ?remove,
    fun p hm => Ring.remove_of_not_mem hi hm⟩
  case isEmpty =>
    rw [Ring.isEmpty, hi.tail, Bool.eq_iff_iff]
    simp
  case size => simp [Ring.size, hlist]
  case contains => simp [Ring.contains, hlist]
  case insert =>
    obtain ⟨hpool, hf⟩ := link_eq_ok_iff.mp hp
    exact h.insert hpool hf i
  case pop =>
    obtain ⟨r, u, hu, hl, hf, hs⟩ := h.pop e
    exact ⟨r, u, hu, hl, link_eq_ok_iff.mpr ⟨hi.inPool p (by simp [e]), hf⟩, hs⟩
  case remove =>
    obtain ⟨r, u, hu, hl, hf, hs⟩ := h.remove hm
    exact ⟨r, u, hu, hl, link_eq_ok_iff.mpr ⟨hi.inPool p hm, hf⟩, hs⟩

end Hosts

/-- Three entries in one queue and one in another. -/
def threeAndOne : Table :=
  (((empty.relink .queue ⟨4, 0⟩ fun _ => ⟨some ⟨0, 0⟩, some ⟨2, 0⟩⟩).relink
    .queue ⟨0, 0⟩ fun _ => ⟨some ⟨2, 0⟩, some ⟨4, 0⟩⟩).relink
    .queue ⟨2, 0⟩ fun _ => ⟨some ⟨4, 0⟩, some ⟨0, 0⟩⟩).relink
    .queue ⟨3, 0⟩ fun _ => ⟨some ⟨3, 0⟩, some ⟨3, 0⟩⟩

theorem threeAndOne_hosts :
    threeAndOne.Hosts .queue (fun b : Bool => if b then ⟨some ⟨2, 0⟩⟩ else ⟨some ⟨3, 0⟩⟩)
    fun b : Bool => if b then [⟨4, 0⟩, ⟨0, 0⟩, ⟨2, 0⟩] else [⟨3, 0⟩] where
  holds b := by
    have hthree : threeAndOne.Joined .queue ⟨4, 0⟩ ⟨0, 0⟩ ∧
        threeAndOne.Joined .queue ⟨0, 0⟩ ⟨2, 0⟩ ∧ threeAndOne.Joined .queue ⟨2, 0⟩ ⟨4, 0⟩ := by
      unfold Joined
      decide
    have hone : threeAndOne.Joined .queue ⟨3, 0⟩ ⟨3, 0⟩ := by
      unfold Joined
      decide
    cases b with
    | false => exact ⟨rfl, by unfold Handle.InPool; decide, by decide, by simpa using hone⟩
    | true => exact ⟨rfl, by unfold Handle.InPool; decide, by decide, by simpa using hthree⟩
  disjoint := by
    unfold List.Disjoint
    decide

/-- The middle one of the three is taken out, but not under another
generation; the other queue stays. -/
theorem threeAndOne_acts : ∃ r u,
    Ring.remove ⟨some ⟨2, 0⟩⟩ threeAndOne .queue ⟨0, 0⟩ = .ok (some ⟨0, 0⟩, r, u) ∧
    r.toList u .queue = .ok [⟨4, 0⟩, ⟨2, 0⟩] ∧ Ring.toList ⟨some ⟨3, 0⟩⟩ u .queue = .ok [⟨3, 0⟩] ∧
    Ring.remove ⟨some ⟨2, 0⟩⟩ threeAndOne .queue ⟨0, 1⟩ =
      .ok (none, ⟨some ⟨2, 0⟩⟩, threeAndOne) := by
  obtain ⟨-, -, -, -, hremove, hnone⟩ := threeAndOne_hosts.acts_on_lists true
  obtain ⟨r, u, hu, -, -, hs⟩ := hremove ⟨0, 0⟩ (by simp)
  exact ⟨r, u, hu, by simpa using Ring.toList_eq (hs.holds true),
    by simpa using Ring.toList_eq (hs.holds false), hnone ⟨0, 1⟩ (by simp)⟩

/-- The rings of a chain hold lists that share no slot, and the slots
outside the lists are not linked. -/
structure Rings (t : Table) (c : Chain) (ring : ι → Ring) (list : ι → List Handle) : Prop where
  holds : ∀ i, (ring i).Holds t c (list i)
  apart : ∀ i j, ∀ p ∈ list i, ∀ q ∈ list j, p.slot = q.slot → i = j
  alone : ∀ q, q.InPool → (∀ i, ∀ p ∈ list i, p.slot ≠ q.slot) → (t.entry q).link c = {}

namespace Rings

theorem congr (h : t.Rings c ring list)
    (e : ∀ q, q.InPool → (u.entry q).link c = (t.entry q).link c) : u.Rings c ring list where
  holds i := (h.holds i).congr fun p hp => e p ((h.holds i).inPool p hp)
  apart := h.apart
  alone q hq hf := (e q hq).trans (h.alone q hq hf)

theorem eq_of_slot (h : t.Rings c ring list) {j : ι} {q : Handle} (hp : p ∈ list i)
    (hq : q ∈ list j) (e : p.slot = q.slot) : p = q := by
  obtain rfl := h.apart i j p hp q hq e
  exact (h.holds i).eq_of_slot hp hq e

theorem neighbour_mem (h : t.Rings c ring list) (hp : p.InPool) {q : Handle}
    (hq : ((t.entry p).link c).next = some q ∨ ((t.entry p).link c).prev = some q) :
    ∃ i, q ∈ list i := by
  by_cases ha : ∀ i, ∀ p' ∈ list i, p'.slot ≠ p.slot
  · rw [h.alone p hp ha] at hq
    rcases hq with hq | hq <;> cases hq
  · push Not at ha
    obtain ⟨i, p', hm, hs⟩ := ha
    rw [← entry_congr hs] at hq
    obtain ⟨⟨a, ha, hna⟩, ⟨b, hb, hpb⟩⟩ := (h.holds i).neighbours hm
    rcases hq with hq | hq
    · rw [hna] at hq
      cases hq
      exact ⟨i, ha⟩
    · rw [hpb] at hq
      cases hq
      exact ⟨i, hb⟩

theorem tail_mem (h : t.Rings c ring list) {q : Handle} (hq : (ring i).tail = some q) :
    q ∈ list i := by
  rw [(h.holds i).tail] at hq
  exact List.mem_of_getLast? hq

/-- Rings that hold such lists are all there are when nobody else is linked. -/
theorem of_hosts (h : t.Hosts c ring list)
    (ha : ∀ q, q.InPool → (∀ i, ∀ p ∈ list i, p.slot ≠ q.slot) → (t.entry q).link c = {}) :
    t.Rings c ring list where
  holds := h.holds
  apart i j p hp q hq e := by
    by_contra hij
    exact h.slot_ne hij hp hq e
  alone := ha

theorem hosts (h : t.Rings c ring list) : t.Hosts c ring list where
  holds := h.holds
  disjoint i j hij p hp hq := hij (h.apart i j p hp p hq rfl)

variable [DecidableEq ι]

theorem insert (h : t.Rings c ring list) (hp : p.InPool) (hf : ∀ i, ∀ q ∈ list i, q.slot ≠ p.slot)
    (i : ι) : ∃ r u, (ring i).insert t c p = .ok (r, u) ∧ Relinked c (p :: list i) t u ∧
      u.Rings c (Function.update ring i r) (Function.update list i (list i ++ [p])) := by
  obtain ⟨u, hu, hl, hs⟩ := h.hosts.insert hp (h.alone p hp hf) i
  refine ⟨_, u, hu, hl, .of_hosts hs fun q hq hn => ?_⟩
  have hpq : p.slot ≠ q.slot := hn i p (by simp)
  have hn' : ∀ j, ∀ x ∈ list j, x.slot ≠ q.slot := fun j x hx => hn j x (by
    obtain rfl | hj := eq_or_ne j i
    · simp [hx]
    · rwa [Function.update_of_ne hj])
  rw [hl.link q, h.alone q hq hn']
  rw [List.map_cons, List.mem_cons, not_or]
  refine ⟨hpq.symm, fun hm => ?_⟩
  obtain ⟨x, hx, e⟩ := List.mem_map.mp hm
  exact hn' i x hx e

theorem filter_ne (h : t.Rings c ring list) (hm : p ∈ list i) :
    (fun j => (list j).filter (· != p)) = Function.update list i ((list i).erase p) := by
  funext j
  obtain rfl | hj := eq_or_ne j i
  · rw [Function.update_self, (h.holds j).nodup.erase_eq_filter]
  · rw [Function.update_of_ne hj, List.filter_eq_self]
    intro q hq
    refine bne_iff_ne.mpr ?_
    rintro rfl
    exact hj (h.apart j i q hq q hm rfl)

theorem erase (h : t.Rings c ring list) (hm : p ∈ list i) {r : Ring}
    (hr : r.Holds u c ((list i).erase p)) (hl : Relinked c (list i) t u)
    (hf : (u.entry p).link c = {}) :
    u.Rings c (Function.update ring i r) (fun j => (list j).filter (· != p)) := by
  refine .of_hosts (h.filter_ne hm ▸ h.hosts.erase hr hl) fun q hq hn => ?_
  obtain he | he := eq_or_ne q.slot p.slot
  · rw [entry_congr he, hf]
  · have hn' : ∀ j, ∀ x ∈ list j, x.slot ≠ q.slot := fun j x hx e =>
      hn j x (List.mem_filter.mpr ⟨hx, bne_iff_ne.mpr fun hp => he (by rw [← hp, e])⟩) e
    rw [hl.link q, h.alone q hq hn']
    intro hs
    obtain ⟨x, hx, e⟩ := List.mem_map.mp hs
    exact hn' i x hx e

theorem remove (h : t.Rings c ring list) (hm : p ∈ list i) :
    ∃ r u, (ring i).remove t c p = .ok (some p, r, u) ∧ Relinked c (list i) t u ∧
      u.Rings c (Function.update ring i r) (fun j => (list j).filter (· != p)) := by
  obtain ⟨r, u, hu, hr, hl, hf⟩ := Ring.remove_of_mem (h.holds i) hm
  exact ⟨r, u, hu, hl, h.erase hm hr hl hf⟩

theorem pop (h : t.Rings c ring list) {l : List Handle} (e : list i = p :: l) :
    ∃ r u, (ring i).pop t c = .ok (some p, r, u) ∧ Relinked c (list i) t u ∧
      u.Rings c (Function.update ring i r) (fun j => (list j).filter (· != p)) := by
  obtain ⟨r, u, hu, hr, hl, hf⟩ := Ring.pop_cons (e ▸ h.holds i)
  exact ⟨r, u, hu, e ▸ hl, h.erase (by simp [e]) (by simpa [e] using hr) (e ▸ hl) hf⟩

end Rings
end Nucleus.Table
