import Mathlib.Data.Fintype.Card
import Nucleus.Process.Table

/-!
# The pool, slot by slot

`entry` and `alter` read and change the slot of a handle without a fault; on a handle of the pool
they are what `slot` and `modify` do. A pool is in order (`Pooled`) when every descriptor bears the
number of its slot, the free list holds the free slots once each, and a free descriptor has no
family.
-/
namespace Nucleus

def Handle.InPool (p : Handle) : Prop := p.slot.toNat < maxProcesses

theorem Handle.length_le {l : List Handle} (hp : ∀ p ∈ l, p.InPool) (hn : (l.map (·.slot)).Nodup) :
    l.length ≤ maxProcesses := by
  have hd : (l.map fun p : Handle => p.slot.toNat).Nodup := by
    rw [show (fun p : Handle => p.slot.toNat) = UInt16.toNat ∘ (·.slot) from rfl, ← List.map_map]
    exact hn.map fun _ _ e => UInt16.toNat_inj.mp e
  have hs : (l.map fun p : Handle => p.slot.toNat) ⊆ List.range maxProcesses := by
    intro n hm
    obtain ⟨p, hl, rfl⟩ := List.mem_map.mp hm
    exact List.mem_range.mpr (hp p hl)
  simpa using (hd.subperm hs).length_le

namespace Table
variable {t u : Table} {p q : Handle} {f : Descriptor → Descriptor} {c : Chain}

/-- The descriptor in the slot of a handle, a vacant one outside the pool. -/
def entry (t : Table) (p : Handle) : Descriptor :=
  if h : p.slot.toNat < maxProcesses then t.slots[p.slot.toNat]
  else { handle := ⟨p.slot, 0⟩, location := .free }

def alter (t : Table) (p : Handle) (f : Descriptor → Descriptor) : Table :=
  if h : p.slot.toNat < maxProcesses then
    { t with slots := t.slots.set p.slot.toNat (f t.slots[p.slot.toNat]) }
  else t

theorem slot_eq (h : p.InPool) : t.slot p = .ok (t.entry p) := by
  have h' : p.slot.toNat < maxProcesses := h
  simp [slot, entry, h']

theorem modify_eq (h : p.InPool) : t.modify p f = .ok (t.alter p f) := by
  have h' : p.slot.toNat < maxProcesses := h
  simp [modify, alter, h']

theorem link_eq (h : p.InPool) : t.link c p = .ok ((t.entry p).link c) := by
  simp [link, slot_eq h]

theorem entry_congr (h : p.slot = q.slot) : t.entry p = t.entry q := by
  simp [entry, h]

theorem entry_alter (h : p.InPool) (f : Descriptor → Descriptor) (q : Handle) :
    (t.alter p f).entry q = if q.slot = p.slot then f (t.entry q) else t.entry q := by
  have h' : p.slot.toNat < maxProcesses := h
  by_cases he : q.slot = p.slot
  · simp [entry, alter, he, h']
  · have hne : p.slot.toNat ≠ q.slot.toNat := fun e => he (UInt16.toNat_inj.mp e.symm)
    by_cases hq : q.slot.toNat < maxProcesses
    · simp [entry, alter, he, h', hne]
    · simp [entry, he, hq]

theorem alter_alter (f g : Descriptor → Descriptor) :
    (t.alter p f).alter p g = t.alter p fun d => g (f d) := by
  unfold alter
  split <;> simp

theorem alter_id : t.alter p id = t := by
  unfold alter
  split <;> simp

@[simp] theorem free_alter : (t.alter p f).free = t.free := by
  unfold alter
  split <;> rfl

theorem toNat_ofNat (i : Fin maxProcesses) : (UInt16.ofNat i.val).toNat = i.val := by
  have hi : i.val < 20 := i.isLt
  rw [UInt16.toNat_ofNat']
  omega

theorem inPool_ofNat (i : Fin maxProcesses) : Handle.InPool ⟨UInt16.ofNat i.val, 0⟩ := by
  rw [Handle.InPool, toNat_ofNat i]
  exact i.isLt

theorem slots_eq_entry (i : Fin maxProcesses) :
    t.slots.get i = t.entry ⟨UInt16.ofNat i.val, 0⟩ := by
  have hi : t.slots.get i = t.slots[i] := rfl
  simp [entry, toNat_ofNat i, hi]

theorem toList_slots (t : Table) :
    t.slots.toList = (List.finRange maxProcesses).map t.slots.get := by
  apply List.ext_getElem
  · simp
  · intro i hi _
    rw [List.getElem_map, List.getElem_finRange, Vector.getElem_toList]
    rfl

theorem find?_eq_some_iff {d : Descriptor} :
    t.find? p = some d ↔ p.InPool ∧ t.entry p = d ∧ d.handle = p ∧ d.location ≠ .free := by
  unfold find? entry Handle.InPool
  split
  · next h =>
    simp only [Option.ite_none_right_eq_some, Option.some.injEq]
    constructor
    · rintro ⟨⟨h1, h2⟩, rfl⟩
      exact ⟨h, rfl, h1, h2⟩
    · rintro ⟨_, rfl, h1, h2⟩
      exact ⟨⟨h1, h2⟩, rfl⟩
  · next h => simp [h]

theorem inPool_of_find? {d : Descriptor} (h : t.find? p = some d) : p.InPool :=
  (find?_eq_some_iff.mp h).1

theorem entry_of_find? {d : Descriptor} (h : t.find? p = some d) : t.entry p = d :=
  (find?_eq_some_iff.mp h).2.1

theorem location_of_find? {d : Descriptor} (h : t.find? p = some d) : d.location ≠ .free :=
  (find?_eq_some_iff.mp h).2.2.2

theorem mem_live_of_find? {d : Descriptor} (h : t.find? p = some d) : d ∈ t.live := by
  have hp : p.slot.toNat < maxProcesses := inPool_of_find? h
  have he := entry_of_find? h
  rw [entry, dif_pos hp] at he
  rw [live, List.mem_filter, bne_iff_ne, Vector.mem_toList_iff, Vector.mem_iff_getElem]
  exact ⟨⟨_, hp, he⟩, location_of_find? h⟩

theorem entry_of_isLive (h : t.isLive p) :
    (t.entry p).handle = p ∧ (t.entry p).location ≠ .free := by
  obtain ⟨d, hd⟩ := Option.isSome_iff_exists.mp h
  obtain ⟨_, rfl, hname, hl⟩ := find?_eq_some_iff.mp hd
  exact ⟨hname, hl⟩

theorem eq_of_find? {d e : Descriptor} (hp : t.find? p = some d) (hq : t.find? q = some e)
    (h : p.slot = q.slot) : p = q := by
  obtain ⟨_, rfl, h1, _⟩ := find?_eq_some_iff.mp hp
  obtain ⟨_, rfl, h2, _⟩ := find?_eq_some_iff.mp hq
  rw [← h1, ← h2, entry_congr h]

theorem length_le_of_isLive {l : List Handle} (hl : ∀ p ∈ l, t.isLive p) (hn : l.Nodup) :
    l.length ≤ maxProcesses := by
  have hfind : ∀ p ∈ l, ∃ d, t.find? p = some d := fun p hp => Option.isSome_iff_exists.mp (hl p hp)
  refine Handle.length_le (fun p hp => ?_) (hn.map_on fun p hp q hq e => ?_)
  · obtain ⟨d, hd⟩ := hfind p hp
    exact inPool_of_find? hd
  · obtain ⟨d, hd⟩ := hfind p hp
    obtain ⟨d', hd'⟩ := hfind q hq
    exact eq_of_find? hd hd' e

structure Pooled (t : Table) : Prop where
  own : ∀ p, p.InPool → (t.entry p).handle.slot = p.slot
  nodup : t.free.Nodup
  mem_free : ∀ p (h : p.InPool), (⟨p.slot.toNat, h⟩ : Fin maxProcesses) ∈ t.free ↔
    (t.entry p).location = .free
  vacant : ∀ p, p.InPool → (t.entry p).location = .free →
    (t.entry p).parent = none ∧ (t.entry p).children = {}

namespace Pooled

theorem empty : Table.empty.Pooled := by
  have he : ∀ p : Handle, p.InPool →
      Table.empty.entry p = { handle := ⟨p.slot, 0⟩, location := .free } := by
    intro p hp
    have hp' : p.slot.toNat < maxProcesses := hp
    simp [entry, Table.empty, hp']
  refine ⟨fun p hp => by rw [he p hp], List.nodup_finRange _, fun p hp => ?_, fun p hp _ => ?_⟩
  · rw [he p hp]
    simp [Table.empty]
  · simp [he p hp]

theorem isLive_entry (h : t.Pooled) (hl : (t.entry p).location ≠ .free) :
    t.isLive (t.entry p).handle ∧ (t.entry p).handle.slot = p.slot := by
  have hp : p.InPool := by
    by_contra hp
    have hp' : ¬p.slot.toNat < maxProcesses := hp
    simp [entry, hp'] at hl
  have hslot := h.own p hp
  have hpool : (t.entry p).handle.InPool := by rwa [Handle.InPool, hslot]
  have hfind : t.find? (t.entry p).handle = some (t.entry p) :=
    find?_eq_some_iff.mpr ⟨hpool, entry_congr hslot, rfl, hl⟩
  exact ⟨Option.isSome_iff_exists.mpr ⟨_, hfind⟩, hslot⟩

theorem length_le (h : t.Pooled) : t.free.length ≤ maxProcesses := by
  simpa using h.nodup.length_le_card

/-- A change that keeps the handles, the free slots and what is in them keeps the pool in order. -/
theorem congr (h : t.Pooled) (hf : u.free = t.free)
    (hh : ∀ p, p.InPool → (u.entry p).handle = (t.entry p).handle)
    (hl : ∀ p, p.InPool → ((u.entry p).location = .free ↔ (t.entry p).location = .free))
    (hv : ∀ p, p.InPool → (t.entry p).location = .free →
      (u.entry p).parent = (t.entry p).parent ∧ (u.entry p).children = (t.entry p).children) :
    u.Pooled where
  own p hp := by rw [hh p hp, h.own p hp]
  nodup := hf ▸ h.nodup
  mem_free p hp := by rw [hf, h.mem_free p hp, hl p hp]
  vacant p hp he := by
    have ht := (hl p hp).mp he
    obtain ⟨h1, h2⟩ := hv p hp ht
    rw [h1, h2]
    exact h.vacant p hp ht

theorem alter (h : t.Pooled) {d : Descriptor} (hd : t.find? p = some d)
    (hh : (f d).handle = d.handle) (hf : (f d).location ≠ .free) : (t.alter p f).Pooled := by
  obtain ⟨hp, rfl, _, hl⟩ := find?_eq_some_iff.mp hd
  have he : ∀ q, (t.alter p f).entry q = t.entry q ∨
      t.entry q = t.entry p ∧ (t.alter p f).entry q = f (t.entry p) := by
    intro q
    rw [entry_alter hp]
    split
    · next e => exact .inr (by simp [entry_congr e])
    · exact .inl rfl
  refine h.congr free_alter (fun q _ => ?_) (fun q _ => ?_) fun q _ hq => ?_
  · rcases he q with e | ⟨e₁, e₂⟩
    · rw [e]
    · rw [e₁, e₂, hh]
  · rcases he q with e | ⟨e₁, e₂⟩
    · rw [e]
    · rw [e₁, e₂]
      exact iff_of_false hf hl
  · rcases he q with e | ⟨e₁, _⟩
    · rw [e]
      exact ⟨rfl, rfl⟩
    · exact (hl (e₁ ▸ hq)).elim

theorem alloc_eq_none_iff : t.alloc = none ↔ t.free = [] := by
  unfold Table.alloc
  split <;> simp_all

theorem alloc (h : t.Pooled) (ha : t.alloc = some (p, u)) :
    p.InPool ∧ (t.entry p).location = .free ∧ t.free.length = u.free.length + 1 ∧
      (∀ q, u.entry q = if q.slot = p.slot then { handle := p } else t.entry q) ∧ u.Pooled := by
  unfold Table.alloc at ha
  split at ha
  · cases ha
  next i rest hfree =>
  simp only [Option.some.injEq, Prod.mk.injEq] at ha
  obtain ⟨hpe, hue⟩ := ha
  have hi : i.val < 20 := i.isLt
  have hslot : p.slot.toNat = i.val := by
    rw [← hpe, UInt16.toNat_ofNat']
    omega
  have hp : p.InPool := by
    rw [Handle.InPool, hslot]
    exact hi
  have hidx : (⟨p.slot.toNat, hp⟩ : Fin maxProcesses) = i := Fin.ext hslot
  have hn : i ∉ rest ∧ rest.Nodup := by simpa [hfree] using h.nodup
  have he : ∀ q, u.entry q = if q.slot = p.slot then { handle := p } else t.entry q := by
    intro q
    rw [← hue, hpe]
    by_cases hs : q.slot = p.slot
    · simp [entry, hs, hslot, hi]
    · have hne : i.val ≠ q.slot.toNat := fun e => hs (UInt16.toNat_inj.mp (by rw [hslot, e]))
      simp [entry, hs, hne]
  have hfu : u.free = rest := by rw [← hue]
  refine ⟨hp, (h.mem_free p hp).mp (by simp [hfree, hidx]), by simp [hfree, hfu], he,
    ?_, ?_, ?_, ?_⟩
  · intro q hq
    rw [he q]
    split
    · next e => exact e.symm
    · exact h.own q hq
  · exact hfu ▸ hn.2
  · intro q hq
    rw [he q, hfu]
    by_cases hs : q.slot = p.slot
    · have hqi : (⟨q.slot.toNat, hq⟩ : Fin maxProcesses) = i :=
        Fin.ext ((congrArg UInt16.toNat hs).trans hslot)
      rw [hqi, if_pos hs]
      exact iff_of_false hn.1 (fun e => by cases e)
    · have hne : (⟨q.slot.toNat, hq⟩ : Fin maxProcesses) ≠ i := fun e =>
        hs (UInt16.toNat_inj.mp (by rw [hslot, ← e]))
      rw [if_neg hs, ← h.mem_free q hq, hfree, List.mem_cons, or_iff_right hne]
  · intro q hq hl
    rw [he q] at hl ⊢
    split at hl
    · cases hl
    · next hs => simpa [hs] using h.vacant q hq hl

theorem generation_of_alloc (ha : t.alloc = some (p, u)) :
    p.generation = (t.entry p).handle.generation + 1 := by
  unfold Table.alloc at ha
  split at ha
  · cases ha
  next i _ _ =>
  cases ha
  have hslot : t.entry ⟨UInt16.ofNat i.val, t.slots[i].handle.generation + 1⟩ = t.slots.get i :=
    (entry_congr rfl).trans (slots_eq_entry i).symm
  rw [hslot]
  rfl

theorem notMem_free (h : t.Pooled) {d : Descriptor} (hd : t.find? p = some d) :
    (⟨p.slot.toNat, inPool_of_find? hd⟩ : Fin maxProcesses) ∉ t.free := by
  rw [h.mem_free p (inPool_of_find? hd), entry_of_find? hd]
  exact location_of_find? hd

/-- The slot of a process is not in the list of free slots, which so has room for it. -/
theorem length_free_lt (h : t.Pooled) {d : Descriptor} (hd : t.find? p = some d) :
    t.free.length < maxProcesses := by
  have hle := (List.nodup_cons.mpr ⟨h.notMem_free hd, h.nodup⟩).length_le_card
  rwa [List.length_cons, Fintype.card_fin] at hle

theorem release (h : t.Pooled) {d : Descriptor} (hd : t.find? p = some d)
    (hl : d.location = .unqueued) (hp : d.parent = none) (hc : d.children = {}) :
    ∃ u i, t.release p = .ok u ∧ i.val = p.slot.toNat ∧ u.free = i :: t.free ∧ u.Pooled ∧
      ∀ q, u.entry q = if q.slot = p.slot then { t.entry q with location := .free }
        else t.entry q := by
  have hpool := inPool_of_find? hd
  have hpe := entry_of_find? hd
  have hp' : p.slot.toNat < maxProcesses := hpool
  have hni := h.notMem_free hd
  have hlen := h.length_free_lt hd
  generalize hu : Table.mk (t.slots.set p.slot.toNat { d with location := .free })
    (⟨p.slot.toNat, hp'⟩ :: t.free) = u
  have hr : t.release p = .ok u := by
    simp [Table.release, hd, hl, hp, hc, Ring.isEmpty, hp', pushFree, hlen, ← hu]
  have he : ∀ q, u.entry q =
      if q.slot = p.slot then { t.entry q with location := .free } else t.entry q := by
    intro q
    rw [← hu]
    by_cases hs : q.slot = p.slot
    · rw [if_pos hs, entry_congr hs (t := t), hpe]
      simp [entry, hs, hp']
    · have hne : p.slot.toNat ≠ q.slot.toNat := fun e => hs (UInt16.toNat_inj.mp e.symm)
      simp [entry, hs, hne]
  have hfu : u.free = ⟨p.slot.toNat, hp'⟩ :: t.free := by rw [← hu]
  refine ⟨u, ⟨p.slot.toNat, hp'⟩, hr, rfl, hfu, ⟨?_, ?_, ?_, ?_⟩, he⟩
  · intro q hq
    rw [he q]
    split <;> exact h.own q hq
  · rw [hfu]
    exact List.nodup_cons.mpr ⟨hni, h.nodup⟩
  · intro q hq
    rw [he q, hfu, List.mem_cons, h.mem_free q hq]
    by_cases hs : q.slot = p.slot
    · simp [hs]
    · have hne : (⟨q.slot.toNat, hq⟩ : Fin maxProcesses) ≠ ⟨p.slot.toNat, hp'⟩ := fun e =>
        hs (UInt16.toNat_inj.mp (Fin.mk.inj e))
      simp [hs, hne]
  · intro q hq hl'
    rw [he q] at hl' ⊢
    by_cases hs : q.slot = p.slot
    · rw [if_pos hs, entry_congr hs (t := t), hpe]
      exact ⟨hp, hc⟩
    · simpa [hs] using h.vacant q hq (by simpa [hs] using hl')

theorem slot_handle (h : t.Pooled) (i : Fin maxProcesses) :
    (t.slots.get i).handle.slot.toNat = i.val := by
  rw [slots_eq_entry, h.own _ (inPool_ofNat i), toNat_ofNat i]

theorem mem_free_iff (h : t.Pooled) (i : Fin maxProcesses) :
    i ∈ t.free ↔ (t.slots.get i).location = .free := by
  rw [slots_eq_entry, ← h.mem_free _ (inPool_ofNat i)]
  exact iff_of_eq (congrArg (· ∈ t.free) (Fin.ext (toNat_ofNat i).symm))

theorem mem_live_iff (h : t.Pooled) {d : Descriptor} : d ∈ t.live ↔ t.find? d.handle = some d := by
  refine ⟨fun hd => ?_, mem_live_of_find?⟩
  rw [live, List.mem_filter, bne_iff_ne, Vector.mem_toList_iff, Vector.mem_iff_getElem] at hd
  obtain ⟨⟨i, hi, rfl⟩, hl⟩ := hd
  have hs : t.slots[i].handle.slot.toNat = i := h.slot_handle ⟨i, hi⟩
  have hp : t.slots[i].handle.slot.toNat < maxProcesses := by rw [hs]; exact hi
  refine find?_eq_some_iff.mpr ⟨hp, ?_, rfl, hl⟩
  simp only [entry, hs, dif_pos hi]

theorem live_or_vacant (h : t.Pooled) {d : Descriptor} (hd : d ∈ t.slots.toList) :
    d ∈ t.live ∨ d.parent = none ∧ d.children = {} := by
  by_cases hl : d.location = .free
  · rw [toList_slots, List.mem_map] at hd
    obtain ⟨i, _, rfl⟩ := hd
    rw [slots_eq_entry] at hl ⊢
    exact .inr (h.vacant _ (inPool_ofNat i) hl)
  · exact .inl (List.mem_filter.mpr ⟨hd, bne_iff_ne.mpr hl⟩)

theorem nodup_live (h : t.Pooled) : (t.live.map (·.handle)).Nodup := by
  have hall : (t.slots.toList.map (·.handle)).Nodup := by
    rw [toList_slots, List.map_map]
    refine (List.nodup_finRange _).map fun i j e => Fin.ext ?_
    rw [← h.slot_handle i, ← h.slot_handle j]
    exact congrArg (fun p : Handle => p.slot.toNat) e
  exact hall.sublist (List.filter_sublist.map _)

theorem length_live (h : t.Pooled) : t.live.length + t.free.length = maxProcesses := by
  have hfree : t.free.Perm
      ((List.finRange maxProcesses).filter fun i => (t.slots.get i).location = .free) := by
    rw [List.perm_ext_iff_of_nodup h.nodup ((List.nodup_finRange _).filter _)]
    intro i
    simp [h.mem_free_iff]
  have hlen := List.length_eq_length_filter_add (l := List.finRange maxProcesses)
    (fun i => decide ((t.slots.get i).location = .free))
  rw [List.length_finRange] at hlen
  have hlive : t.live.length = ((List.finRange maxProcesses).filter
      fun i => !decide ((t.slots.get i).location = .free)).length := by
    rw [live, toList_slots, List.filter_map, List.length_map]
    rfl
  rw [hlive, hfree.length_eq]
  omega

end Pooled
end Table
end Nucleus
