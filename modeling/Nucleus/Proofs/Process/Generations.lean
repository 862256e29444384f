import Nucleus.Proofs.Process.Pool

/-!
# Generations

Every time a slot is taken its generation rises by one, modulo 2¹⁶. So a handle that has been
returned names nobody until its slot has been taken 65536 times again. The 65536th time the slot is
taken under the very same handle, which from then on names whoever has the slot.
-/
namespace Nucleus

namespace Table
variable {t u w : Table} {p q : Handle} {taken later : List Handle}

theorem ofNat_eq_zero_iff {n : Nat} : UInt16.ofNat n = 0 ↔ 65536 ∣ n := by
  rw [← UInt16.toNat_inj, UInt16.toNat_ofNat', Nat.dvd_iff_mod_eq_zero]
  rfl

/-- How many of the handles are of the slot of `p`. -/
def takes (taken : List Handle) (p : Handle) : Nat := taken.countP (·.slot = p.slot)

theorem takes_singleton : takes [p] q = if p.slot = q.slot then 1 else 0 := by
  simp [takes, List.countP_singleton]

/-- The pool has become `u` by handing out `taken`, among other changes that rename no slot. -/
structure Aged (t : Table) (taken : List Handle) (u : Table) : Prop where
  generation : ∀ q, (u.entry q).handle.generation =
    (t.entry q).handle.generation + UInt16.ofNat (takes taken q)
  vacant : ∀ q, takes taken q = 0 → (t.entry q).location = .free → (u.entry q).location = .free

/-- After its slot was taken `n` times, `p` names whoever has the slot if `n` is a multiple of
65536, and nobody otherwise. -/
def Recurs (t : Table) (p : Handle) (n : Nat) : Prop :=
  t.isLive p ↔ 0 < n ∧ 65536 ∣ n ∧ ∃ q, t.isLive q ∧ q.slot = p.slot

/-- `p` is the last handle under which its slot was taken, and the slot is free. -/
structure Returned (t : Table) (p : Handle) : Prop where
  generation : (t.entry p).handle.generation = p.generation
  vacant : (t.entry p).location = .free

theorem Returned.of_release (hp : t.isLive p)
    (hu : ∀ q, u.entry q = if q.slot = p.slot then
      { t.entry q with location := .free } else t.entry q) : u.Returned p where
  generation := by
    rw [hu, if_pos rfl]
    exact congrArg Handle.generation (entry_of_isLive hp).1
  vacant := by rw [hu, if_pos rfl]

theorem Returned.not_isLive (h : t.Returned p) : ¬t.isLive p := by
  intro hlive
  exact (entry_of_isLive hlive).2 h.vacant

/-- The slot of `p`, which has been returned, is the next one to be taken. -/
structure Next (t : Table) (p : Handle) : Prop extends t.Returned p where
  first : t.free.head?.map (·.val) = some p.slot.toNat

theorem Next.alloc (h : t.Next p) : ∃ u, t.alloc = some (⟨p.slot, p.generation + 1⟩, u) := by
  obtain ⟨i, hi, hslot⟩ := Option.map_eq_some_iff.mp h.first
  obtain ⟨rest, hfree⟩ := List.head?_eq_some_iff.mp hi
  have hname : UInt16.ofNat i.val = p.slot := by
    rw [← UInt16.toNat_inj, toNat_ofNat i, hslot]
  have hentry : t.slots.get i = t.entry p := (slots_eq_entry i).trans (entry_congr hname)
  have hgeneration : t.slots[i].handle.generation = p.generation :=
    (congrArg (·.handle.generation) hentry).trans h.generation
  unfold Table.alloc
  rw [hfree]
  simp only [hname, hgeneration]
  exact ⟨_, rfl⟩

theorem isLive_of_alloc (h : t.Pooled) (ha : t.alloc = some (p, u)) : u.isLive p := by
  obtain ⟨hp, _, _, hentry, _⟩ := h.alloc ha
  have hfound : u.find? p = some { handle := p } :=
    find?_eq_some_iff.mpr ⟨hp, (hentry p).trans (if_pos rfl), rfl, by simp⟩
  rw [isLive, hfound, Option.isSome_some]

namespace Aged

theorem refl (t : Table) : t.Aged [] t where
  generation _ := (UInt16.add_zero _).symm
  vacant _ _ h := h

theorem trans (h : t.Aged taken u) (h' : u.Aged later w) : t.Aged (taken ++ later) w where
  generation q := by
    rw [h'.generation, h.generation, takes, takes, takes, List.countP_append, UInt16.ofNat_add,
      UInt16.add_assoc]
  vacant q hq hfree := by
    rw [takes, List.countP_append, Nat.add_eq_zero_iff] at hq
    exact h'.vacant q hq.2 (h.vacant q hq.1 hfree)

theorem perm (h : t.Aged taken u) (hp : taken.Perm later) : t.Aged later u where
  generation q := by
    rw [h.generation, takes, hp.countP_eq, ← takes]
  vacant q hq hfree := by
    rw [takes, ← hp.countP_eq] at hq
    exact h.vacant q hq hfree

theorem alloc (h : t.Pooled) (ha : t.alloc = some (p, u)) : t.Aged [p] u := by
  obtain ⟨_, _, _, hentry, _⟩ := h.alloc ha
  constructor
  · intro q
    rw [hentry, takes_singleton]
    by_cases hs : p.slot = q.slot
    · rw [if_pos hs.symm, if_pos hs, ← entry_congr hs]
      exact Pooled.generation_of_alloc ha
    · rw [if_neg (Ne.symm hs), if_neg hs]
      exact (UInt16.add_zero _).symm
  · intro q hq hfree
    have hs : q.slot ≠ p.slot := fun e => by simp [takes_singleton, e] at hq
    rw [hentry, if_neg hs]
    exact hfree

theorem release
    (hu : ∀ q, u.entry q = if q.slot = p.slot then
      { t.entry q with location := .free } else t.entry q) : t.Aged [] u where
  generation q := by
    rw [hu]
    split <;> exact (UInt16.add_zero _).symm
  vacant q _ hfree := by
    rw [hu]
    split
    · rfl
    · exact hfree

theorem recurs (h : t.Aged taken u) (hp : t.Returned p) : u.Recurs p (takes taken p) := by
  have hgeneration := h.generation p
  rw [hp.generation] at hgeneration
  constructor
  · intro hlive
    obtain ⟨hname, hl⟩ := entry_of_isLive hlive
    refine ⟨Nat.pos_of_ne_zero fun hz => hl (h.vacant p hz hp.vacant), ?_, p, hlive, rfl⟩
    rw [hname] at hgeneration
    rw [← ofNat_eq_zero_iff]
    exact UInt16.add_eq_left.mp hgeneration.symm
  · rintro ⟨_, hdvd, q, hq, hs⟩
    obtain ⟨hname, _⟩ := entry_of_isLive hq
    rw [ofNat_eq_zero_iff.mpr hdvd, UInt16.add_zero, ← entry_congr hs, hname] at hgeneration
    have hqp : q = p := congrArg₂ Handle.mk hs hgeneration
    exact hqp ▸ hq

end Aged

inductive Call
  | alloc
  | release (p : Handle)

/-- Makes some calls, the first one first. Says which handles were handed out. -/
def calls (t : Table) : List Call → Except Fault (List Handle × Table)
  | [] => return ([], t)
  | .alloc :: cs =>
    match t.alloc with
    | none => t.calls cs
    | some (p, u) => do
      let (taken, u) ← u.calls cs
      return (p :: taken, u)
  | .release p :: cs => do (← t.release p).calls cs

/-- The pool is in order, and its processes are in no queue and in no family. -/
structure Plain (t : Table) : Prop where
  pooled : t.Pooled
  loose : ∀ p d, t.find? p = some d → d.location = .unqueued ∧ d.parent = none ∧ d.children = {}

namespace Plain

theorem empty : Table.empty.Plain where
  pooled := .empty
  loose p d hd := by
    obtain ⟨hp, rfl, _, hl⟩ := find?_eq_some_iff.mp hd
    have hp' : p.slot.toNat < maxProcesses := hp
    simp [entry, Table.empty, hp'] at hl

theorem of_entry (h : t.Plain) (hu : u.Pooled) (he : ∀ q, u.entry q = t.entry q ∨
    (∃ p, u.entry q = { handle := p }) ∨ (u.entry q).location = .free) : u.Plain where
  pooled := hu
  loose q d hd := by
    obtain ⟨hq, rfl, hname, hl⟩ := find?_eq_some_iff.mp hd
    rcases he q with he | ⟨p, he⟩ | hfree
    · rw [he] at hname hl ⊢
      exact h.loose q _ (find?_eq_some_iff.mpr ⟨hq, rfl, hname, hl⟩)
    · rw [he]
      exact ⟨rfl, rfl, rfl⟩
    · exact (hl hfree).elim

theorem alloc (h : t.Plain) (ha : t.alloc = some (p, u)) : u.Plain := by
  obtain ⟨_, _, _, hentry, hu⟩ := h.pooled.alloc ha
  refine h.of_entry hu fun q => ?_
  rw [hentry]
  split
  · exact .inr (.inl ⟨p, rfl⟩)
  · exact .inl rfl

theorem release (h : t.Plain) (p : Handle) : ∃ u, t.release p = .ok u ∧ u.Plain ∧ t.Aged [] u ∧
    (t.isLive p → u.Next p) := by
  cases hd : t.find? p with
  | none =>
    refine ⟨t, by simp [Table.release, hd], h, .refl t, fun hlive => ?_⟩
    rw [isLive, hd] at hlive
    cases hlive
  | some d =>
    obtain ⟨hl, hparent, hchildren⟩ := h.loose p d hd
    obtain ⟨u, i, hr, hi, hfree, hu, hentry⟩ := h.pooled.release hd hl hparent hchildren
    refine ⟨u, hr, h.of_entry hu fun q => ?_, .release hentry,
      fun hlive => ⟨.of_release hlive hentry, ?_⟩⟩
    · rw [hentry]
      split
      · exact .inr (.inr rfl)
      · exact .inl rfl
    · rw [hfree, List.head?_cons, Option.map_some, hi]

theorem calls (h : t.Plain) (cs : List Call) : ∃ taken u, t.calls cs = .ok (taken, u) ∧ u.Plain ∧
    t.Aged taken u := by
  induction cs generalizing t with
  | nil => exact ⟨[], t, rfl, h, .refl t⟩
  | cons c cs ih =>
    cases c with
    | alloc =>
      cases ha : t.alloc with
      | none =>
        obtain ⟨taken, u, hrun, hu, haged⟩ := ih h
        refine ⟨taken, u, ?_, hu, haged⟩
        rw [Table.calls, ha]
        exact hrun
      | some r =>
        obtain ⟨p, t'⟩ := r
        obtain ⟨taken, u, hrun, hu, haged⟩ := ih (h.alloc ha)
        refine ⟨p :: taken, u, ?_, hu, (Aged.alloc h.pooled ha).trans haged⟩
        rw [Table.calls, ha]
        simp only [hrun, ok_bind, pure_eq_ok]
    | release p =>
      obtain ⟨t', hr, ht', hsame, _⟩ := h.release p
      obtain ⟨taken, u, hrun, hu, haged⟩ := ih ht'
      refine ⟨taken, u, ?_, hu, hsame.trans haged⟩
      rw [Table.calls, hr]
      exact hrun

end Plain

/-- What becomes of a handle that is returned, whatever is done before and after. -/
theorem recurs_after_release (before after : List Call) :
    ∃ given t, Table.empty.calls before = .ok (given, t) ∧ ∀ p, t.isLive p →
      ∃ u, t.release p = .ok u ∧ ¬u.isLive p ∧ ∃ taken w, u.calls after = .ok (taken, w) ∧
        w.Recurs p (takes taken p) := by
  obtain ⟨given, t, hbefore, ht, _⟩ := Plain.empty.calls before
  refine ⟨given, t, hbefore, fun p hp => ?_⟩
  obtain ⟨u, hr, hu, _, hreturned⟩ := ht.release p
  obtain ⟨taken, w, hafter, _, haged⟩ := hu.calls after
  have hp' := (hreturned hp).toReturned
  exact ⟨u, hr, hp'.not_isLive, taken, w, hafter, haged.recurs hp'⟩

/-- Takes a slot and returns it, `n` times in a row; `p` is the handle
under which it was taken last. -/
def turnover (p : Handle) : Nat → List Call
  | 0 => []
  | n + 1 => .alloc :: .release ⟨p.slot, p.generation + 1⟩ :: turnover ⟨p.slot, p.generation + 1⟩ n

theorem Next.turnover (h : t.Plain) (hp : t.Next p) (n : Nat) :
    ∃ taken u, t.calls (Table.turnover p n) = .ok (taken, u) ∧ u.Plain ∧
      u.Next ⟨p.slot, p.generation + UInt16.ofNat n⟩ := by
  induction n generalizing t p with
  | zero =>
    refine ⟨[], t, rfl, h, ?_⟩
    have hzero : p.generation + UInt16.ofNat 0 = p.generation := UInt16.add_zero _
    rwa [hzero]
  | succ n ih =>
    obtain ⟨t', ha⟩ := hp.alloc
    obtain ⟨t'', hr, ht'', _, hnext⟩ := (h.alloc ha).release ⟨p.slot, p.generation + 1⟩
    obtain ⟨taken, u, hrun, hu, hu'⟩ := ih ht'' (hnext (isLive_of_alloc h.pooled ha))
    refine ⟨⟨p.slot, p.generation + 1⟩ :: taken, u, ?_, hu, ?_⟩
    · simp only [Table.turnover, Table.calls, ha, hr, ok_bind, hrun, pure_eq_ok]
    · rwa [UInt16.ofNat_add, UInt16.add_comm (UInt16.ofNat n), ← UInt16.add_assoc]

/-- A handle is returned, and its slot is taken and returned 65535 times. The next to take the slot
is given the same handle. -/
theorem released_handle_returns :
    ∃ t u taken v w, Table.empty.alloc = some (⟨0, 1⟩, t) ∧ t.release ⟨0, 1⟩ = .ok u ∧
      ¬u.isLive ⟨0, 1⟩ ∧
      u.calls (turnover ⟨0, 1⟩ 65535) = .ok (taken, v) ∧
      v.alloc = some (⟨0, 1⟩, w) ∧ w.isLive ⟨0, 1⟩ := by
  have hempty : Table.empty.Next ⟨0, 0⟩ := by
    refine ⟨⟨?_, ?_⟩, ?_⟩ <;> decide
  obtain ⟨t, ht⟩ := hempty.alloc
  have hfirst := Plain.empty.alloc ht
  obtain ⟨u, hu, hplain, _, hnext⟩ := hfirst.release ⟨0, 1⟩
  have hreturned := hnext (isLive_of_alloc .empty ht)
  obtain ⟨taken, v, hrun, hv, hv'⟩ := hreturned.turnover hplain 65535
  obtain ⟨w, hw⟩ := hv'.alloc
  exact ⟨t, u, taken, v, w, ht, hu, hreturned.not_isLive, hrun, hw, isLive_of_alloc hv.pooled hw⟩

end Table
end Nucleus
