import Mathlib.Data.List.Cycle
import Nucleus.Process.Ring
import Nucleus.Proofs.Process.Pool

/-!
# Rings spell lists

A ring holds a list when its tail is the last entry and the links join every entry to the next one,
the last to the first. The statement is about the cycle of the list, so a ring may be opened at any
entry: taking one out from the middle is taking the first of a rotation. Appending and unlinking
change links of the chain in the slots of the list and of the new entry, and nothing else.
-/
namespace Nucleus

section
variable {α : Type} {R S : α → α → Prop} {a : α} {l : List α}

theorem chain_cons_iff (hl : l ≠ []) :
    Cycle.Chain R (a :: l : List α) ↔ R a (l.head hl) ∧ l.IsChain R ∧ R (l.getLast hl) a := by
  rw [Cycle.chain_coe_cons, List.isChain_cons, List.isChain_append]
  simp [List.head?_append, List.head?_eq_some_head hl, List.getLast?_eq_some_getLast hl]

theorem chain_iff_of_ne_nil (hl : l ≠ []) :
    Cycle.Chain R (l : Cycle α) ↔ R (l.getLast hl) (l.head hl) ∧ l.IsChain R := by
  rw [Cycle.chain_ne_nil R hl, List.isChain_cons]
  simp [List.head?_eq_some_head hl]

/-- A chain without repetition stays one when a change spares the successor of every entry but the
last and the predecessor of every entry but the first. -/
theorem isChain_of_inner (hn : l.Nodup) (h : l.IsChain R)
    (H : ∀ a ∈ l, ∀ b ∈ l, l.getLast? ≠ some a → l.head? ≠ some b → R a b → S a b) :
    l.IsChain S := by
  induction l with
  | nil => exact .nil
  | cons x l ih =>
    obtain ⟨hx, hn⟩ := List.nodup_cons.mp hn
    rw [List.isChain_cons] at h ⊢
    constructor
    · intro y hy
      have hyl : y ∈ l := List.mem_of_mem_head? hy
      refine H x (by simp) y (by simp [hyl]) ?_ ?_ (h.1 y hy)
      · rw [List.getLast?_cons_of_ne_nil (List.ne_nil_of_mem hyl)]
        exact fun e => hx (List.mem_of_getLast? e)
      · intro e
        simp only [List.head?_cons, Option.some.injEq] at e
        exact hx (e ▸ hyl)
    · refine ih hn h.2 fun a ha b hb hal hbl hab => H a (by simp [ha]) b (by simp [hb]) ?_ ?_ hab
      · rwa [List.getLast?_cons_of_ne_nil (List.ne_nil_of_mem ha)]
      · intro e
        simp only [List.head?_cons, Option.some.injEq] at e
        exact hx (e ▸ hb)

end

namespace Table
variable {t u v : Table} {c : Chain} {p q : Handle} {l m : List Handle} {g : Link → Link}

def relink (t : Table) (c : Chain) (p : Handle) (g : Link → Link) : Table :=
  t.alter p fun d => d.setLink (g (d.link c)) c

theorem modifyLink_eq (h : p.InPool) (g : Link → Link) :
    t.modifyLink c p g = .ok (t.relink c p g) :=
  modify_eq h

theorem link_relink (h : p.InPool) (g : Link → Link) (q : Handle) :
    ((t.relink c p g).entry q).link c =
      if q.slot = p.slot then g ((t.entry q).link c) else (t.entry q).link c := by
  rw [relink, entry_alter h]
  split <;> simp

/-- `u` is `t` with other links of chain `c` in the slots of `l`. -/
structure Relinked (c : Chain) (l : List Handle) (t u : Table) : Prop where
  free : u.free = t.free
  entry : ∀ q, ∃ k, u.entry q = (t.entry q).setLink k c
  link : ∀ q, q.slot ∉ l.map (·.slot) → (u.entry q).link c = (t.entry q).link c

theorem Relinked.trans (h : Relinked c l t u) (k : Relinked c l u v) : Relinked c l t v where
  free := k.free.trans h.free
  entry q := by
    obtain ⟨a, ha⟩ := h.entry q
    obtain ⟨b, hb⟩ := k.entry q
    refine ⟨b, ?_⟩
    rw [hb, ha]
    cases c <;> rfl
  link q hq := (k.link q hq).trans (h.link q hq)

theorem Relinked.relink (hp : p.InPool) (hm : p ∈ l) : Relinked c l t (t.relink c p g) where
  free := free_alter
  entry q := by
    by_cases h : q.slot = p.slot
    · exact ⟨g ((t.entry q).link c), by simp [Table.relink, entry_alter hp, h]⟩
    · refine ⟨(t.entry q).link c, ?_⟩
      simp only [Table.relink, entry_alter hp, h, if_false]
      cases c <;> rfl
  link q hq := by
    have h : q.slot ≠ p.slot := fun e => hq (e ▸ List.mem_map_of_mem hm)
    simp [link_relink hp, h]

/-- Each of two entries links to the other, `q` after `p`. -/
def Joined (t : Table) (c : Chain) (p q : Handle) : Prop :=
  ((t.entry p).link c).next = some q ∧ ((t.entry q).link c).prev = some p

theorem isChain_joined (hl : l ≠ []) (hs : (l.map (·.slot)).Nodup) (hc : l.IsChain (t.Joined c))
    (hnext : ∀ x ∈ l, x.slot ≠ (l.getLast hl).slot →
      ((u.entry x).link c).next = ((t.entry x).link c).next)
    (hprev : ∀ y ∈ l, y.slot ≠ (l.head hl).slot →
      ((u.entry y).link c).prev = ((t.entry y).link c).prev) : l.IsChain (u.Joined c) := by
  refine isChain_of_inner (hs.of_map _) hc fun x hx y hy hxl hyh hxy =>
    ⟨(hnext x hx fun e => hxl ?_).trans hxy.1, (hprev y hy fun e => hyh ?_).trans hxy.2⟩
  · rw [List.inj_on_of_nodup_map hs hx (l.getLast_mem hl) e]
    exact List.getLast?_eq_some_getLast hl
  · rw [List.inj_on_of_nodup_map hs hy (l.head_mem hl) e]
    exact List.head?_eq_some_head hl

end Table

namespace Ring
variable {r : Ring} {t u : Table} {c : Chain} {p q : Handle} {l : List Handle}

/-- The ring's entries are those of `l`, in this order. -/
structure Holds (r : Ring) (t : Table) (c : Chain) (l : List Handle) : Prop where
  tail : r.tail = l.getLast?
  inPool : ∀ p ∈ l, p.InPool
  slots : (l.map (·.slot)).Nodup
  cycle : Cycle.Chain (t.Joined c) (l : Cycle Handle)

namespace Holds

theorem nil : Holds {} t c [] := ⟨rfl, by simp, by simp, trivial⟩

theorem nodup (h : r.Holds t c l) : l.Nodup := h.slots.of_map _

theorem eq_of_slot (h : r.Holds t c l) (hp : p ∈ l) (hq : q ∈ l) (e : p.slot = q.slot) : p = q :=
  List.inj_on_of_nodup_map h.slots hp hq e

theorem length_le (h : r.Holds t c l) : l.length ≤ maxProcesses := Handle.length_le h.inPool h.slots

theorem eq_empty_iff (h : r.Holds t c l) : r = {} ↔ l = [] := by
  rw [← List.getLast?_eq_none_iff, ← h.tail]
  exact ⟨fun e => by rw [e], fun e => congrArg Ring.mk e⟩

/-- Opened at one of its entries, a ring is a chain from there back to it. -/
theorem open_at (h : r.Holds t c l) {xs ys : List Handle} (e : l = xs ++ p :: ys) :
    Cycle.Chain (t.Joined c) (p :: (ys ++ xs) : List Handle) := by
  have hr : (l : Cycle Handle) = ((p :: (ys ++ xs) : List Handle) : Cycle Handle) := by
    rw [e, Cycle.coe_eq_coe]
    exact List.isRotated_append
  exact hr ▸ h.cycle

theorem neighbours (h : r.Holds t c l) (hp : p ∈ l) :
    (∃ q ∈ l, ((t.entry p).link c).next = some q) ∧ ∃ q ∈ l,
      ((t.entry p).link c).prev = some q := by
  obtain ⟨xs, ys, e⟩ := List.append_of_mem hp
  have hc := h.open_at e
  by_cases hm : ys ++ xs = []
  · rw [hm, Cycle.chain_singleton] at hc
    exact ⟨⟨p, hp, hc.1⟩, ⟨p, hp, hc.2⟩⟩
  · rw [chain_cons_iff hm] at hc
    have hl : ∀ q ∈ ys ++ xs, q ∈ l := fun q hq => by
      rw [e, List.mem_append, List.mem_cons]
      rcases List.mem_append.mp hq with hq | hq
      · exact .inr (.inr hq)
      · exact .inl hq
    exact ⟨⟨_, hl _ (List.head_mem hm), hc.1.1⟩, ⟨_, hl _ (List.getLast_mem hm), hc.2.2.2⟩⟩

theorem isLinked (h : r.Holds t c l) (hp : p ∈ l) : ((t.entry p).link c).isLinked := by
  obtain ⟨⟨q, _, hq⟩, _⟩ := h.neighbours hp
  simp [Link.isLinked, hq]

theorem congr (h : r.Holds t c l)
    (e : ∀ p ∈ l, (u.entry p).link c = (t.entry p).link c) : r.Holds u c l where
  tail := h.tail
  inPool := h.inPool
  slots := h.slots
  cycle := by
    obtain rfl | hl := eq_or_ne l []
    · trivial
    · have hc := (chain_iff_of_ne_nil hl).mp h.cycle
      have hj : ∀ a ∈ l, ∀ b ∈ l, t.Joined c a b → u.Joined c a b := fun a ha b hb hab => by
        rwa [Table.Joined, e a ha, e b hb]
      refine (chain_iff_of_ne_nil hl).mpr ⟨hj _ (l.getLast_mem hl) _ (l.head_mem hl) hc.1, ?_⟩
      exact isChain_of_inner h.nodup hc.2 fun a ha b hb _ _ => hj a ha b hb

end Holds

theorem head?_eq (h : r.Holds t c l) : r.head? t c = .ok l.head? := by
  unfold head?
  rw [h.tail]
  obtain rfl | hl := eq_or_ne l []
  · rfl
  · have hj := ((chain_iff_of_ne_nil hl).mp h.cycle).1
    rw [List.getLast?_eq_some_getLast hl, List.head?_eq_some_head hl]
    simp only [Table.link_eq (h.inPool _ (l.getLast_mem hl)), ok_bind, pure_eq_ok, hj.1]

theorem walk_eq {tail : Handle} {n : Nat} (hn : l.length ≤ n) (hp : ∀ q ∈ l, q.InPool)
    (hc : l.IsChain (t.Joined c)) (hd : l.Nodup) (hl : l.getLast? = some tail)
    (hh : l.head? = some p) : walk t c tail n p = .ok l := by
  induction l generalizing n p with
  | nil => simp at hh
  | cons x l ih =>
    obtain ⟨n, rfl⟩ : ∃ k, n = k + 1 := ⟨n - 1, by simp at hn; omega⟩
    simp only [List.head?_cons, Option.some.injEq] at hh
    subst hh
    cases l with
    | nil =>
      simp only [List.getLast?_singleton, Option.some.injEq] at hl
      simp [walk, hl]
    | cons y l =>
      rw [List.isChain_cons_cons] at hc
      have hne : x ≠ tail := by
        rintro rfl
        rw [List.getLast?_cons_cons] at hl
        exact (List.nodup_cons.mp hd).1 (List.mem_of_getLast? hl)
      have hw := ih (n := n) (p := y) (by simpa using hn)
        (fun q hq => hp q (List.mem_cons_of_mem _ hq))
        hc.2 (List.nodup_cons.mp hd).2 (by simpa using hl) rfl
      simp [walk, hne, Table.link_eq (hp x (by simp)), hc.1.1, hw]

theorem toList_eq (h : r.Holds t c l) : r.toList t c = .ok l := by
  unfold toList
  rw [head?_eq h, h.tail]
  obtain rfl | hl := eq_or_ne l []
  · rfl
  · rw [List.getLast?_eq_some_getLast hl, List.head?_eq_some_head hl]
    exact walk_eq h.length_le h.inPool ((chain_iff_of_ne_nil hl).mp h.cycle).2 h.nodup
      (List.getLast?_eq_some_getLast hl) (List.head?_eq_some_head hl)

/-- The search meets every entry from the cursor on once, and then the tail again. -/
theorem reaches_eq {tail cursor : Handle} {n : Nat} (hn : l.length < n)
    (hp : ∀ q ∈ cursor :: l, q.InPool) (hc : (cursor :: (l ++ [tail])).IsChain (t.Joined c))
    (ht : tail ∉ l) : reaches t c tail p n cursor = .ok (decide (p ∈ cursor :: l)) := by
  induction l generalizing n cursor with
  | nil =>
    obtain ⟨n, rfl⟩ : ∃ k, n = k + 1 := ⟨n - 1, by omega⟩
    have hj : t.Joined c cursor tail := by simpa using hc
    by_cases e : cursor = p
    · simp [reaches, e]
    · simp [reaches, e, Ne.symm e, Table.link_eq (hp cursor (by simp)), hj.1]
  | cons x l ih =>
    obtain ⟨n, rfl⟩ : ∃ k, n = k + 1 := ⟨n - 1, by omega⟩
    rw [List.cons_append, List.isChain_cons_cons] at hc
    have hx : x ≠ tail := fun e => ht (by simp [e])
    have hr : reaches t c tail p n x = .ok (decide (p ∈ x :: l)) :=
      ih (by simpa using hn) (fun q hq => hp q (by simp at hq ⊢; tauto)) hc.2
        fun hm => ht (List.mem_cons_of_mem _ hm)
    by_cases e : cursor = p
    · simp [reaches, e]
    · simp [reaches, e, Ne.symm e, Table.link_eq (hp cursor (by simp)), hc.1.1, hx, hr]

theorem insert_holds (h : r.Holds t c l) (hp : p.InPool) (hf : (t.entry p).link c = {}) :
    ∃ u, r.insert t c p = .ok (⟨some p⟩, u) ∧ Holds ⟨some p⟩ u c (l ++ [p]) ∧
      Table.Relinked c (p :: l) t u := by
  have hs : ∀ q ∈ l, q.slot ≠ p.slot := fun q hq e => by
    have := h.isLinked hq
    rw [Table.entry_congr e, hf] at this
    cases this
  have hslots : ((l ++ [p]).map (·.slot)).Nodup := by
    rw [List.map_append, List.nodup_append]
    refine ⟨h.slots, by simp, ?_⟩
    intro a ha b hb
    obtain ⟨q, hq, rfl⟩ := List.mem_map.mp ha
    simp only [List.map_cons, List.map_nil, List.mem_singleton] at hb
    exact hb ▸ hs q hq
  have hpool : ∀ q ∈ l ++ [p], q.InPool := by
    intro q hq
    rcases List.mem_append.mp hq with hq | hq
    · exact h.inPool q hq
    · exact List.mem_singleton.mp hq ▸ hp
  unfold insert
  simp only [Table.link_eq hp, hf, ok_bind, Link.isLinked, Option.isSome_none, Bool.or_self,
    Bool.false_eq_true, if_false, pure_eq_ok]
  rw [h.tail]
  obtain rfl | hl := eq_or_ne l []
  · refine ⟨t.relink c p fun _ => ⟨some p, some p⟩, ?_, ⟨by simp, hpool, hslots, ?_⟩, ?_⟩
    · simp [Table.modifyLink_eq hp]
    · simp [Table.Joined, Table.link_relink hp]
    · exact .relink hp (by simp)
  · have hc := (chain_iff_of_ne_nil hl).mp h.cycle
    -- the ring is opened between its last entry and its first, where `p` goes
    generalize hz : l.getLast hl = z at hc
    generalize ha : l.head hl = a at hc
    have hzm : z ∈ l := hz ▸ l.getLast_mem hl
    have ham : a ∈ l := ha ▸ l.head_mem hl
    have hzp := h.inPool z hzm
    have hap := h.inPool a ham
    rw [List.getLast?_eq_some_getLast hl, hz]
    simp only [Table.link_eq hzp, ok_bind, hc.1.1, Option.getD_some, Table.modifyLink_eq hp,
      Table.modifyLink_eq hzp, Table.modifyLink_eq hap]
    refine ⟨_, rfl, ⟨by simp, hpool, hslots, ?_⟩, ?_⟩
    · have hrot : ((l ++ [p] : List Handle) : Cycle Handle) =
          ((p :: l : List Handle) : Cycle Handle) := by
        rw [Cycle.coe_eq_coe]
        exact List.isRotated_append
      rw [hrot, chain_cons_iff hl, hz, ha]
      have hap' := hs a ham
      have hzp' := hs z hzm
      refine ⟨?_, Table.isChain_joined hl h.slots hc.2 (fun x hx hxz => ?_)
        (fun y hy hya => ?_), ?_⟩
      · simp [Table.Joined, Table.link_relink hp, Table.link_relink hzp, Table.link_relink hap,
          hap'.symm, hzp'.symm]
      · rw [hz] at hxz
        simp only [Table.link_relink hp, Table.link_relink hzp, Table.link_relink hap,
          hs x hx, hxz, if_false]
        split <;> rfl
      · rw [ha] at hya
        simp only [Table.link_relink hp, Table.link_relink hzp, Table.link_relink hap,
          hs y hy, hya, if_false]
        split <;> rfl
      · simp only [Table.Joined, Table.link_relink hp, Table.link_relink hzp, Table.link_relink hap,
          hzp', hap'.symm, hzp'.symm, if_true, if_false]
        split <;> simp
    · exact ((Table.Relinked.relink hp (by simp)).trans (.relink hzp (by simp [hzm]))).trans
        (.relink hap (by simp [ham]))

/-- What comes last once `p` is gone: what came before it, if `p` came last itself. -/
theorem getLast?_append_of_cons {xs ys : List Handle} (hl : ys ++ xs ≠ []) (hy : p ∉ ys) :
    (xs ++ ys).getLast? = if (xs ++ p :: ys).getLast? = some p then some ((ys ++ xs).getLast hl)
      else (xs ++ p :: ys).getLast? := by
  obtain rfl | hne := eq_or_ne ys []
  · have hx : xs ≠ [] := by simpa using hl
    simp [List.getLast?_eq_some_getLast hx]
  · have hlast : ys.getLast hne ≠ p := fun e => hy (e ▸ ys.getLast_mem hne)
    simp [List.getLast?_append, List.getLast?_cons_of_ne_nil hne,
      List.getLast?_eq_some_getLast hne, hlast]

/-- Only the entries before and after `p` see that it is gone; in a
ring of two they are the same. -/
theorem unlink_holds (h : r.Holds t c l) (hm : p ∈ l) :
    ∃ r' u, r.unlink t c p = .ok (r', u) ∧ r'.Holds u c (l.erase p) ∧ Table.Relinked c l t u ∧
      (u.entry p).link c = {} := by
  obtain ⟨xs, ys, e⟩ := List.append_of_mem hm
  have hp := h.inPool p hm
  have hnd := h.nodup
  have he : l.erase p = xs ++ ys := by
    rw [e, List.nodup_append] at hnd
    have hx : p ∉ xs := fun hx => hnd.2.2 p hx p (by simp) rfl
    rw [e, List.erase_append_right _ hx, List.erase_cons_head]
  have hsub : ∀ q ∈ xs ++ ys, q ∈ l := fun q hq => by
    rw [e]
    simp only [List.mem_append, List.mem_cons] at hq ⊢
    tauto
  have hslots : ((xs ++ ys).map (·.slot)).Nodup := he ▸ h.slots.sublist (List.erase_sublist.map _)
  have hne : ∀ q ∈ xs ++ ys, q.slot ≠ p.slot := fun q hq hs => by
    rw [h.eq_of_slot (hsub q hq) hm hs] at hq
    exact (List.Nodup.not_mem_erase hnd) (he ▸ hq)
  have hc := h.open_at e
  unfold unlink
  rw [Table.link_eq hp, he]
  simp only [ok_bind, pure_eq_ok]
  obtain hz | hl := eq_or_ne (ys ++ xs) []
  · obtain ⟨rfl, rfl⟩ := List.append_eq_nil_iff.mp hz
    rw [hz, Cycle.chain_singleton] at hc
    rw [if_pos hc.1, Table.modifyLink_eq hp]
    exact ⟨_, _, rfl, .nil, .relink hp hm, by simp [Table.link_relink hp]⟩
  · rw [chain_cons_iff hl] at hc
    -- the neighbours of `p` are the two ends of the rest of the cycle
    generalize hz : (ys ++ xs).getLast hl = z at hc
    generalize ha : (ys ++ xs).head hl = a at hc
    have hzm : z ∈ xs ++ ys := by
      have := hz ▸ (ys ++ xs).getLast_mem hl
      simpa [or_comm] using this
    have ham : a ∈ xs ++ ys := by
      have := ha ▸ (ys ++ xs).head_mem hl
      simpa [or_comm] using this
    have hzp := h.inPool z (hsub z hzm)
    have hap := h.inPool a (hsub a ham)
    have hap' := hne a ham
    have hzp' := hne z hzm
    have hpa : ¬some a = some p := fun e => hap' (by rw [Option.some.inj e])
    rw [hc.1.1, if_neg hpa, hc.2.2.2]
    simp only [Table.modifyLink_eq hp, Table.modifyLink_eq hzp, Table.modifyLink_eq hap, ok_bind]
    refine ⟨_, _, rfl, ⟨?_, fun q hq => h.inPool q (hsub q hq), hslots, ?_⟩, ?_, ?_⟩
    · have hy : p ∉ ys := fun hy => hne p (List.mem_append_right _ hy) rfl
      rw [h.tail, e, getLast?_append_of_cons hl hy, hz]
    · have hrot : ((xs ++ ys : List Handle) : Cycle Handle) =
          ((ys ++ xs : List Handle) : Cycle Handle) := by
        rw [Cycle.coe_eq_coe]
        exact List.isRotated_append
      rw [hrot, chain_iff_of_ne_nil hl, hz, ha]
      refine ⟨?_, Table.isChain_joined hl ?_ hc.2.1 (fun x hx hxz => ?_) fun y hy hya => ?_⟩
      · simp only [Table.Joined, Table.link_relink hp, Table.link_relink hzp, Table.link_relink hap,
          hzp', hap', if_true, if_false]
        split <;> simp
      · rw [List.map_append] at hslots ⊢
        exact List.nodup_append_comm.mp hslots
      · have hx' : x ∈ xs ++ ys := by simpa [or_comm] using hx
        rw [hz] at hxz
        simp only [Table.link_relink hp, Table.link_relink hzp,
          Table.link_relink hap, hne x hx', hxz, if_false]
        split <;> rfl
      · have hy' : y ∈ xs ++ ys := by simpa [or_comm] using hy
        rw [ha] at hya
        simp only [Table.link_relink hp, Table.link_relink hzp,
          Table.link_relink hap, hne y hy', hya, if_false]
        split <;> rfl
    · exact ((Table.Relinked.relink hzp (hsub z hzm)).trans (.relink hap (hsub a ham))).trans
        (.relink hp hm)
    · simp [Table.link_relink hp]

theorem pop_nil (h : r.Holds t c []) : r.pop t c = .ok (none, r, t) := by
  simp [pop, head?_eq h]

theorem pop_cons (h : r.Holds t c (p :: l)) :
    ∃ r' u, r.pop t c = .ok (some p, r', u) ∧ r'.Holds u c l ∧ Table.Relinked c (p :: l) t u ∧
      (u.entry p).link c = {} := by
  obtain ⟨r', u, hu, hr, hl, hf⟩ := unlink_holds h (p := p) (by simp)
  exact ⟨r', u, by simp [pop, head?_eq h, hu], by simpa using hr, hl, hf⟩

theorem reaches_tail {tail : Handle} (h : r.Holds t c l) (ht : r.tail = some tail) :
    reaches t c tail p (maxProcesses + 1) tail = .ok (decide (p ∈ l)) := by
  have hz : l.getLast? = some tail := h.tail ▸ ht
  obtain ⟨xs, rfl⟩ := List.getLast?_eq_some_iff.mp hz
  have hc := (Cycle.chain_ne_nil (t.Joined c) (by simp)).mp h.cycle
  rw [List.getLast_append_singleton] at hc
  have hn := h.length_le
  have hd : tail ∉ xs := by
    have := h.nodup
    rw [List.nodup_append] at this
    exact fun hm => this.2.2 _ hm _ (by simp) rfl
  have hr : reaches t c tail p (maxProcesses + 1) tail = .ok (decide (p ∈ tail :: xs)) :=
    reaches_eq (by simp at hn; omega) (fun q hq => h.inPool q (by simp at hq ⊢; tauto)) hc hd
  simpa [or_comm] using hr

theorem remove_of_mem (h : r.Holds t c l) (hm : p ∈ l) :
    ∃ r' u, r.remove t c p = .ok (some p, r', u) ∧ r'.Holds u c (l.erase p) ∧
      Table.Relinked c l t u ∧ (u.entry p).link c = {} := by
  obtain ⟨r', u, hu, hr, hl, hf⟩ := unlink_holds h hm
  refine ⟨r', u, ?_, hr, hl, hf⟩
  cases ht : r.tail with
  | none =>
    rw [h.tail, List.getLast?_eq_none_iff] at ht
    simp [ht] at hm
  | some tail => simp [remove, ht, reaches_tail h ht, hm, hu]

theorem remove_of_not_mem (h : r.Holds t c l) (hm : p ∉ l) :
    r.remove t c p = .ok (none, r, t) := by
  cases ht : r.tail with
  | none => simp [remove, ht]
  | some tail => simp [remove, ht, reaches_tail h ht, hm]

end Ring
end Nucleus
