import Mathlib.Data.Fintype.Card
import Mathlib.Data.List.TakeWhile
import Mathlib.Logic.Function.Basic
import Nucleus.Semaphore.Directory

/-!
# The directory as a sorted list

The entries in use form a path from the lower end to the upper one, in increasing order of their
keys; all others are in the free list. A search splits the path at its key: what comes before is
smaller, and an entry for the key, if there is one, comes first behind the split. `ringAt` is the
directory as a map from keys to rings.
-/
namespace Nucleus.Directory

variable {d e : Directory} {i j k : Fin directorySize} {path A B : List (Fin directorySize)}
variable {key other : SemKey} {queue : Ring}

theorem getElem_set_fin {α : Type} {n : Nat} (v : Vector α n) (i j : Fin n) (x : α) :
    (v.set i x)[j] = if i = j then x else v[j] := by
  simp [Vector.getElem_set, Fin.ext_iff]

/-- From `i` the links lead through `path` to the upper end. -/
def Threads (d : Directory) : Fin directorySize → List (Fin directorySize) → Prop
  | i, [] => (d.entry i).next = some high
  | i, j :: path => (d.entry i).next = some j ∧ d.Threads j path

/-- The last entry of `A`, or the entry the way began at. -/
abbrev lastFrom (i : Fin directorySize) (A : List (Fin directorySize)) : Fin directorySize :=
  (i :: A).getLast (List.cons_ne_nil i A)

theorem lastFrom_cons : lastFrom i (j :: A) = lastFrom j A :=
  List.getLast_cons (List.cons_ne_nil j A)

theorem Threads.congr (h : d.Threads i path)
    (he : ∀ j ∈ i :: path, (e.entry j).next = (d.entry j).next) : e.Threads i path := by
  induction path generalizing i with
  | nil => exact (he i (by simp)).trans h
  | cons j path ih =>
    exact ⟨(he i (by simp)).trans h.1, ih h.2 fun k hk => he k (by simp at hk ⊢; tauto)⟩

theorem Threads.next (h : d.Threads i (A ++ B)) :
    (d.entry (lastFrom i A)).next = some (B.head?.getD high) := by
  induction A generalizing i with
  | nil =>
    cases B with
    | nil => exact h
    | cons b B => exact h.1
  | cons a A ih =>
    rw [lastFrom_cons]
    exact ih h.2

/-- Behind the last entry of `A` comes `j`, and then what came there before. -/
theorem Threads.insert (h : d.Threads i (A ++ B)) (hn : (i :: (A ++ B)).Nodup)
    (hp : (e.entry (lastFrom i A)).next = some j)
    (hj : (e.entry j).next = (d.entry (lastFrom i A)).next)
    (he : ∀ k ∈ i :: (A ++ B), k ≠ lastFrom i A → (e.entry k).next = (d.entry k).next) :
    e.Threads i (A ++ j :: B) := by
  induction A generalizing i with
  | nil =>
    refine ⟨hp, ?_⟩
    have hi : ∀ k ∈ B, (e.entry k).next = (d.entry k).next := fun k hk =>
      he k (by simp [hk]) fun hki => (List.nodup_cons.mp hn).1 (by
        have hki' : k = i := hki
        simpa [← hki'] using hk)
    cases B with
    | nil => exact hj.trans h
    | cons b B => exact ⟨hj.trans h.1, h.2.congr hi⟩
  | cons a A ih =>
    rw [lastFrom_cons] at hp hj he
    obtain ⟨hni, hn⟩ := List.nodup_cons.mp hn
    have hia : i ≠ lastFrom a A := fun e => hni (by
      rw [e]
      exact List.mem_append_left B (List.getLast_mem (List.cons_ne_nil a A)))
    exact ⟨(he i (by simp) hia).trans h.1,
      ih h.2 hn hp hj fun k hk => he k (List.mem_cons_of_mem i hk)⟩

theorem Threads.remove (h : d.Threads i (A ++ j :: B)) (hn : (i :: (A ++ j :: B)).Nodup)
    (hp : (e.entry (lastFrom i A)).next = (d.entry j).next)
    (he : ∀ k ∈ i :: (A ++ B), k ≠ lastFrom i A → (e.entry k).next = (d.entry k).next) :
    e.Threads i (A ++ B) := by
  induction A generalizing i with
  | nil =>
    have hi : ∀ k ∈ B, (e.entry k).next = (d.entry k).next := fun k hk =>
      he k (by simp [hk]) fun hki => (List.nodup_cons.mp hn).1 (by
        have hki' : k = i := hki
        simp [← hki', hk])
    cases B with
    | nil => exact hp.trans h.2
    | cons b B => exact ⟨hp.trans h.2.1, h.2.2.congr hi⟩
  | cons a A ih =>
    rw [lastFrom_cons] at hp he
    obtain ⟨hni, hn⟩ := List.nodup_cons.mp hn
    have hia : i ≠ lastFrom a A := fun e => hni (by
      rw [e]
      exact List.mem_append_left (j :: B) (List.getLast_mem (List.cons_ne_nil a A)))
    exact ⟨(he i (by simp) hia).trans h.1,
      ih h.2 hn hp fun k hk => he k (List.mem_cons_of_mem i hk)⟩

theorem predecessorFrom_succ (n : Nat) : d.predecessorFrom key (n + 1) i =
    match (d.entry i).next with
    | none => .ok i
    | some j => if (d.entry j).key.address < key.address then
      d.predecessorFrom key n j else .ok i :=
  rfl

/-- The search passes the smaller entries and stops at the first other one. -/
theorem predecessorFrom_eq {n : Nat} (h : d.Threads i (A ++ B)) (hn : A.length < n)
    (hA : ∀ j ∈ A, (d.entry j).key.address < key.address)
    (hB : ¬(d.entry (B.head?.getD high)).key.address < key.address) :
    d.predecessorFrom key n i = .ok (lastFrom i A) := by
  obtain ⟨n, rfl⟩ : ∃ m, n = m + 1 := ⟨n - 1, by omega⟩
  induction A generalizing i n with
  | nil =>
    have hi : (d.entry i).next = some (B.head?.getD high) := h.next
    rw [predecessorFrom_succ, hi]
    exact if_neg hB
  | cons a A ih =>
    obtain ⟨n, rfl⟩ : ∃ m, n = m + 1 := ⟨n - 1, by simp at hn; omega⟩
    have hi : (d.entry i).next = some a := h.1
    rw [lastFrom_cons]
    have ha : (d.entry a).key.address < key.address := hA a (by simp)
    rw [predecessorFrom_succ, hi]
    exact (if_pos ha).trans (ih h.2 (fun j hj => hA j (by simp [hj])) n (by simpa using hn))

theorem keysFrom_eq {n : Nat} (h : d.Threads i path) (hn : path.length < n) (hh : high ∉ path) :
    d.keysFrom n (d.entry i).next = .ok (path.map fun j => (d.entry j).key) := by
  obtain ⟨n, rfl⟩ : ∃ m, n = m + 1 := ⟨n - 1, by omega⟩
  induction path generalizing i n with
  | nil =>
    have hi : (d.entry i).next = some high := h
    rw [hi]
    rfl
  | cons a path ih =>
    obtain ⟨n, rfl⟩ : ∃ m, n = m + 1 := ⟨n - 1, by simp at hn; omega⟩
    have hi : (d.entry i).next = some a := h.1
    have ha : a ≠ high := fun e => hh (by simp [e])
    have hr := ih h.2 (fun hm => hh (by simp [hm])) n (by simpa using hn)
    rw [hi, keysFrom, if_neg ha, entries_eq, hr]
    rfl

theorem entry_setQueue (i j : Fin directorySize) :
    (d.setQueue i queue).entry j = if i = j then { d.entry i with queue } else d.entry j :=
  getElem_set_fin ..

theorem key_setQueue (i j : Fin directorySize) :
    ((d.setQueue i queue).entry j).key = (d.entry j).key := by
  rw [entry_setQueue]
  split <;> simp_all

structure Chained (d : Directory) (path : List (Fin directorySize)) : Prop where
  threads : d.Threads low path
  upper : (d.entry high).key = .highest
  sorted : path.Pairwise fun i j => (d.entry i).key.address < (d.entry j).key.address
  perm : (low :: high :: (path ++ d.free)).Perm (List.finRange directorySize)
  idle : ∀ i ∉ path, (d.entry i).queue = {}

namespace Chained

theorem empty : Directory.empty.Chained [] where
  threads := rfl
  upper := rfl
  sorted := .nil
  perm := by decide
  idle := by decide

theorem nodup (h : d.Chained path) : (low :: high :: (path ++ d.free)).Nodup :=
  h.perm.nodup_iff.mpr (List.nodup_finRange _)

theorem low_notMem (h : d.Chained path) : low ∉ path := fun hm =>
  (List.nodup_cons.mp h.nodup).1 (by simp [hm])

theorem high_notMem (h : d.Chained path) : high ∉ path := fun hm =>
  (List.nodup_cons.mp (List.nodup_cons.mp h.nodup).2).1 (by simp [hm])

theorem nodup_path (h : d.Chained path) : (low :: path).Nodup := by
  have hn := (List.nodup_cons.mp (List.nodup_cons.mp h.nodup).2).2
  exact List.nodup_cons.mpr ⟨h.low_notMem, (List.nodup_append.mp hn).1⟩

theorem length_eq (h : d.Chained path) : path.length + d.free.length = maxSemaphores := by
  have hl := h.perm.length_eq
  rw [List.length_finRange] at hl
  simp only [List.length_cons, List.length_append, directorySize, maxSemaphores] at hl ⊢
  omega

theorem stops (h : d.Chained path) (hB : ∀ i ∈ B, ¬(d.entry i).key.address < key.address) :
    ¬(d.entry (B.head?.getD high)).key.address < key.address := by
  cases B with
  | nil =>
    rw [List.head?_nil, Option.getD_none, h.upper, UInt32.not_lt, UInt32.le_iff_toNat_le]
    have hlt := key.address.toNat_lt
    show key.address.toNat ≤ 4294967295
    omega
  | cons b B => exact hB b (by simp)

theorem predecessor_eq (h : d.Chained path) (hs : path = A ++ B)
    (hA : ∀ i ∈ A, (d.entry i).key.address < key.address)
    (hB : ∀ i ∈ B, ¬(d.entry i).key.address < key.address) :
    d.predecessor key = .ok (lastFrom low A) := by
  have hl := h.length_eq
  rw [hs, List.length_append] at hl
  have hlen : A.length < directorySize := by
    have : directorySize = maxSemaphores + 2 := rfl
    omega
  exact predecessorFrom_eq (hs ▸ h.threads) hlen hA (h.stops hB)

theorem split (h : d.Chained path) (key : SemKey) :
    ∃ A B, path = A ++ B ∧ (∀ i ∈ A, (d.entry i).key.address < key.address) ∧
      (∀ i ∈ B, ¬(d.entry i).key.address < key.address) := by
  refine ⟨path.takeWhile fun i => (d.entry i).key.address < key.address,
    path.dropWhile fun i => (d.entry i).key.address < key.address,
    List.takeWhile_append_dropWhile.symm, fun i hi => ?_, ?_⟩
  · simpa using List.mem_takeWhile_imp hi
  · generalize hB : path.dropWhile _ = B
    have hsub : B.Sublist path := hB ▸ List.dropWhile_sublist _
    have hs := h.sorted.sublist hsub
    cases B with
    | nil => simp
    | cons b B =>
      have hb : ¬(d.entry b).key.address < key.address := by
        have hd := List.head_dropWhile_not
          (fun i : Fin directorySize => decide ((d.entry i).key.address < key.address)) (l := path)
          (by simp [hB])
        simpa [hB] using hd
      intro i hi hlt
      rcases List.mem_cons.mp hi with rfl | hi
      · exact hb hlt
      · have hbi := (List.pairwise_cons.mp hs).1 i hi
        exact hb (UInt32.lt_trans hbi hlt)

theorem split_at (h : d.Chained path) (hi : i ∈ path) (hk : (d.entry i).key = key) :
    ∃ A B, path = A ++ i :: B ∧ (∀ j ∈ A, (d.entry j).key.address < key.address) ∧
      (∀ j ∈ i :: B, ¬(d.entry j).key.address < key.address) := by
  obtain ⟨A, B, rfl⟩ := List.append_of_mem hi
  have hs := List.pairwise_append.mp h.sorted
  refine ⟨A, B, rfl, fun j hj => hk ▸ hs.2.2 j hj i (by simp), fun j hj hlt => ?_⟩
  rcases List.mem_cons.mp hj with rfl | hj
  · exact absurd (hk ▸ hlt) (UInt32.lt_irrefl _)
  · have hij := (List.pairwise_cons.mp hs.2.1).1 j hj
    rw [hk] at hij
    exact absurd (UInt32.lt_trans hij hlt) (UInt32.lt_irrefl _)

theorem find?_of_mem (h : d.Chained path) (hi : i ∈ path) (hk : (d.entry i).key = key) :
    d.find? key = .ok (some i) := by
  obtain ⟨A, B, hs, hA, hB⟩ := h.split_at hi hk
  have hne : i ≠ high := fun e => h.high_notMem (e ▸ hi)
  have hnext : (d.entry (lastFrom low A)).next = some i := (hs ▸ h.threads : d.Threads low _).next
  simp only [find?, h.predecessor_eq hs hA hB, ok_bind, entries_eq, hnext]
  simp [hne, hk]

theorem find?_of_not (h : d.Chained path) (hk : ∀ i ∈ path, (d.entry i).key ≠ key) :
    d.find? key = .ok none := by
  obtain ⟨A, B, hs, hA, hB⟩ := h.split key
  have hnext := (hs ▸ h.threads : d.Threads low _).next
  simp only [find?, h.predecessor_eq hs hA hB, ok_bind, entries_eq, hnext]
  cases B with
  | nil => simp
  | cons b B =>
    have hb := hk b (by simp [hs])
    simp [hb]

theorem keys_eq (h : d.Chained path) : d.keys = .ok (path.map fun i => (d.entry i).key) := by
  have hl := h.length_eq
  have hlen : path.length < directorySize := by
    have : directorySize = maxSemaphores + 2 := rfl
    omega
  exact keysFrom_eq h.threads hlen h.high_notMem

theorem key_inj (h : d.Chained path) (hi : i ∈ path) (hj : j ∈ path)
    (hk : (d.entry i).key = (d.entry j).key) : i = j := by
  have hf := (h.find?_of_mem hi hk).symm.trans (h.find?_of_mem hj rfl)
  simpa using hf

theorem setQueue (h : d.Chained path) (hi : i ∈ path) : (d.setQueue i queue).Chained path := by
  refine ⟨h.threads.congr fun j _ => ?_, (key_setQueue i _).trans h.upper, ?_,
    h.perm, fun j hj => ?_⟩
  · rw [entry_setQueue]
    split <;> simp_all
  · simpa only [key_setQueue] using h.sorted
  · have hij : i ≠ j := fun e => hj (e ▸ hi)
    rw [entry_setQueue, if_neg hij]
    exact h.idle j hj

theorem length_free_lt (h : d.Chained path) (hj : j ∈ path) : d.free.length < directorySize := by
  have hl := h.length_eq
  have hp := List.length_pos_of_mem hj
  simp only [directorySize, maxSemaphores] at hl ⊢
  omega

theorem lastFrom_mem (hs : path = A ++ B) : lastFrom low A ∈ low :: path := by
  have hm : lastFrom low A ∈ low :: A := List.getLast_mem _
  rw [hs]
  simp only [List.mem_cons, List.mem_append] at hm ⊢
  tauto

theorem pairwise_insert {f g : Fin directorySize → Word}
    (hs : (A ++ B).Pairwise fun a b => f a < f b) (hA : ∀ a ∈ A, f a < g j)
    (hB : ∀ b ∈ B, g j < f b) (hg : ∀ k ∈ A ++ B, g k = f k) :
    (A ++ j :: B).Pairwise fun a b => g a < g b := by
  have hs' : (A ++ B).Pairwise fun a b => g a < g b := hs.imp_of_mem fun {a b} ha hb hab => by
    rwa [hg a ha, hg b hb]
  obtain ⟨hsA, hsB, hAB⟩ := List.pairwise_append.mp hs'
  rw [List.pairwise_append, List.pairwise_cons]
  refine ⟨hsA, ⟨fun b hb => ?_, hsB⟩, fun a ha b hb => ?_⟩
  · rw [hg b (by simp [hb])]
    exact hB b hb
  · rcases List.mem_cons.mp hb with rfl | hb
    · rw [hg a (by simp [ha])]
      exact hA a ha
    · exact hAB a ha b hb

/-- A free entry goes between the smaller entries and the others. -/
theorem activate (h : d.Chained path) (hn : ∀ i ∈ path, (d.entry i).key ≠ key)
    {rest : List (Fin directorySize)} (hf : d.free = j :: rest) :
    ∃ e path', d.activate key = .ok (some (j, e)) ∧ e.Chained path' ∧
      (∀ k, k ∈ path' ↔ k = j ∨ k ∈ path) ∧ e.entry j = { e.entry j with key, queue := {} } ∧
      ∀ k ∈ path, e.entry k = { d.entry k with next := (e.entry k).next } := by
  obtain ⟨A, B, hs, hA, hB⟩ := h.split key
  have hnd := h.nodup
  rw [hf] at hnd
  have hjp : j ∉ low :: high :: path := fun hm => by
    have hmid := List.nodup_middle.mp (show ((low :: high :: path) ++ j :: rest).Nodup from hnd)
    exact (List.nodup_cons.mp hmid).1 (List.mem_append_left _ hm)
  have hjl : j ≠ lastFrom low A := fun e => hjp (by
    have hlast := e ▸ lastFrom_mem hs
    simp only [List.mem_cons] at hlast ⊢
    tauto)
  have hne : ∀ k ∈ path, k ≠ j := fun k hk e => hjp (by simp [← e, hk])
  have hmem : ∀ k, k ∈ A ++ j :: B ↔ k = j ∨ k ∈ path := fun k => by
    rw [hs]
    simp only [List.mem_append, List.mem_cons]
    tauto
  generalize hentries : (d.entries.set j { next := (d.entry (lastFrom low A)).next, key }).set
    (lastFrom low A) { d.entry (lastFrom low A) with next := some j } = entries
  generalize he : Directory.mk entries rest = e
  have hact : d.activate key = .ok (some (j, e)) := by
    simp only [Directory.activate, h.find?_of_not hn, ok_bind, hf, h.predecessor_eq hs hA hB,
      pure_eq_ok, getElem_set_fin, if_neg hjl, entries_eq, hentries, he]
  have hent : ∀ k, e.entry k = if lastFrom low A = k then
      { d.entry (lastFrom low A) with next := some j } else if j = k then
      { next := (d.entry (lastFrom low A)).next, key } else d.entry k := fun k => by
    rw [← he, ← entries_eq, ← hentries, getElem_set_fin, getElem_set_fin]
    rfl
  have hej : e.entry j = { next := (d.entry (lastFrom low A)).next, key } := by
    rw [hent, if_neg (Ne.symm hjl), if_pos rfl]
  have hel : e.entry (lastFrom low A) = { d.entry (lastFrom low A) with next := some j } := by
    rw [hent, if_pos rfl]
  have hrest : ∀ k, k ≠ j → k ≠ lastFrom low A → e.entry k = d.entry k := fun k hk hl => by
    rw [hent, if_neg (Ne.symm hl), if_neg (Ne.symm hk)]
  have hsame : ∀ k, k ≠ j →
      e.entry k = { d.entry k with next := (e.entry k).next } := fun k hk => by
    by_cases hl : k = lastFrom low A
    · rw [hl, hel]
    · rw [hrest k hk hl]
  have hkey : ∀ k ∈ A ++ B, (e.entry k).key = (d.entry k).key := fun k hk => by
    rw [hsame k (hne k (hs ▸ hk))]
  refine ⟨e, A ++ j :: B, hact, ⟨?_, ?_, ?_, ?_, fun k hk => ?_⟩, hmem, by rw [hej],
    fun k hk => hsame k (hne k hk)⟩
  · refine (hs ▸ h.threads : d.Threads low (A ++ B)).insert (hs ▸ h.nodup_path) (by rw [hel])
      (by rw [hej]) fun k hk hl => ?_
    rw [hrest k (fun e => hjp ?_) hl]
    rw [← e, hs]
    simp only [List.mem_cons] at hk ⊢
    tauto
  · have hh : high ≠ j := fun e => hjp (by simp [← e])
    rw [hsame high hh]
    exact h.upper
  · have hkj : (e.entry j).key = key := by rw [hej]
    refine pairwise_insert (hs ▸ h.sorted) (fun a ha => ?_)
      (fun b hb => ?_) fun k hk => by rw [hkey k hk]
    · rw [hkj]
      exact hA a ha
    · rw [hkj]
      refine UInt32.lt_of_le_of_ne (UInt32.not_lt.mp (hB b hb)) fun e => hn b (by simp [hs, hb]) ?_
      exact congrArg SemKey.mk e.symm
  · have hperm : (A ++ j :: B ++ rest).Perm (path ++ d.free) := by
      rw [hs, hf, List.append_assoc, List.append_assoc, List.cons_append]
      exact (List.perm_middle.symm).append_left A
    rw [← he]
    exact ((hperm.cons high).cons low).trans h.perm
  · rw [hmem, not_or] at hk
    rw [hsame k hk.1]
    exact h.idle k hk.2

/-- The entry of a key leaves the path and is free again. -/
theorem deactivate (h : d.Chained path) (hj : j ∈ path) (hk : (d.entry j).key = key) :
    ∃ e path', d.deactivate key = .ok e ∧ e.Chained path' ∧ (∀ k, k ∈ path' ↔ k ≠ j ∧ k ∈ path) ∧
      ∀ k ∈ path', e.entry k = { d.entry k with next := (e.entry k).next } := by
  obtain ⟨A, B, hs, hA, hB⟩ := h.split_at hj hk
  have hnp := h.nodup_path
  have hjp : j ∉ low :: (A ++ B) := by
    rw [hs] at hnp
    exact (List.nodup_cons.mp (List.nodup_middle.mp (show ((low :: A) ++ j :: B).Nodup from hnp))).1
  have hjh : j ≠ high := fun e => h.high_notMem (e ▸ hj)
  have hjl : j ≠ lastFrom low A := fun e => hjp (by
    have hlast := e ▸ lastFrom_mem (A := A) (B := B) rfl
    exact hlast)
  have hne : ∀ k ∈ low :: (A ++ B), k ≠ j := fun k hk e => hjp (e ▸ hk)
  have hmem : ∀ k, k ∈ A ++ B ↔ k ≠ j ∧ k ∈ path := fun k => by
    have hk := hne k
    rw [hs]
    simp only [List.mem_append, List.mem_cons] at hk ⊢
    tauto
  have hnext : (d.entry (lastFrom low A)).next = some j := (hs ▸ h.threads : d.Threads low _).next
  generalize hentries : (d.entries.set (lastFrom low A)
    { d.entry (lastFrom low A) with next := (d.entry j).next }).set j {} = entries
  generalize he : Directory.mk entries (j :: d.free) = e
  have hact : d.deactivate key = .ok e := by
    simp only [Directory.deactivate, h.predecessor_eq hs hA hB, ok_bind, entries_eq, hnext,
      pure_eq_ok, hentries, pushFree, h.length_free_lt hj, if_true, he]
  have hent : ∀ k, e.entry k = if j = k then {} else if lastFrom low A = k then
      { d.entry (lastFrom low A) with next := (d.entry j).next } else d.entry k := fun k => by
    rw [← he, ← entries_eq, ← hentries, getElem_set_fin, getElem_set_fin]
    rfl
  have hel : e.entry (lastFrom low A) =
      { d.entry (lastFrom low A) with next := (d.entry j).next } := by
    rw [hent, if_neg hjl, if_pos rfl]
  have hrest : ∀ k, k ≠ j → k ≠ lastFrom low A → e.entry k = d.entry k := fun k hk hl => by
    rw [hent, if_neg (Ne.symm hk), if_neg (Ne.symm hl)]
  have hsame : ∀ k, k ≠ j →
      e.entry k = { d.entry k with next := (e.entry k).next } := fun k hk => by
    by_cases hl : k = lastFrom low A
    · rw [hl, hel]
    · rw [hrest k hk hl]
  refine ⟨e, A ++ B, hact, ⟨?_, ?_, ?_, ?_, fun k hk => ?_⟩, hmem,
    fun k hk => hsame k ((hmem k).mp hk).1⟩
  · exact (hs ▸ h.threads : d.Threads low (A ++ j :: B)).remove (hs ▸ hnp) (by rw [hel])
      fun k hk hl => by rw [hrest k (hne k hk) hl]
  · rw [hsame high (Ne.symm hjh)]
    exact h.upper
  · have hsub : (A ++ B).Sublist path := by
      rw [hs]
      exact (List.sublist_cons_self j B).append_left A
    refine (h.sorted.sublist hsub).imp_of_mem fun ha hb hab => ?_
    rwa [hsame _ ((hmem _).mp ha).1, hsame _ ((hmem _).mp hb).1]
  · have hperm : (A ++ B ++ j :: d.free).Perm (path ++ d.free) := by
      rw [hs, List.append_assoc, List.append_assoc, List.cons_append]
      exact List.perm_middle.append_left A
    rw [← he]
    exact ((hperm.cons high).cons low).trans h.perm
  · by_cases hkj : k = j
    · rw [hent, if_pos hkj.symm]
    · rw [hsame k hkj]
      exact h.idle k fun hm => hk ((hmem k).mpr ⟨hkj, hm⟩)

end Chained

def ringAt (d : Directory) (key : SemKey) : Ring :=
  match d.find? key with
  | .ok (some i) => (d.entry i).queue
  | _ => {}

/-- The directory is in order and has entries for just these keys. -/
def Indexes (d : Directory) (active : SemKey → Prop) : Prop :=
  ∃ path, d.Chained path ∧ ∀ key, active key ↔ ∃ i ∈ path, (d.entry i).key = key

theorem Chained.ringAt_of_mem (h : d.Chained path) (hi : i ∈ path) :
    d.ringAt (d.entry i).key = (d.entry i).queue := by
  rw [ringAt, h.find?_of_mem hi rfl]

theorem Chained.ringAt_of_not (h : d.Chained path) (hk : ∀ i ∈ path, (d.entry i).key ≠ key) :
    d.ringAt key = {} := by
  rw [ringAt, h.find?_of_not hk]

/-- A map that agrees with the entries in use and is empty elsewhere is the directory's. -/
theorem Chained.ringAt_eq (h : d.Chained path) {f : SemKey → Ring}
    (hi : ∀ i ∈ path, f (d.entry i).key = (d.entry i).queue)
    (hn : ∀ key, (∀ i ∈ path, (d.entry i).key ≠ key) → f key = {}) : d.ringAt = f := by
  funext key
  by_cases hk : ∃ i ∈ path, (d.entry i).key = key
  · obtain ⟨i, hm, rfl⟩ := hk
    rw [h.ringAt_of_mem hm, hi i hm]
  · push Not at hk
    rw [h.ringAt_of_not hk, hn key hk]

theorem Chained.ringAt_setQueue (h : d.Chained path) (hi : i ∈ path) (hk : (d.entry i).key = key) :
    (d.setQueue i queue).ringAt = Function.update d.ringAt key queue := by
  refine (h.setQueue hi).ringAt_eq (fun j hj => ?_) fun k hn => ?_
  · rw [key_setQueue, entry_setQueue, Function.update_apply]
    by_cases hij : i = j
    · rw [if_pos hij, if_pos (hij ▸ hk)]
    · rw [if_neg hij, if_neg fun e => hij (h.key_inj hi hj (hk.trans e.symm)), h.ringAt_of_mem hj]
  · simp only [key_setQueue] at hn
    rw [Function.update_of_ne fun e => hn i hi (hk.trans e.symm), h.ringAt_of_not hn]

namespace Indexes
variable {active : SemKey → Prop}

theorem empty : Directory.empty.Indexes fun _ => False :=
  ⟨[], .empty, by simp⟩

theorem find?_some (h : d.Indexes active) (key : SemKey) (ha : active key) :
    ∃ i, d.find? key = .ok (some i) ∧ (d.entry i).queue = d.ringAt key := by
  obtain ⟨path, hc, hp⟩ := h
  obtain ⟨i, hi, rfl⟩ := (hp key).mp ha
  exact ⟨i, hc.find?_of_mem hi rfl, (hc.ringAt_of_mem hi).symm⟩

theorem find?_none (h : d.Indexes active) (key : SemKey) (ha : ¬active key) :
    d.find? key = .ok none := by
  obtain ⟨path, hc, hp⟩ := h
  rw [hp key] at ha
  push Not at ha
  exact hc.find?_of_not ha

theorem length_free_lt (h : d.Indexes active) (ha : active key) :
    d.free.length < directorySize := by
  obtain ⟨path, hc, hp⟩ := h
  obtain ⟨i, hi, _⟩ := (hp key).mp ha
  exact hc.length_free_lt hi

theorem keys (h : d.Indexes active) :
    ∃ keys, d.keys = .ok keys ∧ keys.Pairwise (·.address < ·.address) ∧
      (∀ key, key ∈ keys ↔ active key) ∧ keys.length + d.free.length = maxSemaphores := by
  obtain ⟨path, hc, hp⟩ := h
  refine ⟨_, hc.keys_eq, List.pairwise_map.mpr hc.sorted, fun key => ?_, ?_⟩
  · rw [hp key, List.mem_map]
  · rw [List.length_map]
    exact hc.length_eq

theorem nodup_of_sorted {keys : List SemKey} (h : keys.Pairwise (·.address < ·.address)) :
    keys.Nodup :=
  h.imp fun {a b} hlt (he : a = b) => by
    rw [he] at hlt
    exact UInt32.lt_irrefl _ hlt

theorem keys_congr {e : Directory} (h : d.Indexes active) (h' : e.Indexes active) :
    ∃ keys, d.keys = .ok keys ∧ e.keys = .ok keys := by
  obtain ⟨keys, hk, hsorted, hmem, _⟩ := h.keys
  obtain ⟨keys', hk', hsorted', hmem', _⟩ := h'.keys
  have hperm : keys'.Perm keys := by
    rw [List.perm_ext_iff_of_nodup (nodup_of_sorted hsorted') (nodup_of_sorted hsorted)]
    exact fun key => (hmem' key).trans (hmem key).symm
  have heq : keys' = keys := hperm.eq_of_pairwise
    (fun a b _ _ hab hba => (UInt32.lt_asymm hab hba).elim) hsorted' hsorted
  exact ⟨keys, hk, heq ▸ hk'⟩

/-- One entry is in use for each key, however often a list of them names it. -/
theorem activeCount_eq (h : d.Indexes active) {l : List SemKey} (hl : ∀ key, key ∈ l ↔ active key) :
    d.activeCount = l.dedup.length := by
  obtain ⟨keys, _, hsorted, hmem, hlen⟩ := h.keys
  have hkeys : keys.Nodup := nodup_of_sorted hsorted
  have hperm : l.dedup.Perm keys := by
    rw [List.perm_ext_iff_of_nodup l.nodup_dedup hkeys]
    intro key
    rw [List.mem_dedup, hl, hmem]
  rw [activeCount, hperm.length_eq]
  omega

theorem isActive_iff (h : d.Indexes active) (key : SemKey) :
    d.isActive key = .ok true ↔ active key := by
  by_cases ha : active key
  · obtain ⟨i, hf, _⟩ := h.find?_some key ha
    simp [isActive, hf, ha]
  · simp [isActive, h.find?_none key ha, ha]

theorem queue_eq (h : d.Indexes active) (i : Fin directorySize) :
    (d.entry i).queue = {} ∨ ∃ key, active key ∧ (d.entry i).queue = d.ringAt key := by
  obtain ⟨path, hc, hp⟩ := h
  by_cases hi : i ∈ path
  · exact .inr ⟨_, (hp _).mpr ⟨i, hi, rfl⟩, (hc.ringAt_of_mem hi).symm⟩
  · exact .inl (hc.idle i hi)

theorem setQueue (h : d.Indexes active) (hf : d.find? key = .ok (some i)) (queue : Ring) :
    (d.setQueue i queue).Indexes active ∧
      (d.setQueue i queue).ringAt = Function.update d.ringAt key queue := by
  obtain ⟨path, hc, hp⟩ := h
  obtain ⟨j, hj, rfl⟩ : ∃ j ∈ path, (d.entry j).key = key := by
    by_contra hn
    push Not at hn
    rw [hc.find?_of_not hn] at hf
    cases hf
  rw [hc.find?_of_mem hj rfl] at hf
  cases hf
  exact ⟨⟨path, hc.setQueue hj, by simpa only [key_setQueue] using hp⟩, hc.ringAt_setQueue hj rfl⟩

/-- With a free entry in reserve, every key can have a queue. -/
theorem activate (h : d.Indexes active) (key : SemKey) (hf : ¬active key → d.free ≠ []) :
    ∃ i e, d.activate key = .ok (some (i, e)) ∧ (e.entry i).queue = d.ringAt key ∧
      ∀ queue, (e.setQueue i queue).Indexes (fun k => k = key ∨ active k) ∧
        (e.setQueue i queue).ringAt = Function.update d.ringAt key queue := by
  by_cases ha : active key
  · obtain ⟨i, hfind, hq⟩ := h.find?_some key ha
    refine ⟨i, d, by simp [Directory.activate, hfind], hq, fun queue => ?_⟩
    have hor : (fun k => k = key ∨ active k) = active :=
      funext fun k => propext ⟨fun hk => hk.elim (fun e => e ▸ ha) id, .inr⟩
    rw [hor]
    exact h.setQueue hfind queue
  · obtain ⟨path, hc, hp⟩ := h
    obtain ⟨j, rest, hfree⟩ := List.exists_cons_of_ne_nil (hf ha)
    rw [hp key] at ha
    push Not at ha
    obtain ⟨e, path', hact, hc', hmem, hej, hsame⟩ := hc.activate ha hfree
    have hkj : (e.entry j).key = key := by rw [hej]
    have hqj : (e.entry j).queue = {} := by rw [hej]
    have hk : ∀ k ∈ path, (e.entry k).key = (d.entry k).key := fun k hk => by rw [hsame k hk]
    have hjm : j ∈ path' := (hmem j).mpr (.inl rfl)
    have hring : e.ringAt = d.ringAt := by
      refine hc'.ringAt_eq (fun k hk' => ?_) fun k hk' => hc.ringAt_of_not fun i hi => ?_
      · rcases (hmem k).mp hk' with rfl | hkm
        · rw [hkj, hqj, hc.ringAt_of_not ha]
        · rw [hk k hkm, hc.ringAt_of_mem hkm, hsame k hkm]
      · exact hk i hi ▸ hk' i ((hmem i).mpr (.inr hi))
    refine ⟨j, e, hact, ?_, fun queue => ⟨⟨path', hc'.setQueue hjm, fun k => ?_⟩, ?_⟩⟩
    · rw [hqj, hc.ringAt_of_not ha]
    · simp only [key_setQueue, hmem, hp k]
      constructor
      · rintro (rfl | ⟨i, hi, rfl⟩)
        · exact ⟨j, .inl rfl, hkj⟩
        · exact ⟨i, .inr hi, hk i hi⟩
      · rintro ⟨i, rfl | hi, rfl⟩
        · exact .inl hkj
        · exact .inr ⟨i, hi, (hk i hi).symm⟩
    · rw [hc'.ringAt_setQueue hjm hkj, hring]

/-- A key with an empty queue need not be active. -/
theorem deactivate (h : d.Indexes active) (ha : active key) (hq : d.ringAt key = {}) :
    ∃ e, d.deactivate key = .ok e ∧ e.ringAt = d.ringAt ∧
      e.Indexes fun k => k ≠ key ∧ active k := by
  obtain ⟨path, hc, hp⟩ := h
  obtain ⟨j, hj, rfl⟩ := (hp key).mp ha
  obtain ⟨e, path', hd, hc', hmem, hsame⟩ := hc.deactivate hj rfl
  have hke : ∀ k ∈ path', (e.entry k).key = (d.entry k).key := fun k hk => by rw [hsame k hk]
  have hstay : ∀ l ∈ path, (d.entry l).key ≠ (d.entry j).key → l ∈ path' := fun l hl hn =>
    (hmem l).mpr ⟨fun e => hn (by rw [e]), hl⟩
  refine ⟨e, hd, hc'.ringAt_eq (fun k hk => ?_) fun k hn => ?_, path', hc', fun k => ?_⟩
  · rw [hke k hk, hc.ringAt_of_mem ((hmem k).mp hk).2, hsame k hk]
  · by_cases hkj : k = (d.entry j).key
    · rw [hkj, hq]
    · refine hc.ringAt_of_not fun l hl e => ?_
      have hl' := hstay l hl (e ▸ hkj)
      exact hn l hl' ((hke l hl').trans e)
  · simp only [hp k]
    constructor
    · rintro ⟨hkj, l, hl, rfl⟩
      have hl' := hstay l hl hkj
      exact ⟨l, hl', hke l hl'⟩
    · rintro ⟨l, hl, rfl⟩
      obtain ⟨hlj, hlp⟩ := (hmem l).mp hl
      rw [hke l hl]
      exact ⟨fun e => hlj (hc.key_inj hlp hj e), l, hlp, rfl⟩

theorem storeQueue (h : d.Indexes active) (hf : d.find? key = .ok (some i)) (queue : Ring) :
    ∃ e, d.storeQueue i key queue = .ok e ∧ e.ringAt = Function.update d.ringAt key queue ∧
      e.Indexes fun k => if k = key then queue ≠ {} else active k := by
  obtain ⟨hs, hr⟩ := h.setQueue hf queue
  have ha : active key := by
    by_contra ha
    rw [h.find?_none key ha] at hf
    cases hf
  by_cases hq : queue = {}
  · obtain ⟨e, hd, he, hi⟩ := hs.deactivate ha (by rw [hr, Function.update_self, hq])
    refine ⟨e, by simp [Directory.storeQueue, hq, Ring.isEmpty, ← hd], he.trans hr, ?_⟩
    have hact : (fun k => if k = key then queue ≠ {} else active k) = fun k =>
      k ≠ key ∧ active k := by
      funext k
      by_cases hk : k = key <;> simp [hk, hq]
    rw [hact]
    exact hi
  · refine ⟨d.setQueue i queue, ?_, hr, ?_⟩
    · have he : queue.isEmpty = false := by
        cases ht : queue.tail with
        | none => exact (hq (congrArg Ring.mk ht)).elim
        | some p => simp [Ring.isEmpty, ht]
      simp [Directory.storeQueue, he]
    · have hact : (fun k => if k = key then queue ≠ {} else active k) = active := by
        funext k
        by_cases hk : k = key <;> simp [hk, hq, ha]
      rw [hact]
      exact hs

end Indexes
end Nucleus.Directory
