import Nucleus.Process.Handle

/-!
# The account of a semaphore

A semaphore by itself is an integer and a queue. A process takes a unit, a unit is given, or waiting
processes end; where units are owed to them, those come back. The account of a semaphore says what
its integer and its queue are after so many units taken, given and lost, as long as the integer does
not overflow.
-/
namespace Nucleus

structure Semaphore where
  value : Int32
  waiters : List Handle

namespace Semaphore

def take (s : Semaphore) (p : Handle) : Semaphore where
  value := s.value - 1
  waiters := if 0 ≤ s.value - 1 then s.waiters else s.waiters ++ [p]

def give (s : Semaphore) : Semaphore where
  value := s.value + 1
  waiters := if s.value + 1 ≤ 0 then s.waiters.tail else s.waiters

def lose (s : Semaphore) (owed : Bool) (dead : Handle → Bool) : Semaphore where
  value := if owed then s.value + Int32.ofNat (s.waiters.countP dead) else s.value
  waiters := s.waiters.filter (!dead ·)

/-- One step, with the units it takes, gives and loses. -/
inductive Step (owed : Bool) : Nat → Nat → Nat → Semaphore → Semaphore → Prop
  | take (s : Semaphore) (p : Handle) : Step owed 1 0 0 s (s.take p)
  | give (s : Semaphore) : Step owed 0 1 0 s s.give
  | lose (s : Semaphore) (dead : Handle → Bool) :
      Step owed 0 0 (s.waiters.countP dead) s (s.lose owed dead)

structure Account (owed : Bool) (start : Int) (taken given lost : Nat) (s : Semaphore) : Prop where
  value : s.value.toInt = start + given - taken + if owed then lost else 0
  length_le : (s.waiters.length : Int) ≤ max 0 (-s.value.toInt)
  le_length : max 0 (-s.value.toInt) ≤ s.waiters.length + if owed then 0 else lost
  lost_le : lost + s.waiters.length ≤ taken

theorem toInt_sub_one {n : Int32} (h : -2147483648 < n.toInt) : (n - 1).toInt = n.toInt - 1 := by
  have hu := n.toInt_lt
  rw [Int32.toInt_sub, Int32.toInt_one]
  exact Int.bmod_eq_of_le (by omega) (by omega)

theorem zero_le_sub_one {n : Int32} (h : 0 < n.toInt) : 0 ≤ n - 1 := by
  rw [Int32.le_iff_toInt_le, toInt_sub_one (by omega), Int32.toInt_zero]
  omega

theorem toInt_add_ofNat {n : Int32} {k : Nat} (h : n.toInt + k < 2147483648) :
    (n + Int32.ofNat k).toInt = n.toInt + k := by
  have hl := n.le_toInt
  have hs : Int32.size = 4294967296 := rfl
  rw [Int32.toInt_add, Int32.toInt_ofNat', Int.add_bmod_bmod]
  exact Int.bmod_eq_of_le (by omega) (by omega)

theorem toInt_add_one {n : Int32} (h : n.toInt + 1 < 2147483648) : (n + 1).toInt = n.toInt + 1 :=
  toInt_add_ofNat (k := 1) h

theorem lose_congr {s : Semaphore} {owed : Bool} {dead dead' : Handle → Bool}
    (h : ∀ q ∈ s.waiters, dead q = dead' q) : s.lose owed dead = s.lose owed dead' := by
  have hcount : s.waiters.countP dead = s.waiters.countP dead' :=
    List.countP_congr fun q hq => by rw [h q hq]
  have hfilter : s.waiters.filter (!dead ·) = s.waiters.filter (!dead' ·) :=
    List.filter_congr fun q hq => by rw [h q hq]
  rw [lose, lose, hcount, hfilter]

theorem lose_none (s : Semaphore) (owed : Bool) : s.lose owed (fun _ => false) = s := by
  have hw : s.waiters.filter (fun _ => true) = s.waiters := List.filter_eq_self.mpr fun _ _ => rfl
  cases owed <;> simp [lose, hw]

theorem length_lose (s : Semaphore) (owed : Bool) (dead : Handle → Bool) :
    (s.lose owed dead).waiters.length + s.waiters.countP dead = s.waiters.length := by
  have hsplit := List.length_eq_countP_add_countP (l := s.waiters) dead
  rw [lose, ← List.countP_eq_length_filter, hsplit, Nat.add_comm]
  simp

variable {owed : Bool} {start : Int} {taken given lost t g l : Nat} {s s' : Semaphore}

theorem Account.take (h : Account owed start taken given lost s) (p : Handle)
    (hlow : -2147483648 < s.value.toInt) :
    Account owed start (taken + 1) given lost (s.take p) := by
  obtain ⟨hvalue, hle, hge, hlost⟩ := h
  have hsub := toInt_sub_one hlow
  by_cases hn : 0 ≤ s.value - 1
  · have hn' : 0 ≤ s.value.toInt - 1 := by simpa [Int32.le_iff_toInt_le, hsub] using hn
    constructor <;> simp only [Semaphore.take, hsub, hn, if_true] <;> omega
  · have hn' : ¬0 ≤ s.value.toInt - 1 := by simpa [Int32.le_iff_toInt_le, hsub] using hn
    constructor <;> simp only [Semaphore.take, hsub, hn, if_false, List.length_append,
      List.length_singleton] <;> omega

theorem Account.give (h : Account owed start taken given lost s)
    (hhigh : s.value.toInt + 1 < 2147483648) :
    Account owed start taken (given + 1) lost s.give := by
  obtain ⟨hvalue, hle, hge, hlost⟩ := h
  have hadd := toInt_add_one hhigh
  by_cases hn : s.value + 1 ≤ 0
  · have hn' : s.value.toInt + 1 ≤ 0 := by simpa [Int32.le_iff_toInt_le, hadd] using hn
    constructor <;> simp only [Semaphore.give, hadd, hn, if_true, List.length_tail] <;> omega
  · have hn' : ¬s.value.toInt + 1 ≤ 0 := by simpa [Int32.le_iff_toInt_le, hadd] using hn
    constructor <;> simp only [Semaphore.give, hadd, hn, if_false] <;> omega

theorem Account.lose (h : Account owed start taken given lost s) (dead : Handle → Bool)
    (hhigh : s.value.toInt + s.waiters.countP dead < 2147483648) :
    Account owed start taken given (lost + s.waiters.countP dead) (s.lose owed dead) := by
  obtain ⟨hvalue, hle, hge, hlost⟩ := h
  have hadd := toInt_add_ofNat hhigh
  have hlength := length_lose s owed dead
  cases owed
  · have hkept : (s.lose false dead).value.toInt = s.value.toInt := rfl
    simp only [Bool.false_eq_true, if_false] at hvalue hge
    refine ⟨?_, by omega, ?_, by omega⟩
    · simp only [Bool.false_eq_true, if_false]
      omega
    · simp only [Bool.false_eq_true, if_false]
      omega
  · have hback : (s.lose true dead).value.toInt = s.value.toInt + s.waiters.countP dead := hadd
    simp only [if_true] at hvalue hge
    refine ⟨?_, by omega, ?_, by omega⟩
    · simp only [if_true]
      omega
    · simp only [if_true]
      omega

theorem Step.waiters_cases (hs : Step owed t g l s s') :
    s'.waiters.Sublist s.waiters ∨ ∃ p, s'.waiters = s.waiters ++ [p] := by
  cases hs with
  | take _ p =>
    by_cases hn : 0 ≤ s.value - 1
    · simp [Semaphore.take, hn]
    · simp [Semaphore.take, hn]
  | give =>
    by_cases hn : s.value + 1 ≤ 0
    · simp [Semaphore.give, hn, List.tail_sublist]
    · simp [Semaphore.give, hn]
  | lose _ dead => exact .inl List.filter_sublist

theorem Step.eq_self (hs : Step owed 0 0 l s s') (hl : l = 0) : s' = s := by
  cases hs with
  | lose _ dead =>
    have hnone : ∀ q ∈ s.waiters, dead q = false := fun q hq => by
      simpa using List.countP_eq_zero.mp hl q hq
    rw [lose_congr hnone, lose_none]

theorem Step.eq_lose (hs : Step owed t g l s s') (hl : l ≠ 0) :
    t = 0 ∧ g = 0 ∧ ∃ dead, l = s.waiters.countP dead ∧ s' = s.lose owed dead := by
  cases hs with
  | take | give => exact (hl rfl).elim
  | lose _ dead => exact ⟨rfl, rfl, dead, rfl, rfl⟩

theorem Step.eq_take (hs : Step owed 1 g l s s') : ∃ p, s' = s.take p := by
  cases hs with
  | take _ p => exact ⟨p, rfl⟩

theorem Account.value_add_le (h : Account owed start taken given lost s)
    (hl : l ≤ s.waiters.length) : s.value.toInt + l ≤ start + given := by
  obtain ⟨hvalue, hle, hge, hlost⟩ := h
  cases owed
  · simp only [Bool.false_eq_true, if_false] at hvalue
    omega
  · simp only [if_true] at hvalue
    omega

theorem Account.neg_le_length (h : Account true start taken given lost s) :
    -s.value.toInt ≤ s.waiters.length := by
  have hge := h.le_length
  simp only [if_true] at hge
  omega

theorem Account.neg_le_taken (h : Account false start taken given lost s) (hstart : 0 ≤ start) :
    -s.value.toInt ≤ taken := by
  have hvalue := h.value
  simp only [Bool.false_eq_true, if_false] at hvalue
  omega

/-- Where processes wait, a unit that is given is owed to one of them. -/
theorem Account.add_one_nonpos (h : Account owed start taken given lost s) (hne : s.waiters ≠ []) :
    s.value + 1 ≤ 0 := by
  have hle := h.length_le
  have hpos := List.length_pos_iff.mpr hne
  have hadd := toInt_add_one (n := s.value) (by omega)
  rw [Int32.le_iff_toInt_le, hadd, Int32.toInt_zero]
  omega

/-- The account after one more step, where the integer has room for it. -/
theorem Account.step (h : Account owed start taken given lost s) (hs : Step owed t g l s s')
    (hlow : t = 0 ∨ -2147483648 < s.value.toInt) (hhigh : s.value.toInt + g + l < 2147483648) :
    Account owed start (taken + t) (given + g) (lost + l) s' := by
  cases hs with
  | take _ p => exact h.take p (by simpa using hlow)
  | give => exact h.give (by simpa using hhigh)
  | lose _ dead => exact h.lose dead (by simpa using hhigh)

end Semaphore

end Nucleus
