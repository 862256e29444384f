import Nucleus.Word
import Std.Data.ExtTreeMap

/-!
# Memory

A word at every address. Most words are zero and stay so, and only the others are kept, in an
ordered map; as none of the words it holds is zero, memories with the same words are equal.
-/
namespace Nucleus

structure Memory where
  words : Std.ExtTreeMap Word Word
  nonzero : ∀ a : Word, words[a]? ≠ some 0

namespace Memory
variable {m m' : Memory}

def zero : Memory where
  words := ∅
  nonzero a := by simp

def get (m : Memory) (a : Word) : Word := m.words[a]?.getD 0

@[ext] theorem ext (h : ∀ a, m.get a = m'.get a) : m = m' := by
  have hwords : m.words = m'.words := by
    refine Std.ExtTreeMap.ext_getElem? fun a => ?_
    have ha : m.words[a]?.getD 0 = m'.words[a]?.getD 0 := h a
    have hm := m.nonzero a
    have hm' := m'.nonzero a
    cases hx : m.words[a]? <;> cases hy : m'.words[a]? <;> simp_all
  cases m
  cases m'
  cases hwords
  rfl

def set (m : Memory) (a v : Word) : Memory where
  words := if v = 0 then m.words.erase a else m.words.insert a v
  nonzero b := by
    have hb := m.nonzero b
    split
    · rw [Std.ExtTreeMap.getElem?_erase]
      split
      · simp
      · exact hb
    · next hv =>
      rw [Std.ExtTreeMap.getElem?_insert]
      split
      · exact fun h => hv (Option.some.inj h)
      · exact hb

theorem get_set (m : Memory) (a v b : Word) : (m.set a v).get b = if b = a then v else m.get b := by
  have hcompare : compare a b = .eq ↔ b = a := Std.LawfulEqCmp.compare_eq_iff_eq.trans eq_comm
  unfold set get
  split
  · next hv =>
    simp only [Std.ExtTreeMap.getElem?_erase, hcompare]
    split
    · exact hv.symm
    · rfl
  · simp only [Std.ExtTreeMap.getElem?_insert, hcompare]
    split <;> rfl

end Memory

end Nucleus
