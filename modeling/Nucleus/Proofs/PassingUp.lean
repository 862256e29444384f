import Nucleus.Proofs.Ending
import Nucleus.Proofs.Machine.Block

/-!
# What passing up does

An exception that is neither an interrupt nor a request the nucleus serves goes to the support level
of the running process, when there is one. The support level finds the saved state in its area;
nothing else of the memory and nothing of the kernel has changed. A request from user mode is such
an exception whatever it asks for.
-/
namespace Nucleus

namespace Request
variable {saved : SavedState} {k : SemKey} {line device : Word} {receive : Bool}

end Request

namespace Computer
variable {s : Computer} {p : Handle} {d : Descriptor} {saved state : SavedState}
  {c : ExceptionClass}
variable {area : SupportArea}

end Computer

namespace SupportArea
variable {area : SupportArea} {c c' : ExceptionClass} {i j : Nat}

theorem toNat_index_lt (c : ExceptionClass) : c.index.toNat < 2 := by cases c <;> decide

theorem toNat_stateAddress (h : area.address.toNat + 4 + 140 * c.index.toNat < 2 ^ 32) :
    (area.stateAddress c).toNat = area.address.toNat + 4 + 140 * c.index.toNat := by
  cases c with
  | pageFault | general =>
    simp only [stateAddress, ExceptionClass.index, stateBytes, wordBytes,
      UInt32.toNat_add, UInt32.toNat_mul, UInt32.reduceToNat] at h ⊢
    omega

theorem toNat_contextAddress (h : area.address.toNat + 284 + 12 * c.index.toNat < 2 ^ 32) :
    (area.contextAddress c).toNat = area.address.toNat + 284 + 12 * c.index.toNat := by
  cases c with
  | pageFault | general =>
    simp only [contextAddress, ExceptionClass.index, stateBytes, contextBytes,
      wordBytes, UInt32.toNat_add, UInt32.toNat_mul, UInt32.reduceToNat] at h ⊢
    omega

theorem toNat_stateWord (h : area.address.toNat + 4 + 140 * c.index.toNat + 4 * i < 2 ^ 32) :
    (wordAt (area.stateAddress c) i).toNat = area.address.toNat + 4 +
      140 * c.index.toNat + 4 * i := by
  have hbase : (area.stateAddress c).toNat = area.address.toNat + 4 + 140 * c.index.toNat :=
    toNat_stateAddress (by omega)
  have hsize : UInt32.size = 2 ^ 32 := rfl
  rw [toNat_wordAt (by rw [hbase, hsize]; exact h), hbase]

theorem toNat_contextWord (h : area.address.toNat + 284 + 12 * c.index.toNat + 4 * i < 2 ^ 32) :
    (wordAt (area.contextAddress c) i).toNat = area.address.toNat + 284 +
      12 * c.index.toNat + 4 * i := by
  have hbase : (area.contextAddress c).toNat = area.address.toNat + 284 + 12 * c.index.toNat :=
    toNat_contextAddress (by omega)
  have hsize : UInt32.size = 2 ^ 32 := rfl
  rw [toNat_wordAt (by rw [hbase, hsize]; exact h), hbase]

/-- The two slots and the two contexts take 308 bytes with the word before them. They do not wrap
around and lie beside the device registers. -/
structure IsClear (area : SupportArea) : Prop where
  inside : area.address.toNat + 308 ≤ 2 ^ 32
  beside : area.address.toNat + 308 ≤ 0x10000054 ∨ 0x100002D4 ≤ area.address.toNat

theorem IsClear.toNat_stateWord (h : area.IsClear) (c : ExceptionClass) (hi : i < stateWords) :
    (wordAt (area.stateAddress c) i).toNat = area.address.toNat + 4 +
      140 * c.index.toNat + 4 * i := by
  have hs := h.inside
  have hc := toNat_index_lt c
  have hw : i < 35 := hi
  exact SupportArea.toNat_stateWord (by omega)

theorem IsClear.toNat_contextWord (h : area.IsClear) (c : ExceptionClass) (hi : i < 3) :
    (wordAt (area.contextAddress c) i).toNat = area.address.toNat + 284 +
      12 * c.index.toNat + 4 * i := by
  have hs := h.inside
  have hc := toNat_index_lt c
  exact SupportArea.toNat_contextWord (by omega)

end SupportArea

namespace Computer
variable {s : Computer} {p : Handle} {d : Descriptor} {saved state : SavedState}
  {c : ExceptionClass}
variable {area : SupportArea}

end Computer

namespace Computer

end Computer

end Nucleus
