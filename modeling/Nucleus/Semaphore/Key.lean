import Nucleus.Word

/-!
# Semaphore keys

A semaphore is known by the physical address of its integer. Every word is a key; only a non-zero,
word-aligned one may be named by a program.
-/
namespace Nucleus

/-- The address that names a semaphore. -/
structure SemKey where
  address : Word
deriving DecidableEq, Repr

namespace SemKey

/-- Key of the lower end of the directory. -/
def lowest : SemKey := ⟨0⟩

/-- Key of the upper end of the directory. -/
def highest : SemKey := ⟨0xFFFFFFFF⟩

/-- May a program name this semaphore? -/
def isValid (k : SemKey) : Bool := k.address != 0 && k.address % wordBytes == 0

def text (k : SemKey) : String := paddedHexText k.address

end SemKey

end Nucleus
