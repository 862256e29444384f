import Nucleus.Processor.Trap

/-!
# Support areas

A process may come with the address of an area in its support level's memory. The area holds, after
one word of its own, a state slot for each class of exception and then a handler context for each
class. Address zero means that there is no area.
-/
namespace Nucleus

/-- A support area, named by its address. -/
structure SupportArea where
  address : Word
  address_ne_zero : address ≠ 0
deriving DecidableEq

namespace SupportArea

/-- The area at an address; there is none at zero. -/
def ofWord? (w : Word) : Option SupportArea :=
  if h : w ≠ 0 then some ⟨w, h⟩ else none

/-- The word that names an optional area: its address, or zero. -/
def toWord : Option SupportArea → Word
  | some a => a.address
  | none => 0

@[simp] theorem toWord_ofWord? (w : Word) : toWord (ofWord? w) = w := by
  unfold ofWord?
  split
  · rfl
  · next h => simp only [ne_eq, Decidable.not_not] at h; simp [toWord, h]

@[simp] theorem ofWord?_toWord (a : Option SupportArea) : ofWord? (toWord a) = a := by
  cases a with
  | none => rfl
  | some a => simp [toWord, ofWord?, a.address_ne_zero]

def stateBytes : Word := 140

def contextBytes : Word := 12

/-- Where the saved state of an exception of class `c` goes. -/
def stateAddress (a : SupportArea) (c : ExceptionClass) : Word :=
  a.address + wordBytes + c.index * stateBytes

/-- Where the handler context of class `c` is read. -/
def contextAddress (a : SupportArea) (c : ExceptionClass) : Word :=
  a.address + wordBytes + 2 * stateBytes + c.index * contextBytes

end SupportArea

end Nucleus
