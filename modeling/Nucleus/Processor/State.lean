import Nucleus.Word

/-!
# Saved processor states

What the processor leaves behind when it enters the nucleus, and what the nucleus loads to give
control away: four special words and 31 general registers. In memory a state is a block of 35
words in the order EntryHi, Cause, Status, PC, registers; `word` and `ofWords` are the two
directions of that layout and `word_ofWords` says that they agree.
-/
namespace Nucleus

/-- General registers kept in a saved state. -/
abbrev registerCount : Nat := 31

/-- Words of a saved state in memory. -/
abbrev stateWords : Nat := 4 + registerCount

/-- Index of a general register. -/
abbrev Register := Fin registerCount

namespace Register

/-- First result register. -/
def v0 : Register := 1
/-- Second result register. -/
def v1 : Register := 2
/-- First argument register: the number of the requested service. -/
def a0 : Register := 3
def a1 : Register := 4
def a2 : Register := 5
def a3 : Register := 6

end Register

/-- Saved processor state; a fresh one is all zeros. -/
structure SavedState where
  entryHi : Word := 0
  cause : Word := 0
  status : Word := 0
  pc : Word := 0
  registers : Vector Word registerCount := Vector.replicate registerCount 0
deriving DecidableEq

/-- The three words the support level supplies for each class of exception passed up to it. -/
structure HandlerContext where
  stackPointer : Word
  status : Word
  pc : Word
deriving DecidableEq

namespace SavedState

/-- Word `i` of the state in memory order. -/
def word (s : SavedState) (i : Fin stateWords) : Word :=
  match h : i.val with
  | 0 => s.entryHi
  | 1 => s.cause
  | 2 => s.status
  | 3 => s.pc
  | n + 4 =>
    have hn : n < registerCount := by have := i.isLt; simp only [stateWords] at this; omega
    s.registers[n]

/-- The state with word `i`, in memory order, replaced. -/
def setWord (s : SavedState) (i : Fin stateWords) (w : Word) : SavedState :=
  match h : i.val with
  | 0 => { s with entryHi := w }
  | 1 => { s with cause := w }
  | 2 => { s with status := w }
  | 3 => { s with pc := w }
  | n + 4 =>
    have hn : n < registerCount := by have := i.isLt; simp only [stateWords] at this; omega
    { s with registers := s.registers.set n w }

/-- Word `i`, when a state has that many words. -/
def word? (s : SavedState) (i : Nat) : Option Word :=
  if h : i < stateWords then some (s.word ⟨i, h⟩) else none

def setWord? (s : SavedState) (i : Nat) (w : Word) : Option SavedState :=
  if h : i < stateWords then some (s.setWord ⟨i, h⟩ w) else none

/-- The state whose words in memory order are given by `f`. -/
def ofWords (f : Fin stateWords → Word) : SavedState where
  entryHi := f ⟨0, by decide⟩
  cause := f ⟨1, by decide⟩
  status := f ⟨2, by decide⟩
  pc := f ⟨3, by decide⟩
  registers := Vector.ofFn fun i => f ⟨i.val + 4, by have := i.isLt; simp only [stateWords]; omega⟩

@[simp] theorem word_ofWords (f : Fin stateWords → Word) (i : Fin stateWords) :
    (ofWords f).word i = f i := by
  obtain ⟨i, hi⟩ := i
  match i with
  | 0 | 1 | 2 | 3 => rfl
  | n + 4 => simp [word, ofWords]

def register (s : SavedState) (r : Register) : Word := s.registers[r]

def setRegister (s : SavedState) (r : Register) (w : Word) : SavedState :=
  { s with registers := s.registers.set r w }

def setV0 (s : SavedState) (w : Word) : SavedState := s.setRegister .v0 w

def setV1 (s : SavedState) (w : Word) : SavedState := s.setRegister .v1 w

theorem register_setRegister (s : SavedState) (r q : Register) (w : Word) :
    (s.setRegister r w).register q = if q = r then w else s.register q := by
  simp only [register, setRegister, Fin.getElem_fin, Vector.getElem_set, Fin.ext_iff, eq_comm]

/-- Bits of Cause that hold the exception code. -/
def codeMask : Word := 0x7C

/-- The exception code in Cause. -/
def trapCode (s : SavedState) : Word := (s.cause &&& codeMask) >>> 2

/-- The state with the exception code in Cause replaced, the rest of Cause kept. -/
def setTrapCode (s : SavedState) (code : Word) : SavedState :=
  { s with cause := (s.cause &&& ~~~codeMask) ||| ((code <<< 2) &&& codeMask) }

/-- Interrupt lines pending in Cause: bit `n` stands for line `n`. -/
def pendingLines (s : SavedState) : UInt8 := (s.cause >>> 8).toUInt8

def isPending (s : SavedState) (line : Nat) : Bool := s.pendingLines.toNat.testBit line

/-- Was the processor in user mode when it left this state? -/
def wasUserMode (s : SavedState) : Bool := s.status &&& 0x8 != 0

/-- The state that resumes after the instruction it stopped at. -/
def pastInstruction (s : SavedState) : SavedState := { s with pc := s.pc + wordBytes }

end SavedState

end Nucleus
