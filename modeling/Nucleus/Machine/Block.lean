import Nucleus.Machine.Basic

/-!
# States and contexts in memory

A saved state takes 35 consecutive words and a handler context takes three. A state is read and
written word by word in memory order, each store being an ordinary bus store.
-/
namespace Nucleus.Machine

def readState (m : Machine) (address : Word) : SavedState :=
  SavedState.ofWords fun i => m.read (wordAt address i.val)

def writeState (m : Machine) (address : Word) (s : SavedState) : Machine :=
  (List.finRange stateWords).foldl (fun m i => m.write (wordAt address i.val) (s.word i)) m

def readContext (m : Machine) (address : Word) : HandlerContext where
  stackPointer := m.read (wordAt address 0)
  status := m.read (wordAt address 1)
  pc := m.read (wordAt address 2)

end Nucleus.Machine
