import Nucleus.Device.Channel
import Nucleus.Process.Handle
import Nucleus.Processor.Support

/-!
# Service requests

A program asks for a service with its number in the first argument register and the arguments in the
next three. There are eight services; any other number is not a request to the nucleus. A request
whose arguments name no possible semaphore or device is ill-formed, and the nucleus does not serve
it.
-/
namespace Nucleus

/-- A request for a nucleus service. -/
inductive Request
  /-- start a process from the state in memory at `state`, with a support area -/
  | createProcess (state : Word) (support : Option SupportArea)
  /-- end a process and everything below it: the caller when `target` is zero -/
  | terminateProcess (target : Word)
  /-- take a unit from a semaphore -/
  | passeren (key : SemKey)
  /-- give a unit to a semaphore -/
  | verhogen (key : SemKey)
  /-- wait for a device to finish an operation -/
  | waitDevice (line device : Word) (receive : Bool)
  /-- how much processor time the caller has used -/
  | cpuTime
  /-- wait for the next tick of the pseudo-clock -/
  | waitClock
  /-- the support area of the caller -/
  | supportArea
deriving DecidableEq

namespace Request

/-- The request a saved state makes, if its first argument register
holds the number of a service. -/
def ofState? (s : SavedState) : Option Request :=
  let a1 := s.register .a1
  let a2 := s.register .a2
  match (s.register .a0).toNat with
  | 1 => some (.createProcess a1 (SupportArea.ofWord? a2))
  | 2 => some (.terminateProcess a1)
  | 3 => some (.passeren ⟨a1⟩)
  | 4 => some (.verhogen ⟨a1⟩)
  | 5 => some (.waitDevice a1 a2 (s.register .a3 != 0))
  | 6 => some .cpuTime
  | 7 => some .waitClock
  | 8 => some .supportArea
  | _ => none

/-- May a program use P and V on the semaphore? It must be a possible one
and none of the nucleus's own. -/
def isUserKey (k : SemKey) : Bool := k.isValid && (Channel.slot? k).isNone

/-- Can the nucleus act on the arguments? -/
def isWellFormed : Request → Bool
  | passeren k | verhogen k => isUserKey k
  | waitDevice line device receive => (Channel.ofDevice? line device receive).isOk
  | _ => true

def name : Request → String
  | createProcess .. => "CREATEPROCESS"
  | terminateProcess _ => "TERMPROCESS"
  | passeren _ => "PASSEREN"
  | verhogen _ => "VERHOGEN"
  | waitDevice .. => "WAITIO"
  | cpuTime => "GETCPUTIME"
  | waitClock => "WAITCLOCK"
  | supportArea => "GETSUPPORTPTR"

end Request

end Nucleus
