import Nucleus.Word

/-!
# Device register blocks

A device shows four words: status, command and two of data. A terminal shows two channels in the
same four words, the receiver first. Only the low byte of a status counts; a status other than
not-installed, ready or busy reports a finished operation.
-/
namespace Nucleus

/-- What the low byte of a status word says. -/
inductive DeviceStatus
  | notInstalled
  | ready
  | illegalOperation
  | busy
  | other
deriving DecidableEq, Repr

namespace DeviceStatus

def ofWord (w : Word) : DeviceStatus :=
  match (w &&& 0xFF).toNat with
  | 0 => notInstalled
  | 1 => ready
  | 2 => illegalOperation
  | 3 => busy
  | _ => other

def name : DeviceStatus → String
  | notInstalled => "not-installed"
  | ready => "ready"
  | illegalOperation => "illegal-op"
  | busy => "busy"
  | other => "other"

/-- Does the status report an operation that has finished, well or badly? -/
def isCompletion : DeviceStatus → Bool
  | notInstalled | ready | busy => false
  | illegalOperation | other => true

/-- The status word of an idle device. -/
def readyWord : Word := 1

end DeviceStatus

/-- The four words of a device register block. -/
structure DeviceRegister where
  status : Word := 0
  command : Word := 0
  data0 : Word := 0
  data1 : Word := 0
deriving DecidableEq, Repr

namespace DeviceRegister

/-- Positions of the words in a block. -/
def statusWord : Word := 0
def commandWord : Word := 1
def data0Word : Word := 2
def data1Word : Word := 3

/-- Position of a terminal's transmitter status and command. -/
def transmitStatusWord : Word := 2
def transmitCommandWord : Word := 3

/-- Command that acknowledges a finished operation. -/
def acknowledge : Word := 1

def receiveStatus (r : DeviceRegister) : Word := r.status

def transmitStatus (r : DeviceRegister) : Word := r.data0

/-- Has a terminal's receiver a finished operation to acknowledge? -/
def receivePending (r : DeviceRegister) : Bool := (DeviceStatus.ofWord r.receiveStatus).isCompletion

/-- Has a terminal's transmitter a finished operation to acknowledge? -/
def transmitPending (r : DeviceRegister) : Bool :=
  (DeviceStatus.ofWord r.transmitStatus).isCompletion

end DeviceRegister

end Nucleus
