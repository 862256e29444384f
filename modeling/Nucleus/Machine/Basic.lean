import Nucleus.Device.Bus
import Nucleus.Device.Register
import Nucleus.Machine.Memory
import Nucleus.Processor.State

/-!
# The machine

What the nucleus sees of the hardware: a bus on which every address holds a word, and the
processor's local timer. Memory, clock registers, pending bitmaps and device registers all lie on
the bus. Storing the acknowledge command in the command word of a device has a side effect: the
device goes back to ready and its pending bit is cleared, for a terminal only when neither of its
channels has another completion to report. Every other store changes the stored word alone
(`read_write_of_ne`).
-/
namespace Nucleus

/-- Bus and local timer. -/
structure Machine where
  memory : Memory
  /-- The last value loaded into the local timer, in microseconds. -/
  localTimer : Word

namespace Machine

/-- A machine at power-up: everything is zero except the time scale. -/
def initial : Machine where
  memory := Memory.zero.set Bus.timeScale 1
  localTimer := 0

def read (m : Machine) (address : Word) : Word := m.memory.get address

theorem read_congr {m m' : Machine} (h : m'.memory = m.memory) (a : Word) : m'.read a = m.read a :=
  congrArg (·.get a) h

/-- Replaces a word on the bus without any side effect. -/
def poke (m : Machine) (address value : Word) : Machine :=
  { m with memory := m.memory.set address value }

@[simp] theorem read_poke (m : Machine) (a b v : Word) :
    (m.poke a v).read b = if b = a then v else m.read b := m.memory.get_set a v b

@[simp] theorem localTimer_poke (m : Machine) (a v : Word) :
    (m.poke a v).localTimer = m.localTimer := rfl

/-- Equal words at every address and equal timers make equal machines. -/
theorem ext_read {m m' : Machine} (h : ∀ a, m.read a = m'.read a)
    (ht : m.localTimer = m'.localTimer) : m = m' := by
  cases m
  cases m'
  cases ht
  exact congrArg (Machine.mk · _) (Memory.ext h)

theorem poke_read (m : Machine) (a : Word) : m.poke a (m.read a) = m := by
  refine ext_read (fun b => ?_) rfl
  rw [read_poke]
  split
  · next h => rw [h]
  · rfl

theorem poke_poke (m : Machine) (a v w : Word) : (m.poke a v).poke a w = m.poke a w := by
  refine ext_read (fun b => ?_) rfl
  simp only [read_poke]
  split <;> rfl

def device (m : Machine) (line dev : Word) : DeviceRegister :=
  let base := Bus.blockAddress line dev
  { status := m.read (base + wordBytes * DeviceRegister.statusWord)
    command := m.read (base + wordBytes * DeviceRegister.commandWord)
    data0 := m.read (base + wordBytes * DeviceRegister.data0Word)
    data1 := m.read (base + wordBytes * DeviceRegister.data1Word) }

/-- Pending devices of a line: bit `n` stands for device `n`. -/
def bitmap (m : Machine) (line : Word) : UInt8 := (m.read (Bus.bitmapAddress line)).toUInt8

/-- Replaces a word of a device register block without any side effect. -/
def pokeDevice (m : Machine) (line dev word value : Word) : Machine :=
  m.poke (Bus.blockAddress line dev + wordBytes * word) value

def raisePending (m : Machine) (line dev : Word) : Machine :=
  let a := Bus.bitmapAddress line
  m.poke a (m.read a ||| (1 <<< dev))

def clearPending (m : Machine) (line dev : Word) : Machine :=
  let a := Bus.bitmapAddress line
  m.poke a (m.read a &&& ~~~(1 <<< dev))

/-- What a device does when the acknowledge command reaches word `word` of its register block. -/
def acknowledge (m : Machine) (line dev word : Word) : Machine :=
  if line = Bus.terminalLine then
    if word = DeviceRegister.commandWord then
      settle (m.pokeDevice line dev DeviceRegister.statusWord DeviceStatus.readyWord) line dev
    else if word = DeviceRegister.transmitCommandWord then
      settle (m.pokeDevice line dev DeviceRegister.transmitStatusWord DeviceStatus.readyWord)
        line dev
    else m
  else if word = DeviceRegister.commandWord then
    (m.pokeDevice line dev DeviceRegister.statusWord DeviceStatus.readyWord).clearPending line dev
  else m
where
  /-- Clears a terminal's pending bit once neither channel has a completion to report. -/
  settle (m : Machine) (line dev : Word) : Machine :=
    let r := m.device line dev
    if r.receivePending || r.transmitPending then m else m.clearPending line dev

/-- Stores a word on the bus, with the side effect of an acknowledge command. -/
def write (m : Machine) (address value : Word) : Machine :=
  let m := m.poke address value
  if value = DeviceRegister.acknowledge then
    match Bus.locate? address with
    | some (line, dev, word) => m.acknowledge line dev word
    | none => m
  else m

/-- Stores a word in a device register block, with the side effect of an acknowledge command. -/
def writeDevice (m : Machine) (line dev word value : Word) : Machine :=
  m.write (Bus.blockAddress line dev + wordBytes * word) value

theorem write_of_locate?_eq_none {m : Machine} {a v : Word} (h : Bus.locate? a = none) :
    m.write a v = m.poke a v := by
  simp [write, h]

/-- A finished operation of a device, or of a terminal's receiver: its status and pending bit. -/
def raise (m : Machine) (line dev status : Word) : Machine :=
  (m.pokeDevice line dev DeviceRegister.statusWord status).raisePending line dev

/-- A finished operation of a terminal's transmitter. -/
def raiseTransmit (m : Machine) (dev status : Word) : Machine :=
  (m.pokeDevice Bus.terminalLine dev DeviceRegister.transmitStatusWord status).raisePending
    Bus.terminalLine dev

/-- Ticks per microsecond; a scale of zero counts as one. -/
def timeScale (m : Machine) : Word := max (m.read Bus.timeScale) 1

/-- Time of day in ticks, low word. -/
def ticks (m : Machine) : Word := m.read Bus.timeOfDay

def intervalTimer (m : Machine) : Word := m.read Bus.intervalTimer

def setTimeScale (m : Machine) (scale : Word) : Machine := m.poke Bus.timeScale scale

def setTicks (m : Machine) (ticks : Word) : Machine := m.poke Bus.timeOfDay ticks

def setTime (m : Machine) (micros : Word) : Machine := m.setTicks (micros * m.timeScale)

def advance (m : Machine) (micros : Word) : Machine :=
  m.setTicks (m.ticks + micros * m.timeScale)

/-- Loads the local timer, in microseconds. -/
def loadLocalTimer (m : Machine) (micros : Word) : Machine := { m with localTimer := micros }

/-- Loads the interval timer with a time in microseconds, as many ticks as fit. -/
def loadIntervalTimer (m : Machine) (micros : Word) : Machine :=
  m.write Bus.intervalTimer (saturatingMul micros m.timeScale)

end Machine

end Nucleus
