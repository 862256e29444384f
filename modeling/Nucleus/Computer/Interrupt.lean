import Nucleus.Computer.Scheduler

/-!
# Interrupts

Lines are served by number, the lowest pending one first, and only one line per entry; what is still
pending interrupts again. Line 0 has nothing to do on a single processor, line 1 ends a time slice,
line 2 is a tick of the pseudo-clock, and lines 3 to 7 report finished device operations.
-/
namespace Nucleus.Computer

/-- End of a time slice: the running process goes to the end of the ready queue. -/
def endSlice (s : Computer) (saved : SavedState) : Except Fault (Dispatch × Computer) := do
  match s.kernel.current with
  | none => s.schedule
  | some p =>
    let s ← s.charge
    let s ← s.modifyProcess p ({ · with state := saved })
    let s ← s.makeReady p
    let s := { s with kernel := { s.kernel with current := none } }.count fun c =>
      { c with preemptions := c.preemptions.increment }
    (s.note (.quantumExpired p)).schedule

/-- Tick of the pseudo-clock: everybody waiting for it is made ready. -/
def clockTick (s : Computer) (saved : SavedState) : Except Fault (Dispatch × Computer) := do
  let s := { s with machine := s.machine.loadIntervalTimer s.kernel.timing.tick }
  let (woken, store, cells) ← s.kernel.store.broadcast s.cells Channel.clock.key
  let s ← woken.foldlM makeReady ((s.setCells cells).setStore store)
  let softBlockCount ← lower s.kernel.softBlockCount woken.length
  let s := { s with kernel := { s.kernel with softBlockCount } }.count fun c =>
    { c with ticks := c.ticks.increment }
  (s.note (.ticked woken.length)).resumeOrSchedule saved

/-- A finished operation as the device shows it: its status, whether it is a terminal's receiver
that reports it, and the word of the register block that acknowledges it. A terminal's transmitter
goes before its receiver. -/
def completion (line : Word) (r : DeviceRegister) : Word × Bool × Word :=
  if line ≠ Bus.terminalLine then (r.status, false, DeviceRegister.commandWord)
  else if r.transmitPending then (r.transmitStatus, false, DeviceRegister.transmitCommandWord)
  else (r.receiveStatus, true, DeviceRegister.commandWord)

/-- Acknowledges the finished operation of a device and gives its status to the first process
waiting for it; when nobody waits, the status is kept for the next one that does. -/
def serveDevice (s : Computer) (line device : Word) : Except Fault Computer := do
  let (status, receive, word) := completion line (s.machine.device line device)
  let machine := s.machine.writeDevice line device word DeviceRegister.acknowledge
  let s := { s with machine }.count fun c =>
    { c with deviceInterrupts := c.deviceInterrupts.increment }
  match Channel.ofDevice? line device receive with
  | .error _ => return s
  | .ok c =>
    match ← s.signal c.key with
    | (some p, s) =>
      let softBlockCount ← lower s.kernel.softBlockCount 1
      let s ← { s with kernel := { s.kernel with softBlockCount } }.modifyProcess p fun d =>
        { d with state := d.state.setV0 status }
      return s.note (.deviceWoke line device p)
    | (none, s) =>
      if 0 < s.kernel.channels.get c then
        let s :=
          { s with kernel := { s.kernel with banked := s.kernel.banked.set c status c.isLt } }
        return s.note (.deviceBanked line device (.ofWord status))
      else
        return s

/-- Devices of a line that are pending, by number. -/
def pendingDevices (m : Machine) (line : Word) : List Word :=
  ((List.range 8).filter (m.bitmap line).toNat.testBit).map UInt32.ofNat

/-- Serves every device of a line that is pending when the interrupt is taken. -/
def deviceInterrupt (s : Computer) (line : Word) (saved : SavedState) :
    Except Fault (Dispatch × Computer) := do
  let s ← (pendingDevices s.machine line).foldlM (·.serveDevice line ·) s
  s.resumeOrSchedule saved

/-- The line an interrupt is served on: the lowest pending one, line 0 apart. -/
def servedLine? (saved : SavedState) : Option Nat := [1, 2, 3, 4, 5, 6, 7].find? saved.isPending

/-- Answers an interrupt. -/
def interrupt (s : Computer) (saved : SavedState) : Except Fault (Dispatch × Computer) :=
  match servedLine? saved with
  | none => s.resumeOrSchedule saved
  | some line =>
    if line = Bus.timerLine then s.endSlice saved
    else if line = Bus.intervalLine then s.clockTick saved
    else s.deviceInterrupt (UInt32.ofNat line) saved

end Nucleus.Computer
