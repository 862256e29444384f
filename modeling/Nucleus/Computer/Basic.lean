import Nucleus.Clock
import Nucleus.Journal.Event
import Nucleus.Machine.Block
import Nucleus.Process.Family
import Nucleus.Semaphore.Store

/-!
# The nucleus and its surroundings

`Kernel` is everything the nucleus remembers between two entries: the processes, the directory of
semaphores, its own semaphores with the completions nobody has waited for yet, the ready queue, the
running process and two counts. A `Computer` is a kernel on a machine with a journal. Every entry
maps a computer to a dispatch, which says where control goes, and the computer afterwards; a fault
stands for a broken rule of the nucleus and is no answer.
-/
namespace Nucleus

/-- Why the nucleus gave up. -/
inductive PanicReason
  /-- processes remain but nothing can ever wake any of them -/
  | deadlock (live : Nat)
  /-- an exception other than an interrupt arrived while no process was running -/
  | noCurrentProcess (code : Word)
deriving DecidableEq

/-- Where control goes when the nucleus is left. -/
inductive Dispatch
  /-- load a saved state -/
  | load (s : SavedState)
  /-- enter the support level -/
  | loadContext (c : HandlerContext)
  /-- idle until an interrupt -/
  | wait
  /-- stop: no process is left -/
  | halt
  /-- stop: something is wrong -/
  | panic (r : PanicReason)
deriving DecidableEq

/-- The state being loaded, if any. -/
def Dispatch.state? : Dispatch → Option SavedState
  | load s => some s
  | _ => none

/-- What the nucleus remembers between entries. -/
structure Kernel where
  store : Store := .empty
  /-- Integers of the nucleus's own semaphores. -/
  channels : Vector Int32 channelCount := .replicate channelCount 0
  /-- Status of a completion that arrived before anybody waited for it. -/
  banked : Vector Word channelCount := .replicate channelCount 0
  ready : Ring := {}
  /-- The running process. -/
  current : Option Handle := none
  processCount : Nat := 0
  /-- Processes waiting on the nucleus's own semaphores. -/
  softBlockCount : Nat := 0
  stopwatch : Stopwatch := {}
  timing : Timing := {}

/-- A kernel on a machine, and what it has reported. -/
structure Computer where
  kernel : Kernel
  machine : Machine
  journal : Journal := {}

namespace Kernel

/-- A kernel without processes. -/
def initial (timing : Timing) : Kernel := { timing }

def table (k : Kernel) : Table := k.store.table

def setTable (k : Kernel) (table : Table) : Kernel := { k with store := { k.store with table } }

def readyList (k : Kernel) : Except Fault (List Handle) := k.ready.toList k.table .queue

/-- Integer of a nucleus semaphore, by index. -/
def channelValue? (k : Kernel) (i : Nat) : Option Int32 := k.channels[i]?

/-- Puts a process, which is in no queue, at the end of the ready queue. -/
def makeReady (k : Kernel) (p : Handle) : Except Fault Kernel := do
  let (ready, table) ← k.ready.insert k.table .queue p
  let table ← table.modify p ({ · with location := .ready })
  return { k.setTable table with ready }

end Kernel

/-- `n` less `k`, for counts that hold at least `k`. -/
def lower (n k : Nat) : Except Fault Nat :=
  if k ≤ n then return n - k else throw .belowZero

namespace Computer

def note (s : Computer) (e : Event) : Computer := { s with journal := s.journal.note e }

def count (s : Computer) (f : Counters → Counters) : Computer :=
  { s with journal := s.journal.count f }

def process (s : Computer) (p : Handle) : Except Fault Descriptor := s.kernel.table.slot p

/-- Changes the descriptor of a process known to be live. -/
def modifyProcess (s : Computer) (p : Handle) (f : Descriptor → Descriptor) :
    Except Fault Computer := do
  let table ← s.kernel.table.modify p f
  return { s with kernel := s.kernel.setTable table }

def makeReady (s : Computer) (p : Handle) : Except Fault Computer := do
  return { s with kernel := ← s.kernel.makeReady p }

/-- The semaphore integers: the kernel's table and the machine's memory. -/
def cells (s : Computer) : NucleusCells := ⟨s.kernel.channels, s.machine⟩

def setCells (s : Computer) (c : NucleusCells) : Computer :=
  { s with kernel := { s.kernel with channels := c.channels }, machine := c.machine }

def setStore (s : Computer) (store : Store) : Computer :=
  { s with kernel := { s.kernel with store } }

/-- P on behalf of `p`; says whether `p` was blocked. -/
def wait (s : Computer) (key : SemKey) (p : Handle) :
    Except Fault (Except ServiceError Bool × Computer) := do
  let (blocked, store, cells) ← s.kernel.store.wait s.cells key p
  return (blocked, (s.setCells cells).setStore store)

/-- V; the process that was woken, if any, is made ready. -/
def signal (s : Computer) (key : SemKey) : Except Fault (Option Handle × Computer) := do
  let (woken, store, cells) ← s.kernel.store.signal s.cells key
  let s := (s.setCells cells).setStore store
  match woken with
  | none => return (none, s)
  | some p => return (some p, ← s.makeReady p)

/-- Charges the running process, if any, with the time since the stopwatch was started, and starts
the stopwatch again. -/
def charge (s : Computer) : Except Fault Computer := do
  let (used, stopwatch) := s.kernel.stopwatch.lap s.machine
  let s := { s with kernel := { s.kernel with stopwatch } }
  match s.kernel.current with
  | none => return s
  | some p => s.modifyProcess p fun d => { d with cpuTime := d.cpuTime + used }

end Computer

end Nucleus
