import Nucleus.Device.Register
import Nucleus.Journal.Counter
import Nucleus.Journal.Level
import Nucleus.Request

/-!
# The journal

Everything the nucleus reports, as values: each event has a level, the part of the nucleus it comes
from and a message. The journal holds the counters and the events so far, the latest first; the
nucleus only ever adds to it and never reads it, so it has no influence on what the nucleus does.
-/
namespace Nucleus

def productName : String := "Pandos_R"

def productVersion : String := "0.1.0"

/-- Something worth a message. -/
inductive Event
  /-- the nucleus was brought up -/
  | broughtUp
  /-- the first process was started -/
  | booted (p : Handle)
  | bootRefused (e : ServiceError)
  | dispatched (p : Handle) (pc : Word)
  /-- nothing is left to run -/
  | halted
  | counted (c : Counter)
  /-- nothing is ready but `n` processes wait on the nucleus's own semaphores -/
  | idled (n : Nat)
  | deadlocked (n : Nat)
  | requested (p : Handle) (r : Request)
  | created (parent child : Handle)
  | creationRefused (p : Handle) (e : ServiceError)
  | badTarget (p : Handle) (target : Word)
  | terminated (p : Handle) (n : Nat)
  | blocked (p : Handle) (k : SemKey)
  | waitRefused (p : Handle) (e : ServiceError)
  | woken (caller p : Handle) (k : SemKey)
  | softBlocked (p : Handle) (k : SemKey)
  | passedUp (p : Handle) (c : ExceptionClass)
  /-- an exception with code `code` ended a process that has no support area -/
  | unsupported (p : Handle) (code : Word)
  | quantumExpired (p : Handle)
  | ticked (n : Nat)
  | deviceWoke (line device : Word) (p : Handle)
  /-- a device finished an operation before anybody waited for it -/
  | deviceBanked (line device : Word) (s : DeviceStatus)
deriving DecidableEq

namespace Event

def level : Event → Level
  | broughtUp | booted _ | halted => .info
  | bootRefused _ | deadlocked _ => .error
  | creationRefused .. | badTarget .. | waitRefused .. | unsupported .. => .warn
  | counted _ | created .. | terminated .. | blocked .. | woken .. | softBlocked .. => .debug
  | dispatched .. | idled _ | requested .. | passedUp .. | quantumExpired _ | ticked _
  | deviceWoke .. | deviceBanked .. => .trace

/-- The part of the nucleus an event comes from. -/
def target : Event → String
  | broughtUp | booted _ | bootRefused _ => "nucleus"
  | dispatched .. | halted | idled _ | deadlocked _ => "sched"
  | counted _ => "counters"
  | requested .. | created .. | creationRefused .. | badTarget .. | terminated .. | blocked ..
  | waitRefused .. | woken .. | softBlocked .. => "syscall"
  | passedUp .. | unsupported .. => "exception"
  | quantumExpired _ | ticked _ | deviceWoke .. | deviceBanked .. => "interrupt"

def message : Event → String
  | broughtUp => s!"{productName} v{productVersion} ready"
  | booted p => s!"boot: first process {p.text}"
  | bootRefused e => s!"boot: {e.message}"
  | dispatched p pc => s!"dispatch {p.text} pc={hexText pc}"
  | halted => "no processes left, halting"
  | counted c => s!"{c.name} = {c.value.toNat}"
  | idled n => s!"idle, {n} soft-blocked"
  | deadlocked n => s!"deadlock: {n} processes blocked"
  | requested p r => s!"{p.text} {r.name}"
  | created parent child => s!"{parent.text} created {child.text}"
  | creationRefused p e => s!"CREATEPROCESS from {p.text}: {e.message}"
  | badTarget p target => s!"TERMPROCESS from {p.text}: bad target {hexText target}"
  | terminated p n => s!"terminated {p.text} ({n} processes)"
  | blocked p k => s!"{p.text} blocked on {k.text}"
  | waitRefused p e => s!"PASSEREN from {p.text}: {e.message}"
  | woken caller p k => s!"{caller.text} woke {p.text} on {k.text}"
  | softBlocked p k => s!"{p.text} soft-blocked on {k.text}"
  | passedUp p c => s!"pass up {c.name} from {p.text}"
  | unsupported p code => s!"{p.text} has no support level, killing on exc {code.toNat}"
  | quantumExpired p => s!"quantum expired for {p.text}"
  | ticked n => s!"pseudo-clock tick, {n} woken"
  | deviceWoke line device p => s!"line {line.toNat} dev {device.toNat} woke {p.text}"
  | deviceBanked line device s =>
    s!"line {line.toNat} dev {device.toNat} completed ({s.name}), no waiter"

end Event

/-- Counters and the events so far, the latest first. -/
structure Journal where
  counters : Counters := {}
  events : List Event := []

namespace Journal

def note (j : Journal) (e : Event) : Journal := { j with events := e :: j.events }

def count (j : Journal) (f : Counters → Counters) : Journal := { j with counters := f j.counters }

/-- Reports every counter as an event. -/
def noteCounters (j : Journal) : Journal :=
  j.counters.toList.foldl (fun j c => j.note (.counted c)) j

end Journal

end Nucleus
