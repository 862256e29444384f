import Nucleus.Computer.Interrupt
import Nucleus.Computer.Service

/-!
# Entries

The nucleus is entered at its start and by exceptions afterwards. Between two entries the machine
may change in any way: programs run, devices work, clocks advance. `Reaches` follows a kernel
through any such sequence.
-/
namespace Nucleus

namespace Computer

def initial (timing : Timing) (machine : Machine) : Computer :=
  { kernel := .initial timing, machine }

/-- Starts the interval timer, creates a process without a parent, and schedules. -/
def start (s : Computer) (first : SavedState) : Except Fault (Dispatch × Computer) := do
  let s := { s with machine := s.machine.loadIntervalTimer s.kernel.timing.tick }
  match s.kernel.table.alloc with
  | none => (s.note (.bootRefused .noFreeProcess)).schedule
  | some (p, table) =>
    let table ← table.modify p ({ · with state := first })
    let kernel ← (s.kernel.setTable table).makeReady p
    let kernel := { kernel with processCount := kernel.processCount + 1 }
    let s := { s with kernel }.count fun c => { c with created := c.created.increment }
    (s.note (.booted p)).schedule

/-- Answers the exception that left the state `saved`. -/
def exception (s : Computer) (saved : SavedState) : Except Fault (Dispatch × Computer) :=
  match Route.ofCode saved.trapCode with
  | .interrupt => s.interrupt saved
  | .request => s.request saved
  | .passUp c => s.passUpOrDie c saved

end Computer

/-- A way into the nucleus. -/
inductive Entry
  | start (first : SavedState)
  | schedule
  | exception (saved : SavedState)

namespace Computer

def enter (s : Computer) : Entry → Except Fault (Dispatch × Computer)
  | .start first => s.start first
  | .schedule => s.schedule
  | .exception saved => s.exception saved

/-- The machine as it is found at the next entry. -/
def onMachine (s : Computer) (machine : Machine) : Computer := { s with machine }

/-- From a computer to a later state of it, by entries with arbitrary changes
of the machine before each. -/
inductive Reaches : Computer → Computer → Prop
  | refl (s : Computer) : Reaches s s
  | step {s t u : Computer} {d : Dispatch} (machine : Machine) (e : Entry) :
      Reaches s t → (t.onMachine machine).enter e = .ok (d, u) → Reaches s u

end Computer

end Nucleus
