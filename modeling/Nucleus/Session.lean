import Nucleus.Computer.Entry

/-!
# A running program

One program runs one kernel for its whole life. The kernel comes into being at the first
initialisation, with the periods given there, or at the first entry, with the usual ones; later
initialisations change nothing. Messages go to a logger, of which only the first one installed
counts; installing the program's own logger also sets the maximum level.
-/
namespace Nucleus

/-- The state of a program that runs the nucleus. -/
structure Session where
  /-- The kernel, once there is one. -/
  kernel : Option Kernel := none
  machine : Machine := .initial
  journal : Journal := {}
  /-- Has a logger been installed? -/
  hasLogger : Bool := false
  verbosity : Verbosity := .off

namespace Session

/-- Brings the kernel into being, if there is none yet. -/
def initKernel (s : Session) (timing : Timing) : Session :=
  { s with kernel := some (s.kernel.getD (.initial timing)) }

/-- Installs the program's logger with a maximum level; a logger that is there already stays, and so
does its maximum level. -/
def initLogger (s : Session) (v : Verbosity) : Session :=
  if s.hasLogger then s else { s with hasLogger := true, verbosity := v }

/-- Brings up logger and kernel, and says so. -/
def initialise (s : Session) (timing : Timing) (v : Verbosity) : Session :=
  let s := (s.initLogger v).initKernel timing
  { s with journal := s.journal.note .broughtUp }

def enter (s : Session) (e : Entry) : Except Fault (Dispatch × Session) := do
  let kernel := s.kernel.getD (.initial {})
  let (d, t) ← ({ kernel, machine := s.machine, journal := s.journal } : Computer).enter e
  return (d, { s with kernel := some t.kernel, machine := t.machine, journal := t.journal })

end Session

/-- The events of a journal that a logger with maximum level `v` is given, the oldest first. -/
def Journal.wanted (j : Journal) (v : Verbosity) : List Event :=
  (j.events.filter (v.admits ·.level)).reverse

end Nucleus
