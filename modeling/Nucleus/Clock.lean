import Nucleus.Machine.Basic

/-!
# Time

The two periods a nucleus is set up with, and the stopwatch that measures how long the running
process has had the processor. The stopwatch keeps a raw tick count: an interval is a wrapping
difference of ticks, turned into microseconds afterwards.
-/
namespace Nucleus

/-- Periods of a nucleus, in microseconds. -/
structure Timing where
  /-- Time slice of a dispatched process. -/
  quantum : Word := 5000
  /-- Period of the pseudo-clock. -/
  tick : Word := 100000
deriving DecidableEq, Repr

/-- What the local timer is loaded with while the processor idles: as long as possible. -/
def idleTimer : Word := 0xFFFFFFFF

/-- The tick count at which the current stint began. -/
structure Stopwatch where
  start : Word := 0
deriving DecidableEq, Repr

namespace Stopwatch

def startedAt (m : Machine) : Stopwatch := ⟨m.ticks⟩

/-- Microseconds since the start. -/
def elapsed (s : Stopwatch) (m : Machine) : Word := (m.ticks - s.start) / m.timeScale

/-- Microseconds since the start, and the stopwatch started again now. -/
def lap (s : Stopwatch) (m : Machine) : Word × Stopwatch := (s.elapsed m, startedAt m)

end Stopwatch

end Nucleus
