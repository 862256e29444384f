import Nucleus.Word

/-!
# Event counters

How often the nucleus did what. A counter has a name and a word that wraps.
-/
namespace Nucleus

/-- A named count of events. -/
structure Counter where
  name : String
  value : Word := 0
deriving DecidableEq, Repr

def Counter.increment (c : Counter) : Counter := { c with value := c.value + 1 }

/-- The counters of the nucleus. -/
structure Counters where
  /-- processes started -/
  created : Counter := ⟨"processes_created", 0⟩
  /-- descriptors freed by termination -/
  killed : Counter := ⟨"processes_killed", 0⟩
  /-- processes given the processor by the scheduler -/
  dispatches : Counter := ⟨"dispatches", 0⟩
  /-- time slices used up -/
  preemptions : Counter := ⟨"preemptions", 0⟩
  /-- times the processor was left waiting for an interrupt -/
  idleWaits : Counter := ⟨"idle_waits", 0⟩
  /-- service requests served -/
  requests : Counter := ⟨"syscalls", 0⟩
  /-- exceptions handed to a support level -/
  passUps : Counter := ⟨"pass_ups", 0⟩
  /-- ticks of the pseudo-clock -/
  ticks : Counter := ⟨"clock_ticks", 0⟩
  /-- finished device operations acknowledged -/
  deviceInterrupts : Counter := ⟨"device_interrupts", 0⟩
deriving DecidableEq, Repr

/-- All counters, in the order in which they are reported. -/
def Counters.toList (c : Counters) : List Counter :=
  [c.created, c.killed, c.dispatches, c.preemptions, c.idleWaits, c.requests, c.passUps, c.ticks,
    c.deviceInterrupts]

end Nucleus
