import Nucleus.Computer.Scheduler
import Nucleus.Computer.Termination

/-!
# Passing exceptions up

An exception that the nucleus does not handle belongs to the support level of the running process:
its saved state is stored in the process's support area and the support level is entered. A process
without a support area ends, with everything below it.
-/
namespace Nucleus.Computer

/-- Hands an exception to the support level of the running process, or ends the process. -/
def passUpOrDie (s : Computer) (c : ExceptionClass) (saved : SavedState) :
    Except Fault (Dispatch × Computer) := do
  match s.kernel.current with
  | none => return (.panic (.noCurrentProcess saved.trapCode), s)
  | some p =>
    match (← s.process p).support with
    | some area =>
      let s := s.count fun c => { c with passUps := c.passUps.increment }
      let s := s.note (.passedUp p c)
      let s := { s with machine := s.machine.writeState (area.stateAddress c) saved }
      return (.loadContext (s.machine.readContext (area.contextAddress c)), s)
    | none =>
      let s := s.note (.unsupported p saved.trapCode)
      let (_, s) ← s.terminate p
      s.schedule

end Nucleus.Computer
