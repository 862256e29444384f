import Nucleus.Computer.Basic

/-!
# The scheduler

Ready processes take turns, each for one time slice. When none is ready there are three cases: no
process is left, and the machine halts; some process waits on one of the nucleus's own semaphores,
and the processor idles until an interrupt; or every process waits on a semaphore that only another
process could signal, which is a deadlock.
-/
namespace Nucleus.Computer

/-- Gives the processor to the first ready process, or decides how to idle. -/
def schedule (s : Computer) : Except Fault (Dispatch × Computer) := do
  match ← s.kernel.ready.pop s.kernel.table .queue with
  | (some p, ready, table) =>
    let table ← table.modify p ({ · with location := .unqueued })
    let state := (← table.slot p).state
    let machine := s.machine.loadLocalTimer s.kernel.timing.quantum
    let kernel := { s.kernel.setTable table with
      ready, current := some p, stopwatch := .startedAt machine }
    let s := { s with kernel, machine }.count fun c =>
      { c with dispatches := c.dispatches.increment }
    return (.load state, s.note (.dispatched p state.pc))
  | (none, _, _) =>
    let s := { s with kernel := { s.kernel with current := none } }
    if s.kernel.processCount = 0 then
      let s := s.note .halted
      return (.halt, { s with journal := s.journal.noteCounters })
    else if 0 < s.kernel.softBlockCount then
      let s := { s with machine := s.machine.loadLocalTimer idleTimer }.count fun c =>
        { c with idleWaits := c.idleWaits.increment }
      return (.wait, s.note (.idled s.kernel.softBlockCount))
    else
      return (.panic (.deadlock s.kernel.processCount), s.note (.deadlocked s.kernel.processCount))

/-- Continues the running process with `state`, or schedules if none runs. -/
def resumeOrSchedule (s : Computer) (state : SavedState) : Except Fault (Dispatch × Computer) :=
  match s.kernel.current with
  | some _ => return (.load state, s)
  | none => s.schedule

end Nucleus.Computer
