import Nucleus.Computer.Basic

/-!
# Termination

A process ends together with everything below it, descendants before their ancestors and older
siblings first. A process that ends while it waits on an ordinary semaphore gives back the unit it
was owed; one that ends while it waits for a device or the pseudo-clock does not, since that
semaphore's unit comes from an interrupt that will still arrive.
-/
namespace Nucleus.Computer

/-- Takes a process out of the queue it is in and settles the semaphore it was waiting on. -/
def unqueue (s : Computer) (p : Handle) (d : Descriptor) : Except Fault Computer := do
  match d.location with
  | .ready =>
    let (_, ready, table) ← s.kernel.ready.remove s.kernel.table .queue p
    let table ← table.modify p ({ · with location := .unqueued })
    return { s with kernel := { s.kernel.setTable table with ready } }
  | .blocked =>
    let (_, store) ← s.kernel.store.withdraw p
    let s := s.setStore store
    match d.waitingOn with
    | none => return s
    | some key =>
      if (Channel.slot? key).isSome then
        let softBlockCount ← lower s.kernel.softBlockCount 1
        return { s with kernel := { s.kernel with softBlockCount } }
      else
        return s.setCells (s.cells.assign key (s.cells.value key + 1))
  | .unqueued | .free => return s

/-- Ends a process that has no children and no parent. -/
def destroy (s : Computer) (p : Handle) : Except Fault Computer := do
  let s ← s.unqueue p (← s.process p)
  let current := if s.kernel.current = some p then none else s.kernel.current
  let table ← s.kernel.table.release p
  let processCount ← lower s.kernel.processCount 1
  let s := { s with kernel := { s.kernel.setTable table with current, processCount } }
  return s.count fun c => { c with killed := c.killed.increment }

/-- Ends the processes on a work list, the top first, each after its children; a child is put on top
of its parent as it is taken from it. Says how many processes ended. -/
def endAll (s : Computer) : Nat → List Handle → Except Fault (Nat × Computer)
  | _, [] => return (0, s)
  | 0, _ :: _ => throw .endlessWalk
  | n + 1, top :: rest => do
    match ← s.kernel.table.dropFirstChild top with
    | (some child, table) =>
      unless rest.length + 1 < maxProcesses do
        throw .capacityExceeded
      endAll { s with kernel := s.kernel.setTable table } n (child :: top :: rest)
    | (none, _) =>
      let s ← s.destroy top
      let (ended, s) ← endAll s n rest
      return (ended + 1, s)

/-- Ends a process and everything below it, and says how many processes that were. Each of them is
put on the work list once and taken from it once. -/
def terminate (s : Computer) (root : Handle) : Except Fault (Nat × Computer) := do
  match s.kernel.table.find? root with
  | none => return (0, s)
  | some _ =>
    let (_, table) ← s.kernel.table.detach root
    let s := { s with kernel := s.kernel.setTable table }
    let (ended, s) ← s.endAll (2 * maxProcesses) [root]
    return (ended, s.note (.terminated root ended))

end Nucleus.Computer
