import Nucleus.Semaphore.Cells
import Nucleus.Semaphore.Directory

/-!
# Waiting on semaphores

The process table and the semaphore directory together. At the level of queues a process is put at
the end of the queue of a semaphore, the first one is taken, or one is withdrawn from wherever it
stands. On top of that come the operations on the semaphore's integer: `wait` takes a unit and
blocks the process when there was none to take, `signal` gives a unit back and wakes the first
process when some process was owed one, `broadcast` wakes everybody.
-/
namespace Nucleus

/-- Process table and semaphore directory. -/
structure Store where
  table : Table
  directory : Directory
deriving DecidableEq

namespace Store

def empty : Store := ⟨.empty, .empty⟩

/-- Puts a process, which is in no queue, at the end of the queue of a semaphore. -/
def enqueue (s : Store) (key : SemKey) (p : Handle) : Except Fault (Except ServiceError Store) := do
  match ← s.directory.activate key with
  | none => return .error .noFreeSemaphore
  | some (i, directory) =>
    let (queue, table) ← (directory.entry i).queue.insert s.table .queue p
    let table ← table.modify p ({ · with waitingOn := some key, location := .blocked })
    return .ok { table, directory := directory.setQueue i queue }

/-- Takes the first process from the queue of a semaphore. -/
def dequeue (s : Store) (key : SemKey) : Except Fault (Option Handle × Store) := do
  match ← s.directory.find? key with
  | none => return (none, s)
  | some i =>
    match ← (s.directory.entry i).queue.pop s.table .queue with
    | (none, _, _) => return (none, s)
    | (some p, queue, table) =>
      let directory ← s.directory.storeQueue i key queue
      let table ← table.modify p ({ · with waitingOn := none, location := .unqueued })
      return (some p, { table, directory })

/-- Takes a process from the queue it waits in, wherever it stands there. -/
def withdraw (s : Store) (p : Handle) : Except Fault (Option Handle × Store) := do
  match (s.table.find? p).bind (·.waitingOn) with
  | none => return (none, s)
  | some key =>
    match ← s.directory.find? key with
    | none => return (none, s)
    | some i =>
      match ← (s.directory.entry i).queue.remove s.table .queue p with
      | (none, _, _) => return (none, s)
      | (some p, queue, table) =>
        let directory ← s.directory.storeQueue i key queue
        let table ← table.modify p ({ · with waitingOn := none, location := .unqueued })
        return (some p, { table, directory })

def firstWaiter (s : Store) (key : SemKey) : Except Fault (Option Handle) := do
  match ← s.directory.find? key with
  | none => return none
  | some i => (s.directory.entry i).queue.head? s.table .queue

/-- The processes waiting on a semaphore, in the order in which they will be woken. -/
def waiters (s : Store) (key : SemKey) : Except Fault (List Handle) := do
  match ← s.directory.find? key with
  | none => return []
  | some i => (s.directory.entry i).queue.toList s.table .queue

variable {σ : Type} [SemaphoreCells σ]

/-- P: takes a unit from a semaphore on behalf of `p`, which is blocked when that leaves the integer
negative. Says whether `p` was blocked; when the directory is full the integer is put back. -/
def wait (s : Store) (cells : σ) (key : SemKey) (p : Handle) :
    Except Fault (Except ServiceError Bool × Store × σ) := do
  let value := SemaphoreCells.value cells key - 1
  let cells := SemaphoreCells.assign cells key value
  if 0 ≤ value then
    return (.ok false, s, cells)
  match ← s.enqueue key p with
  | .ok s => return (.ok true, s, cells)
  | .error e => return (.error e, s, SemaphoreCells.assign cells key (value + 1))

/-- V: gives a unit to a semaphore, and takes its first process from the queue when that leaves the
integer at zero or below. -/
def signal (s : Store) (cells : σ) (key : SemKey) : Except Fault (Option Handle × Store × σ) := do
  let value := SemaphoreCells.value cells key + 1
  let cells := SemaphoreCells.assign cells key value
  if value ≤ 0 then
    let (woken, s) ← s.dequeue key
    return (woken, s, cells)
  else
    return (none, s, cells)

/-- Takes every process from the queue of a semaphore, at most `n` of them. -/
def drain (s : Store) (key : SemKey) : Nat → Except Fault (List Handle × Store)
  | 0 => do
    match ← s.dequeue key with
    | (none, s) => return ([], s)
    | (some _, _) => throw .capacityExceeded
  | n + 1 => do
    match ← s.dequeue key with
    | (none, s) => return ([], s)
    | (some p, s) =>
      let (rest, s) ← drain s key n
      return (p :: rest, s)

/-- Wakes every process waiting on a semaphore, first come first, and sets the integer to zero. -/
def broadcast (s : Store) (cells : σ) (key : SemKey) :
    Except Fault (List Handle × Store × σ) := do
  let (woken, s) ← s.drain key maxProcesses
  return (woken, s, SemaphoreCells.assign cells key 0)

end Store

end Nucleus
