import Nucleus.Process.Ring

/-!
# The semaphore directory

A semaphore has an entry in the directory while some process waits on it. The entries form one chain
in strictly increasing order of their keys, between two permanent ends, so a search by key always
stops. The ends bear the lowest and the highest key but never stand for a semaphore: a semaphore
with such a key gets an entry of its own next to the end. Entries that are not in use are kept for
reuse, last in, first out.
-/
namespace Nucleus

/-- Most semaphores that can be waited on at a time: one for each process. -/
abbrev maxSemaphores : Nat := maxProcesses

/-- Entries of the directory, its two ends among them. -/
abbrev directorySize : Nat := maxSemaphores + 2

/-- An entry: its key, its queue of processes and its successor in the chain. -/
structure DirectoryEntry where
  next : Option (Fin directorySize) := none
  key : SemKey := .lowest
  queue : Ring := {}
deriving DecidableEq

/-- The directory of semaphores that are waited on. -/
structure Directory where
  entries : Vector DirectoryEntry directorySize
  /-- Entries not in use, the next one to be used first. -/
  free : List (Fin directorySize)
deriving DecidableEq

namespace Directory

/-- Lower end of the chain. -/
def low : Fin directorySize := 0

/-- Upper end of the chain. -/
def high : Fin directorySize := 1

/-- The directory without any semaphore. -/
def empty : Directory where
  entries := ((Vector.replicate directorySize {}).set low { next := some high, key := .lowest }).set
    high { next := none, key := .highest }
  free := (List.finRange directorySize).drop 2

def entry (d : Directory) (i : Fin directorySize) : DirectoryEntry := d.entries[i]

theorem entries_eq (d : Directory) (i : Fin directorySize) : d.entries[i] = d.entry i := rfl

/-- The last entry, from `prev` on, whose successor has a key not below `key`. -/
def predecessorFrom (d : Directory) (key : SemKey) :
    Nat → Fin directorySize → Except Fault (Fin directorySize)
  | 0, _ => throw .endlessWalk
  | n + 1, prev =>
    match d.entries[prev].next with
    | none => return prev
    | some next =>
      if d.entries[next].key.address < key.address then predecessorFrom d key n next
      else return prev

/-- The last entry whose successor has a key not below `key`. -/
def predecessor (d : Directory) (key : SemKey) : Except Fault (Fin directorySize) :=
  d.predecessorFrom key directorySize low

def find? (d : Directory) (key : SemKey) : Except Fault (Option (Fin directorySize)) := do
  match d.entries[← d.predecessor key].next with
  | none => return none
  | some i => return if i ≠ high ∧ d.entries[i].key = key then some i else none

def setQueue (d : Directory) (i : Fin directorySize) (queue : Ring) : Directory :=
  { d with entries := d.entries.set i { d.entries[i] with queue } }

/-- The entry of a semaphore, a new one with an empty queue if it has none yet; none when every
entry is in use. -/
def activate (d : Directory) (key : SemKey) :
    Except Fault (Option (Fin directorySize × Directory)) := do
  match ← d.find? key with
  | some i => return some (i, d)
  | none =>
    match d.free with
    | [] => return none
    | i :: rest =>
      let prev ← d.predecessor key
      let entries := d.entries.set i { next := d.entries[prev].next, key }
      let entries := entries.set prev { entries[prev] with next := some i }
      return some (i, { entries, free := rest })

/-- The list of unused entries with one more in front. The list has room for every entry once, and a
full one stays as it is. -/
def pushFree (d : Directory) (i : Fin directorySize) : List (Fin directorySize) :=
  if d.free.length < directorySize then i :: d.free else d.free

/-- Takes the entry that follows the predecessor of `key` out of the chain. -/
def deactivate (d : Directory) (key : SemKey) : Except Fault Directory := do
  let prev ← d.predecessor key
  match d.entries[prev].next with
  | none => return d
  | some i =>
    let entries := d.entries.set prev { d.entries[prev] with next := d.entries[i].next }
    return { entries := entries.set i {}, free := d.pushFree i }

/-- Puts back the queue of an entry, and takes the entry out of the
chain when the queue is empty. -/
def storeQueue (d : Directory) (i : Fin directorySize) (key : SemKey) (queue : Ring) :
    Except Fault Directory :=
  let d := d.setQueue i queue
  if queue.isEmpty then d.deactivate key else return d

/-- Keys of the entries that follow `i` in the chain. -/
def keysFrom (d : Directory) : Nat → Option (Fin directorySize) → Except Fault (List SemKey)
  | _, none => return []
  | 0, some _ => throw .endlessWalk
  | n + 1, some i =>
    if i = high then return []
    else return d.entries[i].key :: (← keysFrom d n d.entries[i].next)

/-- Keys of the semaphores that are waited on, in the order of the chain. -/
def keys (d : Directory) : Except Fault (List SemKey) :=
  d.keysFrom directorySize d.entries[low].next

def activeCount (d : Directory) : Nat := maxSemaphores - d.free.length

/-- Is some process waiting on the semaphore? -/
def isActive (d : Directory) (key : SemKey) : Except Fault Bool :=
  return (← d.find? key).isSome

end Directory

end Nucleus
