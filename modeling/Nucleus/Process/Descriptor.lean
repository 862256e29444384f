import Nucleus.Process.Handle
import Nucleus.Processor.Support
import Nucleus.Semaphore.Key

/-!
# Process descriptors

What the nucleus keeps about a process. Two pairs of links are embedded in a descriptor: one threads
it into the ready queue or the queue of a semaphore, the other into the list of its parent's
children.
-/
namespace Nucleus

/-- Neighbours of an entry in a circular queue. -/
structure Link where
  next : Option Handle := none
  prev : Option Handle := none
deriving DecidableEq, Repr

/-- Is the entry in a queue? -/
def Link.isLinked (l : Link) : Bool := l.next.isSome || l.prev.isSome

/-- A queue is circular and known by its last entry; an empty one has none. -/
structure Ring where
  tail : Option Handle := none
deriving DecidableEq, Repr

def Ring.isEmpty (r : Ring) : Bool := r.tail.isNone

/-- The two chains that a descriptor can be threaded into. -/
inductive Chain
  /-- the ready queue or the queue of a semaphore -/
  | queue
  /-- the children of one parent -/
  | sibling
deriving DecidableEq, Repr

/-- Where a descriptor stands. -/
inductive Location
  /-- in the pool of free descriptors -/
  | free
  /-- in use but in no process queue: running, or just created -/
  | unqueued
  /-- in the ready queue -/
  | ready
  /-- in the queue of the semaphore it waits on -/
  | blocked
deriving DecidableEq, Repr

/-- A process descriptor. -/
structure Descriptor where
  handle : Handle
  queueLink : Link := {}
  siblingLink : Link := {}
  parent : Option Handle := none
  children : Ring := {}
  location : Location := .unqueued
  /-- Saved processor state. -/
  state : SavedState := {}
  /-- Processor time used so far, in microseconds. -/
  cpuTime : Word := 0
  /-- The semaphore the process waits on. -/
  waitingOn : Option SemKey := none
  support : Option SupportArea := none
deriving DecidableEq

namespace Descriptor

def link (d : Descriptor) : Chain → Link
  | .queue => d.queueLink
  | .sibling => d.siblingLink

def setLink (d : Descriptor) (l : Link) : Chain → Descriptor
  | .queue => { d with queueLink := l }
  | .sibling => { d with siblingLink := l }

@[simp] theorem link_setLink (d : Descriptor) (l : Link) (c e : Chain) :
    (d.setLink l c).link e = if e = c then l else d.link e := by
  cases c <;> cases e <;> rfl

@[simp] theorem handle_setLink (d : Descriptor) (l : Link) (c : Chain) :
    (d.setLink l c).handle = d.handle := by cases c <;> rfl

@[simp] theorem location_setLink (d : Descriptor) (l : Link) (c : Chain) :
    (d.setLink l c).location = d.location := by cases c <;> rfl

@[simp] theorem parent_setLink (d : Descriptor) (l : Link) (c : Chain) :
    (d.setLink l c).parent = d.parent := by cases c <;> rfl

@[simp] theorem children_setLink (d : Descriptor) (l : Link) (c : Chain) :
    (d.setLink l c).children = d.children := by cases c <;> rfl

@[simp] theorem waitingOn_setLink (d : Descriptor) (l : Link) (c : Chain) :
    (d.setLink l c).waitingOn = d.waitingOn := by cases c <;> rfl

@[simp] theorem state_setLink (d : Descriptor) (l : Link) (c : Chain) :
    (d.setLink l c).state = d.state := by cases c <;> rfl

@[simp] theorem cpuTime_setLink (d : Descriptor) (l : Link) (c : Chain) :
    (d.setLink l c).cpuTime = d.cpuTime := by cases c <;> rfl

@[simp] theorem support_setLink (d : Descriptor) (l : Link) (c : Chain) :
    (d.setLink l c).support = d.support := by cases c <;> rfl

end Descriptor

end Nucleus
