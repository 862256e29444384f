import Nucleus.Fault
import Nucleus.Process.Descriptor

/-!
# The descriptor pool

A fixed number of descriptor slots and the list of the free ones, used last in, first out. Taking a
slot raises its generation, modulo 2¹⁶, and clears the descriptor. `find?` answers only to a handle
of the slot's present generation; `slot` and `modify` go by the slot alone and are for handles known
to be good.
-/
namespace Nucleus

/-- Descriptors in the pool. -/
abbrev maxProcesses : Nat := 20

/-- The descriptor pool. -/
structure Table where
  slots : Vector Descriptor maxProcesses
  /-- Free slots, the next one to be used first. -/
  free : List (Fin maxProcesses)
deriving DecidableEq

namespace Table

/-- A pool with every descriptor free. -/
def empty : Table where
  slots := Vector.ofFn fun i =>
    { handle := ⟨UInt16.ofNat i.val, 0⟩, location := .free }
  free := List.finRange maxProcesses

/-- The descriptor in the slot of a handle, whatever its generation. -/
def slot (t : Table) (p : Handle) : Except Fault Descriptor :=
  if h : p.slot.toNat < maxProcesses then .ok t.slots[p.slot.toNat] else .error .noSuchSlot

/-- Changes the descriptor in the slot of a handle, whatever its generation. -/
def modify (t : Table) (p : Handle) (f : Descriptor → Descriptor) : Except Fault Table :=
  if h : p.slot.toNat < maxProcesses then
    .ok { t with slots := t.slots.set p.slot.toNat (f t.slots[p.slot.toNat]) }
  else .error .noSuchSlot

/-- The descriptor a handle names, if the handle is current. -/
def find? (t : Table) (p : Handle) : Option Descriptor :=
  if h : p.slot.toNat < maxProcesses then
    let d := t.slots[p.slot.toNat]
    if d.handle = p ∧ d.location ≠ .free then some d else none
  else none

def isLive (t : Table) (p : Handle) : Bool := (t.find? p).isSome

def live (t : Table) : List Descriptor := t.slots.toList.filter (·.location != .free)

def freeCount (t : Table) : Nat := t.free.length

/-- Takes a free descriptor, cleared and under a new generation; none when the pool is used up. -/
def alloc (t : Table) : Option (Handle × Table) :=
  match t.free with
  | [] => none
  | i :: rest =>
    let p : Handle := ⟨UInt16.ofNat i.val, t.slots[i].handle.generation + 1⟩
    some (p, { slots := t.slots.set i { handle := p }, free := rest })

/-- The list of free slots with one more in front. The list has room for every slot once, and a full
one stays as it is. -/
def pushFree (t : Table) (i : Fin maxProcesses) : List (Fin maxProcesses) :=
  if t.free.length < maxProcesses then i :: t.free else t.free

/-- Returns a descriptor to the pool; a handle that is not current returns nothing. The descriptor
must be in no queue, without a parent and without children. -/
def release (t : Table) (p : Handle) : Except Fault Table := do
  match t.find? p with
  | none => return t
  | some d =>
    unless d.location = .unqueued ∧ d.parent = none ∧ d.children.isEmpty do
      throw .stillInUse
    if h : p.slot.toNat < maxProcesses then
      return { slots := t.slots.set p.slot.toNat { d with location := .free }
               free := t.pushFree ⟨p.slot.toNat, h⟩ }
    else throw .noSuchSlot

def link (t : Table) (c : Chain) (p : Handle) : Except Fault Link :=
  return (← t.slot p).link c

def modifyLink (t : Table) (c : Chain) (p : Handle) (f : Link → Link) : Except Fault Table :=
  t.modify p fun d => d.setLink (f (d.link c)) c

end Table

end Nucleus
