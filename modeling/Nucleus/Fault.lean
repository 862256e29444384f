/-!
# Faults

The nucleus relies on rules of its own: a handle names a slot of the pool, an entry is queued at
most once, a count never drops below zero, a walk comes back to where it started. An operation that
would break one of them stops with a fault instead of an answer, so "no fault" is a statement about
every rule at once, and also says that every walk ends.
-/
namespace Nucleus

/-- The rule an operation was about to break. -/
inductive Fault
  /-- a handle whose slot is outside the pool -/
  | noSuchSlot
  /-- queueing an entry that is linked already -/
  | alreadyLinked
  /-- adopting a process that has a parent -/
  | alreadyAdopted
  /-- freeing a descriptor that is queued, has a parent or has children -/
  | stillInUse
  /-- putting one element too many into a bounded list -/
  | capacityExceeded
  /-- taking more from a count than it holds -/
  | belowZero
  /-- a walk longer than the pool -/
  | endlessWalk
deriving DecidableEq, Repr

@[simp] theorem ok_bind {α β : Type} (a : α) (f : α → Except Fault β) :
    (Except.ok a >>= f) = f a := rfl

@[simp] theorem pure_eq_ok {α : Type} (a : α) : (pure a : Except Fault α) = .ok a := rfl

end Nucleus
