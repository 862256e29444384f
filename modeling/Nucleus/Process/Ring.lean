import Nucleus.Process.Table

/-!
# Process queues

A queue is circular: every entry links to the next and to the previous one, the last entry links on
to the first, and the queue itself is just the handle of its last entry. So the first entry is one
step from the last, and appending, taking the first and unlinking change a few links only. Walks
follow the next links; a queue has at most one entry per slot, and a walk longer than that is a
fault.
-/
namespace Nucleus.Ring

def head? (r : Ring) (t : Table) (c : Chain) : Except Fault (Option Handle) :=
  match r.tail with
  | none => return none
  | some tail => return (← t.link c tail).next

/-- Appends an entry that is in no queue of the chain. -/
def insert (r : Ring) (t : Table) (c : Chain) (p : Handle) : Except Fault (Ring × Table) := do
  if (← t.link c p).isLinked then
    throw .alreadyLinked
  match r.tail with
  | none =>
    let t ← t.modifyLink c p fun _ => ⟨some p, some p⟩
    return (⟨some p⟩, t)
  | some tail =>
    let head := (← t.link c tail).next.getD tail
    let t ← t.modifyLink c p fun _ => ⟨some head, some tail⟩
    let t ← t.modifyLink c tail ({ · with next := some p })
    let t ← t.modifyLink c head ({ · with prev := some p })
    return (⟨some p⟩, t)

/-- Takes an entry out of the queue it is in, joining its neighbours. -/
def unlink (r : Ring) (t : Table) (c : Chain) (p : Handle) : Except Fault (Ring × Table) := do
  let l ← t.link c p
  if l.next = some p then
    let t ← t.modifyLink c p fun _ => {}
    return (⟨none⟩, t)
  else
    let t ← match l.next, l.prev with
      | some next, some prev => do
        let t ← t.modifyLink c prev ({ · with next := some next })
        t.modifyLink c next ({ · with prev := some prev })
      | _, _ => pure t
    let t ← t.modifyLink c p fun _ => {}
    return (⟨if r.tail = some p then l.prev else r.tail⟩, t)

/-- Takes the first entry. -/
def pop (r : Ring) (t : Table) (c : Chain) : Except Fault (Option Handle × Ring × Table) := do
  match ← r.head? t c with
  | none => return (none, r, t)
  | some head =>
    let (r, t) ← r.unlink t c head
    return (some head, r, t)

/-- Is `p` met on the walk from `cursor` that ends before it would come to `tail` again? -/
def reaches (t : Table) (c : Chain) (tail p : Handle) : Nat → Handle → Except Fault Bool
  | 0, _ => throw .endlessWalk
  | n + 1, cursor => do
    if cursor = p then
      return true
    match (← t.link c cursor).next with
    | none => return false
    | some next => if next = tail then return false else reaches t c tail p n next

/-- Takes an entry from anywhere in the queue; nothing changes when it is not there. The walk may
come to `p` after an entry with the same slot under another generation, so it is one step longer
than the pool. -/
def remove (r : Ring) (t : Table) (c : Chain) (p : Handle) :
    Except Fault (Option Handle × Ring × Table) := do
  match r.tail with
  | none => return (none, r, t)
  | some tail =>
    if ← reaches t c tail p (maxProcesses + 1) tail then
      let (r, t) ← r.unlink t c p
      return (some p, r, t)
    else
      return (none, r, t)

/-- The entries from `cursor` on, up to `tail`. -/
def walk (t : Table) (c : Chain) (tail : Handle) : Nat → Handle → Except Fault (List Handle)
  | 0, _ => throw .endlessWalk
  | n + 1, cursor => do
    if cursor = tail then
      return [cursor]
    match (← t.link c cursor).next with
    | none => return [cursor]
    | some next => return cursor :: (← walk t c tail n next)

/-- The entries of a queue, first to last. -/
def toList (r : Ring) (t : Table) (c : Chain) : Except Fault (List Handle) := do
  match r.tail, ← r.head? t c with
  | some tail, some head => walk t c tail maxProcesses head
  | _, _ => return []

def contains (r : Ring) (t : Table) (c : Chain) (p : Handle) : Except Fault Bool :=
  return (← r.toList t c).contains p

def size (r : Ring) (t : Table) (c : Chain) : Except Fault Nat :=
  return (← r.toList t c).length

end Nucleus.Ring
