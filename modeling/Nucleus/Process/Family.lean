import Nucleus.Process.Ring

/-!
# Parents and children

Processes form a forest: a process knows its parent and keeps its children in a queue on the sibling
chain, oldest first. A child is adopted as the youngest, and leaves either because the parent gives
up its oldest child or because the child is detached.
-/
namespace Nucleus.Table

/-- Makes `child`, which has no parent, the youngest child of `parent`. -/
def adopt (t : Table) (parent child : Handle) : Except Fault Table := do
  if (← t.slot child).parent.isSome then
    throw .alreadyAdopted
  let (children, t) ← (← t.slot parent).children.insert t .sibling child
  let t ← t.modify parent ({ · with children })
  t.modify child ({ · with parent := some parent })

/-- Takes the oldest child of `parent` away from it. -/
def dropFirstChild (t : Table) (parent : Handle) : Except Fault (Option Handle × Table) := do
  match ← (← t.slot parent).children.pop t .sibling with
  | (none, _, _) => return (none, t)
  | (some child, children, t) =>
    let t ← t.modify parent ({ · with children })
    let t ← t.modify child ({ · with parent := none })
    return (some child, t)

/-- Takes `child` away from its parent, if it has one. -/
def detach (t : Table) (child : Handle) : Except Fault (Option Handle × Table) := do
  match (← t.slot child).parent with
  | none => return (none, t)
  | some parent =>
    match ← (← t.slot parent).children.remove t .sibling child with
    | (none, _, _) => return (none, t)
    | (some child, children, t) =>
      let t ← t.modify parent ({ · with children })
      let t ← t.modify child ({ · with parent := none })
      return (some child, t)

/-- Is `ancestor` met on the way up from `cursor`? -/
def climbs (t : Table) (ancestor : Handle) : Nat → Handle → Except Fault Bool
  | 0, _ => throw .endlessWalk
  | n + 1, cursor =>
    if cursor = ancestor then return true
    else
      match (t.find? cursor).bind (·.parent) with
      | none => return false
      | some parent => climbs t ancestor n parent

/-- Is `ancestor` the process `p` itself or above it in the forest? A way up visits each process at
most once, and may begin at a handle that is not current. -/
def isAncestorOrSelf (t : Table) (ancestor p : Handle) : Except Fault Bool :=
  climbs t ancestor (maxProcesses + 1) p

/-- Children of a process, oldest first. -/
def childrenOf (t : Table) (parent : Handle) : Except Fault (List Handle) := do
  (← t.slot parent).children.toList t .sibling

end Nucleus.Table
