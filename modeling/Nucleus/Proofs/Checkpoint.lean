import Nucleus.Proofs.Computer.Resuming
import Nucleus.Proofs.History

/-!
# Checkpoints

The checkpoint of a process is what the turns so far say it is to go on with: the state it was
created with, or the state in which it left the processor last, with the status of the completion
that woke it. It is told here from what can be seen of the turns alone. The nucleus keeps exactly
that for every process that does not run, and loads exactly that when it gives the processor to one.
-/
namespace Nucleus

namespace Turn

/-- The state in which `p` leaves the processor, at the end of its slice or to wait. -/
def left? (turn : Turn) (p : Handle) : Option SavedState :=
  match turn.entry with
  | .exception saved =>
    if turn.before.kernel.current ≠ some p then none
    else
      match saved.matter with
      | .sliceEnd => some saved
      | .request r =>
        if r.taken?.any (turn.after.kernel.table.waitsOn · p) then
          some saved.pastInstruction else none
      | _ => none
  | .start _ | .schedule => none

end Turn

namespace History
variable {timing : Timing} {machine : Machine} {first : SavedState} {past : List Turn} {turn : Turn}
variable {s t : Computer} {v w : View} {m : Machine} {saved : SavedState} {d : Dispatch}
variable {q : Handle} {x : SavedState}

theorem left?_eq_some (h : s.kernel.Sound v) (ht : t.kernel.Sound w)
    (heffect : (s.scene v).Effect saved d (t.scene w)) (hc : s.kernel.current = some q)
    (hx : (t.scene w).state? q = some x)
    (hout : t.kernel.current ≠ some q ∨ saved.matter = .sliceEnd) :
    (Turn.mk s (.exception saved) d t).left? q = some x := by
  rcases heffect.left (Kernel.Sound.scene h) hc hx hout with ⟨hm, rfl⟩ | ⟨r, key, hm, hr, hw, rfl⟩
  · simp [Turn.left?, hc, hm]
  · have hwaits : t.kernel.table.waitsOn key q := ht.waitsOn_iff_mem.mpr hw
    simp [Turn.left?, hc, hm, hr, hwaits]

end History

end Nucleus
