import Nucleus.Proofs.Postorder
import Nucleus.Proofs.Process.Shows

/-!
# The way up

Who is met on the way up from a process are its ancestors, each once, so the way is never longer
than the pool and the search for an ancestor answers for every pair of handles.
-/
namespace Nucleus
open Relation

namespace View
variable {v : View} {p q root : Handle} {target : Word}

/-- `l` are the process `root` and all that is below it. -/
def IsFamily (v : View) (root : Handle) (l : List Handle) : Prop :=
  ∀ q, q ∈ l ↔ ReflTransGen v.IsChild q root

/-- `p` may end `q` under the name `target`: itself under zero, or a process that is itself or below
it under its own word. -/
def Names (v : View) (p : Handle) (target : Word) (q : Handle) : Prop :=
  if target = 0 then q = p else Handle.ofWord? target = some q ∧ ReflTransGen v.IsChild q p

theorem Names.below (h : v.Names p target q) : ReflTransGen v.IsChild q p := by
  unfold Names at h
  split at h
  · rw [h]
  · exact h.2

theorem exists_process_of_below (h : ReflTransGen v.IsChild q p) (hp : ∃ x, v.process p = some x) :
    ∃ x, v.process q = some x := by
  rcases ReflTransGen.cases_head h with rfl | ⟨_, ⟨x, hx, _⟩, _⟩
  · exact hp
  · exact ⟨x, hx⟩

end View

namespace Table

variable {t : Table} {ring : Station → Ring} {v : View} {a p : Handle}

theorem parent_find? (h : t.Shows ring v) (p : Handle) :
    (t.find? p).bind (·.parent) = (v.process p).bind (·.parent) := by
  rw [← h.registers.process p]
  cases t.find? p <;> rfl

/-- `seen` are the processes that the way has passed. -/
theorem climbs_iff (h : t.Shows ring v) {n : Nat} {seen : List Handle} (hn : seen.Nodup)
    (hs : ∀ x ∈ seen, TransGen v.IsChild x p) (hl : maxProcesses < seen.length + n) :
    ∃ b, t.climbs a n p = .ok b ∧ (b = true ↔ ReflTransGen v.IsChild p a) := by
  induction n generalizing p seen with
  | zero =>
    have hle := h.registers.length_le (l := seen) (fun x hx => by
      obtain ⟨_, ⟨y, hy, _⟩, _⟩ := TransGen.head'_iff.mp (hs x hx)
      exact ⟨y, hy⟩) hn
    omega
  | succ n ih =>
    rw [climbs, parent_find? h]
    by_cases hpa : p = a
    · exact ⟨true, by rw [if_pos hpa, pure_eq_ok], by simp [hpa, ReflTransGen.refl]⟩
    · rw [if_neg hpa]
      cases hq : (v.process p).bind (·.parent) with
      | none =>
        refine ⟨false, rfl, iff_of_false (by simp) fun hr => ?_⟩
        rcases ReflTransGen.cases_head hr with e | ⟨b, ⟨x, hx, hb⟩, _⟩
        · exact hpa e
        · simp [hx, hb] at hq
      | some q =>
        obtain ⟨x, hx, hxq⟩ := Option.bind_eq_some_iff.mp hq
        have hpq : v.IsChild p q := ⟨x, hx, hxq⟩
        have hps : p ∉ seen := fun hm => h.wf.forest.transGen.asymmetric p p (hs p hm) (hs p hm)
        obtain ⟨b, hb, hiff⟩ := ih (p := q) (List.nodup_cons.mpr ⟨hps, hn⟩ : (p :: seen).Nodup)
          (fun y hy => by
            rcases List.mem_cons.mp hy with rfl | hy
            · exact .single hpq
            · exact (hs y hy).tail hpq)
          (by
            rw [List.length_cons]
            omega)
        refine ⟨b, hb, hiff.trans ⟨fun hr => hr.head hpq, fun hr => ?_⟩⟩
        rcases ReflTransGen.cases_head hr with e | ⟨c, hpc, hca⟩
        · exact (hpa e).elim
        · rwa [View.Wf.parent_unique hpq hpc]

theorem isAncestorOrSelf_iff (h : t.Shows ring v) (a p : Handle) :
    ∃ b, t.isAncestorOrSelf a p = .ok b ∧ (b = true ↔ ReflTransGen v.IsChild p a) :=
  climbs_iff h List.nodup_nil (by simp) (by simp)

end Table
end Nucleus
