import Mathlib.Order.RelClasses
import Nucleus.Proofs.View

/-!
# Families in postorder

A process, everything below it before it and older siblings with all that is below them first: the
order in which a family ends. Every well-formed view has such a list for each process; it has
exactly the process and its descendants, each once.
-/
namespace Nucleus
open Relation

/-- `l` is what is below the processes `ps`, and they themselves, each
after all that is below it. -/
inductive Postorder (children : Handle → List Handle) : List Handle → List Handle → Prop
  | nil : Postorder children [] []
  | cons {p : Handle} {ps below rest : List Handle} : Postorder children (children p) below →
      Postorder children ps rest → Postorder children (p :: ps) (below ++ p :: rest)

namespace Postorder
variable {f g : Handle → List Handle} {v : View} {ps l : List Handle} {p q x : Handle}

theorem congr (h : Postorder f ps l) (e : ∀ p ∈ l, g p = f p) : Postorder g ps l := by
  induction h with
  | nil => exact .nil
  | @cons p ps below rest _ _ ih ih' =>
    have hp : g p = f p := e p (by simp)
    exact .cons (hp ▸ ih fun q hq => e q (by simp [hq])) (ih' fun q hq => e q (by simp [hq]))

theorem subset (h : Postorder f ps l) : ps ⊆ l := by
  induction h with
  | nil => simp
  | @cons p ps below rest _ _ _ ih =>
    intro q hq
    rcases List.mem_cons.mp hq with rfl | hq
    · simp
    · simp [ih hq]

theorem closed (h : Postorder f ps l) (hp : p ∈ l) : f p ⊆ l := by
  induction h with
  | nil => simp at hp
  | @cons q ps below rest hb _ ih ih' =>
    intro c hc
    rcases List.mem_append.mp hp with hp | hp
    · simp [ih hp hc]
    · rcases List.mem_cons.mp hp with rfl | hp
      · simp [hb.subset hc]
      · simp [ih' hp hc]

theorem mem_iff (hw : v.Wf) (h : Postorder v.children ps l) :
    x ∈ l ↔ ∃ p ∈ ps, ReflTransGen v.IsChild x p := by
  induction h with
  | nil => simp
  | @cons p ps below rest _ _ ih ih' =>
    have hp : ReflTransGen v.IsChild x p ↔ x ∈ below ∨ x = p := by
      rw [ih, ReflTransGen.cases_tail_iff, or_comm, eq_comm]
      simp only [hw.mem_children]
      exact or_congr_left ⟨fun ⟨c, hx, hc⟩ => ⟨c, hc, hx⟩, fun ⟨c, hc, hx⟩ => ⟨c, hx, hc⟩⟩
    rw [List.mem_append, List.mem_cons, ih', ← or_assoc, ← hp]
    simp

end Postorder

namespace View.Wf
variable {v : View} {p q x : Handle} {ps l : List Handle}

theorem parent_unique (hp : v.IsChild x p) (hq : v.IsChild x q) : p = q := by
  obtain ⟨d, hd, hp⟩ := hp
  obtain ⟨e, he, hq⟩ := hq
  rw [hd] at he
  cases he
  exact Option.some.inj (hp.symm.trans hq)

theorem not_below_child (h : v.Wf) (hx : v.IsChild x p) : ¬ReflTransGen v.IsChild p x := fun hr =>
  have hp : TransGen v.IsChild p p := TransGen.tail' hr hx
  h.forest.transGen.asymmetric p p hp hp

theorem postorder (h : v.Wf) (p : Handle) : ∃ l, Postorder v.children (v.children p) l := by
  induction p using h.forest.induction with
  | _ p ih =>
    have hall : ∀ ps, (∀ c ∈ ps, v.IsChild c p) → ∃ l, Postorder v.children ps l := by
      intro ps hps
      induction ps with
      | nil => exact ⟨[], .nil⟩
      | cons c ps ih' =>
        obtain ⟨below, hb⟩ := ih c (hps c (by simp))
        obtain ⟨rest, hr⟩ := ih' fun d hd => hps d (by simp [hd])
        exact ⟨_, .cons hb hr⟩
    exact hall _ fun c hc => (h.mem_children p c).mp hc

/-- Families of processes none of which is below another one have nobody in common. -/
theorem nodup_postorder (h : v.Wf) (hn : ∀ p, (v.children p).Nodup) (hl : Postorder v.children ps l)
    (hps : ps.Nodup) (ha : ∀ p ∈ ps, ∀ q ∈ ps, p ≠ q → ¬ReflTransGen v.IsChild p q) : l.Nodup := by
  induction hl with
  | nil => exact List.nodup_nil
  | @cons p ps below rest hb hr ih ih' =>
    obtain ⟨hp, hps⟩ := List.nodup_cons.mp hps
    have hbelow : ∀ x ∈ below, ∃ c, v.IsChild c p ∧ ReflTransGen v.IsChild x c := fun x hx => by
      obtain ⟨c, hc, hxc⟩ := (hb.mem_iff h).mp hx
      exact ⟨c, (h.mem_children p c).mp hc, hxc⟩
    have hrest : ∀ x ∈ rest, ∃ q ∈ ps, ReflTransGen v.IsChild x q :=
      fun x hx => (hr.mem_iff h).mp hx
    have hne : ∀ q ∈ ps, p ≠ q := fun q hq e => hp (e ▸ hq)
    rw [List.nodup_append, List.nodup_cons]
    refine ⟨ih (hn p) fun c hc d hd hcd hr => ?_, ⟨fun hm => ?_, ?_⟩, fun x hx y hy e => ?_⟩
    · -- siblings: the way up from one to the other would lead through their parent
      rcases ReflTransGen.cases_head hr with e | ⟨b, hcb, hbd⟩
      · exact hcd e
      · obtain rfl := parent_unique hcb ((h.mem_children p c).mp hc)
        exact h.not_below_child ((h.mem_children b d).mp hd) hbd
    · obtain ⟨q, hq, hpq⟩ := hrest p hm
      exact ha p (by simp) q (by simp [hq]) (hne q hq) hpq
    · exact ih' hps fun a ha' b hb' => ha a (by simp [ha']) b (by simp [hb'])
    · subst e
      obtain ⟨c, hc, hxc⟩ := hbelow x hx
      rcases List.mem_cons.mp hy with rfl | hy
      · exact h.not_below_child hc hxc
      · obtain ⟨q, hq, hxq⟩ := hrest x hy
        have hxp : ReflTransGen v.IsChild x p := hxc.tail hc
        have hu : Relator.RightUnique v.IsChild := fun _ _ _ => parent_unique
        rcases ReflTransGen.total_of_right_unique hu hxp hxq with hpq | hqp
        · exact ha p (by simp) q (by simp [hq]) (hne q hq) hpq
        · exact ha q (by simp [hq]) p (by simp) (hne q hq).symm hqp

theorem family (h : v.Wf) (hn : ∀ p, (v.children p).Nodup) (p : Handle) :
    ∃ below, Postorder v.children (v.children p) below ∧ (below ++ [p]).Nodup ∧
      ∀ x, x ∈ below ++ [p] ↔ ReflTransGen v.IsChild x p := by
  obtain ⟨below, hb⟩ := h.postorder p
  have hl : Postorder v.children [p] (below ++ [p]) := .cons hb .nil
  refine ⟨below, hb, h.nodup_postorder hn hl (by simp) ?_, fun x => ?_⟩
  · intro a ha b hb hab
    rw [List.mem_singleton] at ha hb
    exact (hab (ha.trans hb.symm)).elim
  · rw [hl.mem_iff h]
    simp

end View.Wf
end Nucleus
