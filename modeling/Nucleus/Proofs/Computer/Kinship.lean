import Nucleus.Proofs.Computer.Passage

/-!
# Kinship

Who is live, who is below whom and how often the slots were taken, apart from all else that a view
shows. Hardly any change of a view touches that: in one exception nobody comes or goes, or a process
is born below the one that asks for it, or a family ends.
-/
namespace Nucleus
open Relation

/-- The parents of the live processes, their children, oldest first, and
the generations of the slots. -/
structure Kin where
  parent : Handle → Option (Option Handle)
  children : Handle → List Handle
  generation : UInt16 → UInt16

namespace Kin

def bear (k : Kin) (p child : Handle) : Kin where
  parent := Function.update k.parent child (some (some p))
  children := Function.update k.children p (k.children p ++ [child])
  generation := Function.update k.generation child.slot child.generation

def without (k : Kin) (l : List Handle) : Kin where
  parent q := if q ∈ l then none else k.parent q
  children p := (k.children p).filter (· ∉ l)
  generation := k.generation

end Kin

namespace View
variable {v w : View} {p q c : Handle} {s : Station} {f : Process → Process} {l : List Handle}
variable {target : Word}

def kin (v : View) : Kin := ⟨fun q => (v.process q).map (·.parent), v.children, v.generation⟩

theorem kin_parent {x : Process} (h : v.process q = some x) : v.kin.parent q = some x.parent := by
  simp [kin, h]

theorem isChild_iff_kin : v.IsChild c p ↔ v.kin.parent c = some (some p) := by
  simp [IsChild, kin]

theorem process_eq_none_iff_kin : v.process q = none ↔ v.kin.parent q = none := by
  simp [kin]

theorem isChild_congr (h : w.kin = v.kin) : w.IsChild = v.IsChild := by
  funext c p
  rw [eq_iff_iff, isChild_iff_kin, isChild_iff_kin, h]

theorem names_congr (h : w.kin = v.kin) : w.Names p target q ↔ v.Names p target q := by
  rw [Names, Names, isChild_congr h]

theorem isFamily_congr (h : w.kin = v.kin) : w.IsFamily p l ↔ v.IsFamily p l := by
  rw [IsFamily, IsFamily, isChild_congr h]

theorem kin_alter (hf : ∀ x, (f x).parent = x.parent) : (v.alter p f).kin = v.kin := by
  have hparent : ∀ q, ((v.alter p f).process q).map (·.parent) = (v.process q).map (·.parent) := by
    intro q
    by_cases hq : q = p
    · simp [alter, hq, Function.comp_def, hf]
    · simp [alter, hq]
  exact congrArg (Kin.mk · v.children v.generation) (funext hparent)

@[simp] theorem kin_join : (v.join p s).kin = v.kin := kin_alter fun _ => rfl

@[simp] theorem kin_leave : (v.leave p).kin = v.kin := kin_alter fun _ => rfl

@[simp] theorem kin_leaveAll : (v.leaveAll l).kin = v.kin := by
  induction l generalizing v with
  | nil => rfl
  | cons p l ih => exact ih.trans kin_leave

@[simp] theorem kin_joinAll : (v.joinAll l s).kin = v.kin := by
  induction l generalizing v with
  | nil => rfl
  | cons p l ih => exact ih.trans kin_join

@[simp] theorem kin_without : (v.without l).kin = v.kin.without l := by
  have hparent : ∀ q, ((v.without l).process q).map (·.parent) = (v.kin.without l).parent q := by
    intro q
    by_cases hq : q ∈ l <;> simp [without, Kin.without, kin, hq]
  exact congrArg (Kin.mk · _ _) (funext hparent)

@[simp] theorem kin_adopt_create {x : Process} :
    ((v.create c x).adopt p c).kin = v.kin.bear p c := by
  have hparent : ∀ q, (((v.create c x).adopt p c).process q).map (·.parent) =
      (v.kin.bear p c).parent q := by
    intro q
    by_cases hq : q = c
    · simp [adopt, create, alter, Kin.bear, hq]
    · simp [adopt, create, alter, Kin.bear, kin, hq]
  exact congrArg (Kin.mk · _ _) (funext hparent)

end View

namespace Scene
variable {σ τ : Scene} {p q child : Handle} {key : SemKey} {l : List Handle} {d : Dispatch}
variable {saved : SavedState} {r : Request} {c : Channel} {status line device : Word}

@[simp] theorem kin_setState {f : SavedState → SavedState} :
    (σ.setState p f).view.kin = σ.view.kin :=
  View.kin_alter fun _ => rfl

@[simp] theorem kin_charge : (σ.charge p).view.kin = σ.view.kin := View.kin_alter fun _ => rfl

@[simp] theorem kin_dispatch : (σ.dispatch p).view.kin = σ.view.kin := View.kin_leave

@[simp] theorem kin_preempt : (σ.preempt p saved).view.kin = σ.view.kin := by
  simp [preempt, stop, join]

@[simp] theorem kin_block : (σ.block p key).view.kin = σ.view.kin := by
  simp [block, stop, join, take, assign]

@[simp] theorem kin_wake : (σ.wake p).view.kin = σ.view.kin := by
  simp [wake]

@[simp] theorem kin_enrol {address : Word} {support : Option SupportArea} :
    (σ.enrol p child address support).view.kin = σ.view.kin.bear p child := by
  simp [enrol]

@[simp] theorem kin_signal : (σ.signal key).view.kin = σ.view.kin := by
  unfold signal
  split
  · exact kin_wake
  · rfl

@[simp] theorem kin_complete : (σ.complete c status).view.kin = σ.view.kin := by
  unfold complete
  split
  · exact kin_setState.trans kin_wake
  · split <;> rfl

@[simp] theorem kin_serve : (σ.serve line device).view.kin = σ.view.kin := by
  unfold serve
  simp only
  split
  · exact kin_complete
  · rfl

@[simp] theorem kin_serveAll {devices : List Word} :
    (σ.serveAll line devices).view.kin = σ.view.kin := by
  induction devices generalizing σ with
  | nil => rfl
  | cons device devices ih => exact ih.trans kin_serve

@[simp] theorem kin_tick : σ.tick.view.kin = σ.view.kin := by
  simp [tick]

theorem Scheduled.kin (h : σ.Scheduled d τ) : τ.view.kin = σ.view.kin := by
  cases h with
  | dispatched => exact kin_dispatch
  | idle => rfl

theorem Continued.kin (h : σ.Continued saved d τ) : τ.view.kin = σ.view.kin := by
  cases h with
  | resumed => rfl
  | scheduled _ h => exact h.kin

theorem Resumed.kin (h : σ.Resumed p d τ) : τ.view.kin = σ.view.kin := by
  cases h
  rfl

/-- Why the running process `p` ends the family of `root`: it asks for that, or it has an exception
to be passed up and no support level. -/
def Ends (σ : Scene) (saved : SavedState) (p root : Handle) : Prop :=
  (∃ target, saved.served? σ.current = some (p, .terminateProcess target) ∧
    σ.view.Names p target root) ∨
    ∃ c state x, saved.matter = .passUp c state ∧ σ.current = some p ∧ σ.view.process p = some x ∧
      x.support = none ∧ root = p

theorem Ends.below {root : Handle} (h : σ.Ends saved p root) :
    ReflTransGen σ.view.IsChild root p := by
  rcases h with ⟨_, _, hv⟩ | ⟨_, _, _, _, _, _, _, rfl⟩
  · exact hv.below
  · exact .refl

theorem Ends.current {root : Handle} (h : σ.Ends saved p root) : σ.current = some p := by
  rcases h with ⟨_, hs, _⟩ | ⟨_, _, _, _, hc, _⟩
  · exact (SavedState.served?_eq_some.mp hs).2
  · exact hc

/-- What one exception does to the live processes and to who is below whom. -/
inductive Kinship (σ : Scene) (saved : SavedState) (τ : Scene) : Prop
  | kept (h : τ.view.kin = σ.view.kin) : Kinship σ saved τ
  | born {p child : Handle} {address : Word} {support : Option SupportArea}
      (hs : saved.served? σ.current = some (p, .createProcess address support))
      (hn : σ.view.process child = none) (h : τ.view.kin = σ.view.kin.bear p child)
      (hg : child.generation = σ.view.generation child.slot + 1) : Kinship σ saved τ
  | ended {p root : Handle} {l : List Handle} (he : σ.Ends saved p root) (hl : l.Nodup)
      (hf : σ.view.IsFamily root l) (h : τ.view.kin = σ.view.kin.without l) : Kinship σ saved τ

/-- Whoever is live afterwards has kept the parent, or has just been born. -/
theorem Kinship.parent_cases {o : Option Handle} (h : σ.Kinship saved τ)
    (hq : τ.view.kin.parent q = some o) :
    σ.view.kin.parent q = some o ∨ σ.view.kin.parent q = none ∧ ∃ p address support,
      saved.served? σ.current = some (p, .createProcess address support) ∧ o = some p := by
  cases h with
  | kept h => exact .inl (h ▸ hq)
  | @born p child _ _ hs hn h _ =>
    rw [h] at hq
    by_cases he : q = child
    · subst he
      have ho : some p = o := by simpa [Kin.bear] using hq
      exact .inr ⟨View.process_eq_none_iff_kin.mp hn, _, _, _, hs, ho.symm⟩
    · left
      simpa [Kin.bear, he] using hq
  | ended _ _ _ h =>
    rw [h] at hq
    exact .inl (Option.ite_none_left_eq_some.mp hq).2

theorem Kinship.of_gone (h : σ.Kinship saved τ) (hlive : σ.view.kin.parent q ≠ none)
    (hgone : τ.view.kin.parent q = none) :
    ∃ p root l, σ.Ends saved p root ∧ σ.view.IsFamily root l ∧
      τ.view.kin = σ.view.kin.without l ∧ q ∈ l := by
  cases h with
  | kept h =>
    rw [h] at hgone
    exact (hlive hgone).elim
  | @born p child _ _ _ _ h _ =>
    rw [h] at hgone
    by_cases he : q = child
    · simp [Kin.bear, he] at hgone
    · simp [Kin.bear, he, hlive] at hgone
  | ended he _ hf h =>
    refine ⟨_, _, _, he, hf, h, ?_⟩
    rw [h] at hgone
    simpa [Kin.without, hlive] using hgone

theorem Kinship.children_cases (h : σ.Kinship saved τ) (p : Handle) :
    (τ.view.kin.children p).Sublist (σ.view.kin.children p) ∨ ∃ child,
      σ.view.kin.parent child = none ∧
      τ.view.kin.children p = σ.view.kin.children p ++ [child] := by
  cases h with
  | kept h =>
    rw [h]
    exact .inl (List.Sublist.refl _)
  | @born p' child _ _ _ hn h _ =>
    rw [h]
    by_cases he : p = p'
    · subst he
      exact .inr ⟨child, View.process_eq_none_iff_kin.mp hn, Function.update_self ..⟩
    · left
      simp [Kin.bear, he]
  | ended _ _ _ h =>
    rw [h]
    exact .inl List.filter_sublist

theorem Served.kinship (hs : saved.served? σ.current = some (p, r))
    (h : (σ.setState p fun _ => saved.pastInstruction).Served p r d τ) : σ.Kinship saved τ := by
  cases h with
  | created hn h hg =>
    refine Kinship.born hs ?_ ?_ hg
    · have hlive := View.process_eq_none_iff_kin.mp hn
      rw [kin_setState] at hlive
      exact View.process_eq_none_iff_kin.mpr hlive
    · rw [h.kin]
      simp
  | outlived hl _ h hv hf =>
    apply Kinship.ended (.inl ⟨_, hs, (View.names_congr kin_setState).mp hv⟩) hl
    · exact (View.isFamily_congr kin_setState).mp hf
    · rw [h.kin]
      simp [finish]
  | ended hl _ h hv hf =>
    apply Kinship.ended (.inl ⟨_, hs, (View.names_congr kin_setState).mp hv⟩) hl
    · exact (View.isFamily_congr kin_setState).mp hf
    · rw [h.kin]
      simp [finish]
  | blocked _ _ h =>
    apply Kinship.kept
    rw [h.kin]
    simp
  | uncreated h | unnamed h | passed _ h | consumed _ _ h | signalled h | told _ h =>
    apply Kinship.kept
    rw [h.kin]
    simp [take, assign, consume]

theorem Effect.kinship (h : σ.Effect saved d τ) : σ.Kinship saved τ := by
  cases h with
  | unasked | passedUp => exact .kept rfl
  | spurious _ h => exact .kept h.kin
  | sliceIdle _ _ h => exact .kept h.kin
  | sliceEnded _ _ h => exact .kept (h.kin.trans kin_preempt)
  | ticked _ h => exact .kept (h.kin.trans kin_tick)
  | drained _ h => exact .kept (h.kin.trans kin_serveAll)
  | served hm hc h => exact h.kinship (SavedState.served?_eq_some.mpr ⟨hm, hc⟩)
  | died hm hc hl _ h hx hs hf =>
    apply Kinship.ended (.inr ⟨_, _, _, hm, hc, hx, hs, rfl⟩) hl hf
    rw [h.kin]
    simp [finish]

end Scene

end Nucleus
