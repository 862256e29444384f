import Mathlib.Logic.Relation
import Mathlib.Data.List.Basic
import Nucleus.Process.Descriptor

/-!
# The processes as lists

A view of the nucleus without links: what each live process is, who stands in which queue in which
order, whose children are whose, oldest first, and under which generation each slot was taken last.
Links, rings and the directory are ways to write a view down; what an operation means is how it
changes the view. The changes are few: a process joins the end of a queue or leaves the one it is
in, is adopted or orphaned, is created, or is gone.
-/
namespace Nucleus
open Relation

/-- A queue of processes. -/
inductive Station
  | ready
  | semaphore (key : SemKey)
deriving DecidableEq

/-- A process, apart from the links that thread it into queues. -/
structure Process where
  parent : Option Handle := none
  station : Option Station := none
  state : SavedState := {}
  cpuTime : Word := 0
  support : Option SupportArea := none

structure View where
  process : Handle → Option Process
  queue : Station → List Handle
  children : Handle → List Handle
  /-- The generation under which each slot was taken last. -/
  generation : UInt16 → UInt16

namespace View
variable {v : View} {p q c : Handle} {d : Process} {s : Station} {f : Process → Process}

def IsChild (v : View) (c p : Handle) : Prop := ∃ d, v.process c = some d ∧ d.parent = some p

/-- Lists and processes agree, parents are live, and nobody is below itself. -/
structure Wf (v : View) : Prop where
  mem_queue : ∀ s p, p ∈ v.queue s ↔ ∃ d, v.process p = some d ∧ d.station = some s
  mem_children : ∀ p c, c ∈ v.children p ↔ v.IsChild c p
  parent_live : ∀ {c p}, v.IsChild c p → ∃ e, v.process p = some e
  forest : WellFounded v.IsChild

def empty : View := ⟨fun _ => none, fun _ => [], fun _ => [], fun _ => 0⟩

/-- A process that stands nowhere. -/
def Loose (v : View) (p : Handle) : Prop := ∃ x, v.process p = some x ∧ x.station = none

def alter (v : View) (p : Handle) (f : Process → Process) : View :=
  { v with process := fun q => if q = p then (v.process q).map f else v.process q }

def join (v : View) (p : Handle) (s : Station) : View :=
  { v.alter p ({ · with station := some s }) with
    queue := Function.update v.queue s (v.queue s ++ [p]) }

def leave (v : View) (p : Handle) : View :=
  { v.alter p ({ · with station := none }) with queue := fun s => (v.queue s).filter (· != p) }

def leaveAll (v : View) (l : List Handle) : View := l.foldl leave v

def joinAll (v : View) (l : List Handle) (s : Station) : View := l.foldl (·.join · s) v

def adopt (v : View) (p c : Handle) : View :=
  { v.alter c ({ · with parent := some p }) with
    children := Function.update v.children p (v.children p ++ [c]) }

def orphan (v : View) (c : Handle) : View :=
  { v.alter c ({ · with parent := none }) with children := fun p => (v.children p).filter (· != c) }

def create (v : View) (p : Handle) (d : Process) : View :=
  { v with
    process := Function.update v.process p (some d)
    generation := Function.update v.generation p.slot p.generation }

def without (v : View) (dead : List Handle) : View where
  process p := if p ∈ dead then none else v.process p
  queue s := (v.queue s).filter (· ∉ dead)
  children p := (v.children p).filter (· ∉ dead)
  generation := v.generation

theorem without_nil (v : View) : v.without [] = v := by
  simp [without]

theorem without_without (v : View) (a b : List Handle) :
    (v.without a).without b = v.without (a ++ b) := by
  simp only [without, List.filter_filter, View.mk.injEq, and_true]
  refine ⟨funext fun p => ?_, funext fun s => ?_, funext fun p => ?_⟩
  · by_cases hb : p ∈ b <;> by_cases ha : p ∈ a <;> simp [ha, hb]
  · refine List.filter_congr fun x _ => ?_
    by_cases hb : x ∈ b <;> by_cases ha : x ∈ a <;> simp [ha, hb]
  · refine List.filter_congr fun x _ => ?_
    by_cases hb : x ∈ b <;> by_cases ha : x ∈ a <;> simp [ha, hb]

theorem alter_create : (v.create p d).alter p f = v.create p (f d) := by
  simp only [alter, create, View.mk.injEq, and_true]
  funext q
  by_cases hq : q = p <;> simp [hq]

theorem ne_of_process (hp : v.process p = some d) (hq : v.process q = none) : p ≠ q := by
  rintro rfl
  rw [hq] at hp
  cases hp

theorem process_alter_of_ne (h : q ≠ p) : (v.alter p f).process q = v.process q := by
  simp [alter, h]

theorem process_alter_self (h : v.process p = some d) : (v.alter p f).process p = some (f d) := by
  simp [alter, h]

theorem process_alter_eq_self (h : v.process p = some d) (hf : f d = d) :
    (v.alter p f).process = v.process := by
  funext q
  by_cases hq : q = p
  · rw [hq, process_alter_self h, hf, h]
  · exact process_alter_of_ne hq

theorem isChild_alter (hf : ∀ d, (f d).parent = d.parent) :
    (v.alter p f).IsChild = v.IsChild := by
  funext c q
  unfold IsChild alter
  by_cases h : c = p
  · cases hc : v.process c <;> simp [← h, hc, hf]
  · simp [h]

theorem exists_process_alter :
    (∃ e, (v.alter p f).process q = some e) ↔ ∃ e, v.process q = some e := by
  unfold alter
  by_cases h : q = p
  · cases hc : v.process q <;> simp [← h, hc]
  · simp [h]

theorem filter_ne_of_notMem {l : List Handle} (h : p ∉ l) : l.filter (· != p) = l := by
  refine List.filter_eq_self.mpr fun q hq => bne_iff_ne.mpr ?_
  rintro rfl
  exact h hq

theorem queue_leave_of_notMem (h : p ∉ v.queue s) : (v.leave p).queue s = v.queue s :=
  filter_ne_of_notMem h

section
variable {dead : List Handle}

theorem without_congr {w : View} (hp : ∀ q, q ∉ dead → w.process q = v.process q)
    (hq : ∀ s, (w.queue s).filter (· ∉ dead) = (v.queue s).filter (· ∉ dead))
    (hc : ∀ p, (w.children p).filter (· ∉ dead) = (v.children p).filter (· ∉ dead))
    (hg : w.generation = v.generation) : w.without dead = v.without dead := by
  simp only [without, View.mk.injEq]
  refine ⟨funext fun q => ?_, funext hq, funext hc, hg⟩
  by_cases hm : q ∈ dead
  · simp [hm]
  · simpa [hm] using hp q hm

theorem filter_ne_without {l : List Handle} (hp : p ∈ dead) :
    (l.filter (· != p)).filter (· ∉ dead) = l.filter (· ∉ dead) := by
  rw [List.filter_filter]
  refine List.filter_congr fun x _ => ?_
  by_cases hx : x ∈ dead
  · simp [hx]
  · have hxp : x ≠ p := fun e => hx (e ▸ hp)
    simp [hx, hxp]

/-- Where an orphan stood is forgotten with the orphan. -/
theorem orphan_without (hc : c ∈ dead) : (v.orphan c).without dead = v.without dead :=
  without_congr (fun _ hq => process_alter_of_ne fun e => hq (e ▸ hc)) (fun _ => rfl)
    (fun _ => filter_ne_without hc) rfl

theorem leave_without (hp : p ∈ dead) : (v.leave p).without dead = v.without dead :=
  without_congr (fun _ hq => process_alter_of_ne fun e => hq (e ▸ hp))
    (fun _ => filter_ne_without hp)
    (fun _ => rfl) rfl

end

namespace Wf

theorem eq_of_mem_queue (h : v.Wf) {s' : Station} (hp : p ∈ v.queue s) (hp' : p ∈ v.queue s') :
    s = s' := by
  obtain ⟨x, hx, hs⟩ := (h.mem_queue s p).mp hp
  obtain ⟨y, hy, hs'⟩ := (h.mem_queue s' p).mp hp'
  rw [hx] at hy
  cases hy
  exact Option.some.inj (hs.symm.trans hs')

theorem notMem_queue (h : v.Wf) (hp : v.process p = some d) (hd : d.station = none) :
    p ∉ v.queue s := by
  intro hm
  obtain ⟨e, he, hs⟩ := (h.mem_queue s p).mp hm
  rw [hp] at he
  cases he
  rw [hd] at hs
  cases hs

theorem notMem_children (h : v.Wf) (hc : v.process c = some d) (hd : d.parent = none) :
    c ∉ v.children p := by
  intro hm
  obtain ⟨e, he, hp⟩ := (h.mem_children p c).mp hm
  rw [hc] at he
  cases he
  rw [hd] at hp
  cases hp

theorem empty : View.empty.Wf where
  mem_queue s p := by simp [View.empty]
  mem_children p c := by simp [View.empty, IsChild]
  parent_live h := by simp [View.empty, IsChild] at h
  forest := ⟨fun a => ⟨a, fun b hb => by simp [View.empty, IsChild] at hb⟩⟩

theorem leave_eq_self (h : v.Wf) (hp : v.Loose p) : v.leave p = v := by
  obtain ⟨x, hx, hs⟩ := hp
  have hprocess : (v.leave p).process = v.process := process_alter_eq_self hx (by rw [← hs])
  have hqueue : (v.leave p).queue = v.queue := funext fun _ =>
    queue_leave_of_notMem (h.notMem_queue hx hs)
  exact congrArg₂ (fun process queue =>
    View.mk process queue v.children v.generation) hprocess hqueue

theorem orphan_eq_self (h : v.Wf) (hc : v.process c = some d) (hd : d.parent = none) :
    v.orphan c = v := by
  have hprocess : (v.orphan c).process = v.process := process_alter_eq_self hc (by rw [← hd])
  have hchildren : (v.orphan c).children = v.children :=
    funext fun _ => filter_ne_of_notMem (h.notMem_children hc hd)
  exact congrArg₂ (fun process children => View.mk process v.queue children v.generation)
    hprocess hchildren

theorem queue_without (h : v.Wf) (hp : v.process p = some d) (hd : d.station = none) :
    (v.without [p]).queue = v.queue := by
  refine funext fun s => List.filter_eq_self.mpr fun q hq => ?_
  have hne : q ≠ p := fun e => h.notMem_queue hp hd (e ▸ hq)
  simpa using hne

theorem children_without (h : v.Wf) (hp : v.process p = some d) (hd : d.parent = none) :
    (v.without [p]).children = v.children := by
  refine funext fun s => List.filter_eq_self.mpr fun q hq => ?_
  have hne : q ≠ p := fun e => h.notMem_children hp hd (e ▸ hq)
  simpa using hne

theorem requeue (h : v.Wf) (p : Handle) (f : Process → Process) (hf : ∀ d, (f d).parent = d.parent)
    (queue : Station → List Handle)
    (hq : ∀ s q, q ∈ queue s ↔ ∃ d, (v.alter p f).process q = some d ∧ d.station = some s) :
    ({ v.alter p f with queue } : View).Wf where
  mem_queue := hq
  mem_children q c := by
    have hc := h.mem_children q c
    rwa [← isChild_alter (p := p) hf] at hc
  parent_live {c q} hc := by
    have hc' : (v.alter p f).IsChild c q := hc
    rw [isChild_alter hf] at hc'
    exact exists_process_alter.mpr (h.parent_live hc')
  forest := by
    have hw := h.forest
    rwa [← isChild_alter (p := p) hf] at hw

theorem alter (h : v.Wf) (hf : ∀ d, (f d).parent = d.parent) (hs : ∀ d, (f d).station = d.station) :
    (v.alter p f).Wf := by
  refine h.requeue p f hf v.queue fun s q => (h.mem_queue s q).trans ?_
  by_cases hp : q = p
  · cases hc : v.process q <;> simp [View.alter, ← hp, hc, hs]
  · rw [process_alter_of_ne hp]

theorem join (h : v.Wf) (hp : v.process p = some d) (hd : d.station = none) : (v.join p s).Wf := by
  refine h.requeue p ({ · with station := some s }) (fun _ => rfl) _ fun s' q => ?_
  have hn : p ∉ v.queue s' := h.notMem_queue hp hd
  by_cases hq : q = p
  · subst hq
    rw [process_alter_self hp]
    by_cases he : s' = s
    · subst he
      simp
    · simp [he, hn, Ne.symm he]
  · rw [process_alter_of_ne hq, ← h.mem_queue s' q]
    by_cases he : s' = s
    · subst he
      simp [hq]
    · simp [he]

theorem leave (h : v.Wf) : (v.leave p).Wf := by
  refine h.requeue p ({ · with station := none }) (fun _ => rfl) _ fun s q => ?_
  by_cases hq : q = p
  · subst hq
    cases hc : v.process q <;> simp [View.alter, hc]
  · rw [process_alter_of_ne hq, ← h.mem_queue s q]
    simp [hq]

theorem orphan (h : v.Wf) : (v.orphan c).Wf := by
  have hchild : ∀ x p, (v.orphan c).IsChild x p ↔ v.IsChild x p ∧ x ≠ c := by
    intro x p
    unfold IsChild View.orphan View.alter
    by_cases hx : x = c
    · cases hc : v.process x <;> simp [← hx, hc]
    · simp [hx]
  refine ⟨fun s q => (h.mem_queue s q).trans ?_, fun p x => ?_, fun hx => ?_, ?_⟩
  · unfold View.orphan View.alter
    by_cases hq : q = c
    · cases hc : v.process q <;> simp [← hq, hc]
    · simp [hq]
  · rw [hchild, ← h.mem_children]
    simp [View.orphan]
  · exact exists_process_alter.mpr (h.parent_live ((hchild _ _).mp hx).1)
  · exact Subrelation.wf (fun hx => ((hchild _ _).mp hx).1) h.forest

theorem children_eq_nil (h : v.Wf) (hp : v.process p = none) : v.children p = [] := by
  refine List.eq_nil_iff_forall_not_mem.mpr fun c hc => ?_
  obtain ⟨d, hd⟩ := h.parent_live ((h.mem_children p c).mp hc)
  rw [hp] at hd
  cases hd

theorem not_below_of_childless (h : v.Wf) (hn : v.children c = []) (hpc : p ≠ c) :
    ¬ReflTransGen v.IsChild p c := fun hr => by
  rcases ReflTransGen.cases_tail hr with e | ⟨q, _, hq⟩
  · exact hpc e.symm
  · rw [← h.mem_children, hn] at hq
    cases hq

/-- A process without a parent may be adopted by a live one that is not below it. -/
theorem adopt (h : v.Wf) (hp : ∃ e, v.process p = some e) (hc : v.process c = some d)
    (hd : d.parent = none) (hpc : ¬ReflTransGen v.IsChild p c) : (v.adopt p c).Wf := by
  have hchild : ∀ x q, (v.adopt p c).IsChild x q ↔ v.IsChild x q ∨ (x = c ∧ q = p) := by
    intro x q
    unfold IsChild View.adopt View.alter
    by_cases hx : x = c
    · subst hx
      simp [hc, hd, eq_comm]
    · simp [hx]
  refine ⟨fun s q => (h.mem_queue s q).trans ?_, fun q x => ?_, fun hx => ?_, ⟨fun a => ?_⟩⟩
  · unfold View.adopt View.alter
    by_cases hq : q = c
    · cases hc : v.process q <;> simp [← hq, hc]
    · simp [hq]
  · rw [hchild, ← h.mem_children]
    by_cases hq : q = p
    · simp [View.adopt, hq]
    · simp [View.adopt, hq]
  · refine exists_process_alter.mpr ?_
    rcases (hchild _ _).mp hx with hx | ⟨_, rfl⟩
    · exact h.parent_live hx
    · exact hp
  · -- below whoever is not above `p` nothing is new, and `c` is not above `p`
    have hacc : ∀ a, ¬ReflTransGen v.IsChild p a → Acc (v.adopt p c).IsChild a := by
      intro a
      induction a using h.forest.induction with
      | _ a ih =>
        refine fun ha => ⟨_, fun x hx => ?_⟩
        rcases (hchild _ _).mp hx with hx | ⟨_, rfl⟩
        · exact ih x hx fun hr => ha (hr.tail hx)
        · exact (ha .refl).elim
    induction a using h.forest.induction with
    | _ a ih =>
      refine ⟨_, fun x hx => ?_⟩
      rcases (hchild _ _).mp hx with hx | ⟨rfl, _⟩
      · exact ih x hx
      · exact hacc _ hpc

theorem create (h : v.Wf) (hp : v.process p = none) (hs : d.station = none) (hd : d.parent = none) :
    (v.create p d).Wf := by
  have hchild : (v.create p d).IsChild = v.IsChild := by
    funext x q
    unfold IsChild View.create
    by_cases hx : x = p
    · subst hx
      simp [hp, hd]
    · simp [hx]
  refine ⟨fun s q => (h.mem_queue s q).trans ?_, fun q x => ?_, fun hx => ?_, ?_⟩
  · unfold View.create
    by_cases hq : q = p
    · subst hq
      simp [hp, hs]
    · simp [hq]
  · rw [hchild]
    exact h.mem_children q x
  · rw [hchild] at hx
    obtain ⟨e, he⟩ := h.parent_live hx
    have hne : ∀ y, v.process y = some e → y ≠ p := fun y hy e => by
      rw [e, hp] at hy
      cases hy
    exact ⟨e, by simp [View.create, hne _ he, he]⟩
  · rw [hchild]
    exact h.forest

/-- Processes may go when nobody who stays has a parent among them. -/
theorem without (h : v.Wf) {dead : List Handle}
    (hd : ∀ x p, v.IsChild x p → p ∈ dead → x ∈ dead) : (v.without dead).Wf := by
  have hchild : ∀ x q, (v.without dead).IsChild x q ↔ v.IsChild x q ∧ x ∉ dead := by
    intro x q
    unfold IsChild View.without
    by_cases hx : x ∈ dead <;> simp [hx]
  refine ⟨fun s q => ?_, fun q x => ?_, fun {x q} hx => ?_, ?_⟩
  · have hq := h.mem_queue s q
    by_cases hm : q ∈ dead <;> simp [View.without, hm, hq]
  · rw [hchild, ← h.mem_children]
    simp [View.without]
  · have hq := (hchild _ _).mp hx
    obtain ⟨e, he⟩ := h.parent_live hq.1
    have hn : q ∉ dead := fun hm => hq.2 (hd x q hq.1 hm)
    exact ⟨e, by simp [View.without, he, hn]⟩
  · exact Subrelation.wf (fun hx => ((hchild _ _).mp hx).1) h.forest

end Wf
end View
end Nucleus
