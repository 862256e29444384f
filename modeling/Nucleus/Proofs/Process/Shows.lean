import Nucleus.Process.Family
import Nucleus.Proofs.Process.Arena
import Nucleus.Proofs.View

/-!
# A table shows a view

The table, together with the rings of the queues, writes a view down: live descriptors are the
processes, tags and rings tell the same story, and every link belongs to a ring. Each change of the
table is paired with the change of the view it stands for.
-/
namespace Nucleus

/-- The queue that a tag and a semaphore speak of. -/
def Location.station? : Location → Option SemKey → Option Station
  | .ready, _ => some .ready
  | .blocked, k => k.map .semaphore
  | _, _ => none

theorem Location.station?_eq_semaphore {l : Location} {w : Option SemKey} {k : SemKey} :
    l.station? w = some (.semaphore k) ↔ l = .blocked ∧ w = some k := by
  cases l <;> simp [station?]

theorem Location.station?_eq_ready {l : Location} {w : Option SemKey} :
    l.station? w = some .ready ↔ l = .ready := by
  cases l <;> simp [station?]

def Descriptor.process (d : Descriptor) : Process where
  parent := d.parent
  station := d.location.station? d.waitingOn
  state := d.state
  cpuTime := d.cpuTime
  support := d.support

@[simp] theorem Descriptor.process_setLink (d : Descriptor) (k : Link) (c : Chain) :
    (d.setLink k c).process = d.process := by
  simp [Descriptor.process]

namespace Table
variable {t u : Table} {p q : Handle} {d e : Descriptor} {f : Descriptor → Descriptor} {c : Chain}
variable {l : List Handle}

theorem find?_map {g : Descriptor → Descriptor} (he : u.entry p = g (t.entry p))
    (hh : (g (t.entry p)).handle = (t.entry p).handle)
    (hl : (g (t.entry p)).location = (t.entry p).location) : u.find? p = (t.find? p).map g := by
  ext d
  rw [find?_eq_some_iff, Option.map_eq_some_iff]
  constructor
  · rintro ⟨hp, rfl, h1, h2⟩
    rw [he] at h1 h2 ⊢
    exact ⟨t.entry p, find?_eq_some_iff.mpr ⟨hp, rfl, hh ▸ h1, hl ▸ h2⟩, rfl⟩
  · rintro ⟨e, ht, rfl⟩
    obtain ⟨hp, rfl, h1, h2⟩ := find?_eq_some_iff.mp ht
    exact ⟨hp, he, hh.trans h1, hl ▸ h2⟩

theorem Relinked.find? (h : Relinked c l t u) (p : Handle) :
    ∃ k, u.find? p = (t.find? p).map (·.setLink k c) := by
  obtain ⟨k, hk⟩ := h.entry p
  exact ⟨k, find?_map (g := fun d => d.setLink k c) hk (by simp) (by simp)⟩

theorem Pooled.relinked (h : t.Pooled) (hl : Relinked c l t u) : u.Pooled := by
  refine h.congr hl.free (fun q _ => ?_) (fun q _ => ?_) fun q _ _ => ?_ <;>
    obtain ⟨k, hk⟩ := hl.entry q <;> simp [hk]

theorem find?_of_free (h : (t.entry p).location = .free) (hs : q.slot = p.slot) :
    t.find? q = none := by
  rw [Option.eq_none_iff_forall_ne_some]
  intro d hd
  have hl := location_of_find? hd
  rw [← entry_of_find? hd, entry_congr hs] at hl
  exact hl h

theorem find?_of_slot (hd : t.find? p = some d) (hs : q.slot = p.slot) (hq : q ≠ p) :
    t.find? q = none := by
  rw [Option.eq_none_iff_forall_ne_some]
  exact fun e he => hq (eq_of_find? he hd hs)

/-- One slot was changed, which no handle but `p` names before or after. -/
theorem find?_eq_ite (he : ∀ q, q.slot ≠ p.slot → u.entry q = t.entry q)
    (ht : ∀ q, q.slot = p.slot → q ≠ p → t.find? q = none)
    (hu : ∀ q, q.slot = p.slot → q ≠ p → u.find? q = none) (q : Handle) :
    u.find? q = if q = p then u.find? p else t.find? q := by
  by_cases hq : q = p
  · rw [if_pos hq, hq]
  · rw [if_neg hq]
    by_cases hs : q.slot = p.slot
    · rw [ht q hs hq, hu q hs hq]
    · simpa using find?_map (g := id) (he q hs) rfl rfl

theorem find?_alter (hd : t.find? p = some d) (hh : (f d).handle = d.handle)
    (hl : (f d).location ≠ .free) (q : Handle) :
    (t.alter p f).find? q = if q = p then some (f d) else t.find? q := by
  obtain ⟨hp, rfl, h1, _⟩ := find?_eq_some_iff.mp hd
  have hfd : (t.alter p f).find? p = some (f (t.entry p)) :=
    find?_eq_some_iff.mpr ⟨hp, by rw [entry_alter hp, if_pos rfl], hh.trans h1, hl⟩
  rw [← hfd]
  exact find?_eq_ite (fun q hs => by rw [entry_alter hp, if_neg hs]) (fun _ => find?_of_slot hd)
    (fun _ => find?_of_slot hfd) q

theorem Pooled.find?_alloc (h : t.Pooled) (ha : t.alloc = some (p, u)) (q : Handle) :
    u.find? q = if q = p then some { handle := p } else t.find? q := by
  obtain ⟨hp, hfree, _, he, _⟩ := h.alloc ha
  have hborn : u.find? p = some { handle := p } :=
    find?_eq_some_iff.mpr ⟨hp, by rw [he, if_pos rfl], rfl, by simp⟩
  rw [← hborn]
  exact find?_eq_ite (fun q hs => (he q).trans (if_neg hs)) (fun q hs _ => find?_of_free hfree hs)
    (fun _ => find?_of_slot hborn) q

theorem find?_release (hd : t.find? p = some d)
    (he : ∀ q, u.entry q = if q.slot = p.slot then
      { t.entry q with location := .free } else t.entry q) (q : Handle) :
    u.find? q = if q = p then none else t.find? q := by
  have hdead : ∀ q, q.slot = p.slot → u.find? q = none := fun _ =>
    find?_of_free (by rw [he, if_pos rfl])
  rw [← hdead p rfl]
  exact find?_eq_ite (fun q hs => (he q).trans (if_neg hs)) (fun _ => find?_of_slot hd)
    (fun q hs _ => hdead q hs) q

/-- The live descriptors are the processes, and their tags make sense. -/
structure Registers (t : Table) (process : Handle → Option Process) : Prop where
  pool : t.Pooled
  process : ∀ p, (t.find? p).map (·.process) = process p
  tagged : ∀ p d, t.find? p = some d → (d.waitingOn.isSome ↔ d.location = .blocked)

/-- The ring of a process's children, of no use for a handle that names no process. -/
def childRing (t : Table) (p : Handle) : Ring := ((t.find? p).map (·.children)).getD {}

namespace Registers
variable {process : Handle → Option Process} {x y : Process}

theorem find? (h : t.Registers process) (hp : process p = some x) :
    ∃ d, t.find? p = some d ∧ d.process = x := by
  rw [← h.process p] at hp
  exact Option.map_eq_some_iff.mp hp

theorem process_eq (h : t.Registers process) (hd : t.find? p = some d) :
    process p = some d.process := by
  rw [← h.process p, hd, Option.map_some]

theorem eq_of_slot (h : t.Registers process) (hp : process p = some x) (hq : process q = some y)
    (e : p.slot = q.slot) : p = q := by
  obtain ⟨d, hd, _⟩ := h.find? hp
  obtain ⟨d', hd', _⟩ := h.find? hq
  exact eq_of_find? hd hd' e

theorem length_le (h : t.Registers process) (hl : ∀ p ∈ l, ∃ x, process p = some x) (hn : l.Nodup) :
    l.length ≤ maxProcesses := by
  refine length_le_of_isLive (t := t) (fun p hp => ?_) hn
  obtain ⟨x, hx⟩ := hl p hp
  obtain ⟨d, hd, _⟩ := h.find? hx
  exact Option.isSome_iff_exists.mpr ⟨d, hd⟩

theorem unqueued (h : t.Registers process) (hd : t.find? p = some d)
    (hs : d.process.station = none) : d.location = .unqueued ∧ d.waitingOn = none := by
  have ht := h.tagged p d hd
  have hl := location_of_find? hd
  simp only [Descriptor.process] at hs
  cases hloc : d.location <;> cases hw : d.waitingOn <;> simp_all [Location.station?]

theorem relinked (h : t.Registers process) (hl : Relinked c l t u) : u.Registers process where
  pool := h.pool.relinked hl
  process q := by
    obtain ⟨k, hk⟩ := hl.find? q
    rw [hk, Option.map_map, ← h.process q]
    congr 1
    funext d
    simp
  tagged q d hd := by
    obtain ⟨k, hk⟩ := hl.find? q
    rw [hk] at hd
    obtain ⟨e, he, rfl⟩ := Option.map_eq_some_iff.mp hd
    simpa using h.tagged q e he

theorem alter (h : t.Registers process) (hd : t.find? p = some d) (hh : (f d).handle = d.handle)
    (hl : (f d).location ≠ .free) (ht : (f d).waitingOn.isSome ↔ (f d).location = .blocked) :
    (t.alter p f).Registers fun q => if q = p then some (f d).process else process q where
  pool := h.pool.alter hd hh hl
  process q := by
    rw [find?_alter hd hh hl]
    split
    · rfl
    · exact h.process q
  tagged q e he := by
    rw [find?_alter hd hh hl] at he
    split at he
    · cases he
      exact ht
    · exact h.tagged q e he

end Registers

theorem Relinked.childRing (h : Relinked c l t u) : u.childRing = t.childRing := by
  funext q
  obtain ⟨k, hk⟩ := h.find? q
  rw [Table.childRing, hk, Option.map_map, Table.childRing]
  congr 2
  funext d
  simp

theorem childRing_alter (hd : t.find? p = some d) (hh : (f d).handle = d.handle)
    (hl : (f d).location ≠ .free) :
    (t.alter p f).childRing = Function.update t.childRing p (f d).children := by
  funext q
  rw [childRing, find?_alter hd hh hl, Function.update_apply]
  split <;> rfl

section
variable {ι : Type} {ring : ι → Ring} {list : ι → List Handle}

theorem Rings.alter (h : t.Rings c ring list) (hd : t.find? p = some d)
    (hf : (f d).link c = d.link c) : (t.alter p f).Rings c ring list := by
  refine h.congr fun q _ => ?_
  rw [entry_alter (inPool_of_find? hd)]
  split
  · next e => rw [entry_congr e, entry_of_find? hd, hf]
  · rfl

theorem Rings.relinked (h : t.Rings c ring list) {e : Chain} (hl : Relinked e l t u) (hc : c ≠ e) :
    u.Rings c ring list := by
  refine h.congr fun q _ => ?_
  obtain ⟨k, hk⟩ := hl.entry q
  rw [hk, Descriptor.link_setLink, if_neg hc]

end

/-- A child came to another parent, or to none: of the descriptors only the links of the siblings in
`l`, the children of `p` and the parent of `child` are not as before. -/
structure Replanted (p child : Handle) (l : List Handle) (parent : Option Handle) (t u : Table) :
    Prop where
  free : u.free = t.free
  entry : ∀ q, ∃ link ring, u.entry q = { t.entry q with
    siblingLink := link
    children := ring
    parent := if q.slot = child.slot then parent else (t.entry q).parent }
  link : ∀ q, q.slot ∉ l.map (·.slot) → (u.entry q).siblingLink = (t.entry q).siblingLink
  children : ∀ q, q.slot ≠ p.slot → (u.entry q).children = (t.entry q).children

theorem Relinked.replanted (h : Relinked .sibling l t u) (hp : p.InPool) (hq : q.InPool) {r : Ring}
    {parent : Option Handle} :
    Replanted p q l parent t ((u.alter p ({ · with children := r })).alter q
      ({ · with parent })) where
  free := by rw [free_alter, free_alter, h.free]
  entry x := by
    obtain ⟨k, hk⟩ := h.entry x
    refine ⟨k, if x.slot = p.slot then r else (t.entry x).children, ?_⟩
    rw [entry_alter hq, entry_alter hp, hk]
    split <;> split <;> rfl
  link x hx := by
    have hlink : (u.entry x).siblingLink = (t.entry x).siblingLink := h.link x hx
    rw [entry_alter hq, entry_alter hp, ← hlink]
    split <;> split <;> rfl
  children x hx := by
    obtain ⟨k, hk⟩ := h.entry x
    rw [entry_alter hq, entry_alter hp, if_neg hx, hk]
    split <;> rfl

/-- Every slot was taken last under the generation that is said. -/
def Dated (t : Table) (generation : UInt16 → UInt16) : Prop :=
  ∀ p, (t.entry p).handle.generation = generation p.slot

section
variable {generation : UInt16 → UInt16}

theorem Dated.relinked (h : t.Dated generation) (hl : Relinked c l t u) : u.Dated generation := by
  intro q
  obtain ⟨k, hk⟩ := hl.entry q
  rw [hk, Descriptor.handle_setLink]
  exact h q

theorem Dated.alter (h : t.Dated generation) (hd : t.find? p = some d)
    (hh : (f d).handle = d.handle) : (t.alter p f).Dated generation := by
  intro q
  rw [entry_alter (inPool_of_find? hd)]
  split
  · next hs =>
    rw [entry_congr hs, entry_of_find? hd, hh, ← entry_of_find? hd, ← entry_congr hs]
    exact h q
  · exact h q

end

/-- What a table and the rings of the queues write down. -/
structure Shows (t : Table) (ring : Station → Ring) (v : View) : Prop where
  registers : t.Registers v.process
  queues : t.Rings .queue ring v.queue
  families : t.Rings .sibling t.childRing v.children
  wf : v.Wf
  dated : t.Dated v.generation

namespace Shows
variable {ring ring' : Station → Ring} {v : View} {x : Process} {s : Station}

theorem nodup_queue (h : t.Shows ring v) (s : Station) : (v.queue s).Nodup :=
  (h.queues.holds s).nodup

theorem nodup_children (h : t.Shows ring v) (p : Handle) : (v.children p).Nodup :=
  (h.families.holds p).nodup

theorem not_mem_queue (h : t.Shows ring v) (hp : v.process p = some x) (hx : x.station = none) :
    ∀ s, ∀ q ∈ v.queue s, q.slot ≠ p.slot := by
  intro s q hq e
  obtain ⟨y, hy, _⟩ := (h.wf.mem_queue s q).mp hq
  obtain rfl := h.registers.eq_of_slot hy hp e
  exact h.wf.notMem_queue hp hx hq

theorem not_mem_children (h : t.Shows ring v) (hp : v.process p = some x) (hx : x.parent = none) :
    ∀ s, ∀ q ∈ v.children s, q.slot ≠ p.slot := by
  intro s q hq e
  obtain ⟨y, hy, _⟩ := (h.wf.mem_children s q).mp hq
  obtain rfl := h.registers.eq_of_slot hy hp e
  exact h.wf.notMem_children hp hx hq

/-- A change of one descriptor that concerns none of the links. -/
theorem alter (h : t.Shows ring v) (hd : t.find? p = some d) {g : Process → Process}
    (hh : (f d).handle = d.handle) (hl : (f d).location = d.location)
    (hk : ∀ c, (f d).link c = d.link c) (hc : (f d).children = d.children)
    (hw : (f d).waitingOn = d.waitingOn) (hg : (f d).process = g d.process)
    (hgp : ∀ y, (g y).parent = y.parent) (hgs : ∀ y, (g y).station = y.station) :
    (t.alter p f).Shows ring (v.alter p g) where
  registers := by
    have hr := h.registers.alter hd hh (hl ▸ location_of_find? hd)
      (by rw [hl, hw]; exact h.registers.tagged p d hd)
    have hv : (fun q => if q = p then some (f d).process else v.process q) =
        (v.alter p g).process := by
      funext q
      by_cases hq : q = p
      · simp [View.alter, hq, h.registers.process_eq hd, hg]
      · simp [View.alter, hq]
    exact hv ▸ hr
  queues := h.queues.alter hd (hk _)
  families := by
    have hr : (t.alter p f).childRing = t.childRing := by
      rw [childRing_alter hd hh (hl ▸ location_of_find? hd), hc]
      refine Function.update_eq_self_iff.mpr ?_
      rw [childRing, hd]
      rfl
    rw [hr]
    exact h.families.alter hd (hk _)
  wf := h.wf.alter hgp hgs
  dated := h.dated.alter hd hh

/-- The links of the queues were changed, and then the tag and the semaphore of one process. -/
theorem requeue (h : t.Shows ring v) (hd : t.find? p = some d) (hl : Relinked .queue l t u)
    {queue : Station → List Handle} (hr : u.Rings .queue ring' queue) {loc : Location}
    {w : Option SemKey} (hf : ∀ e, e.location = d.location → e.waitingOn = d.waitingOn →
      f e = { e with location := loc, waitingOn := w })
    (hloc : loc ≠ .free) (hw : w.isSome ↔ loc = .blocked)
    (hwf : ({ v.alter p ({ · with station := loc.station? w }) with queue } : View).Wf) :
    (u.alter p f).Shows ring' { v.alter p ({ · with station := loc.station? w }) with queue } := by
  obtain ⟨k, hk⟩ := hl.find? p
  rw [hd, Option.map_some] at hk
  have hfk : f (d.setLink k .queue) = { d.setLink k .queue with location := loc, waitingOn := w } :=
    hf _ (by simp) (by simp)
  refine ⟨?_, hr.alter hk ?_, ?_, hwf, (h.dated.relinked hl).alter hk (by rw [hfk])⟩
  · have hr := (h.registers.relinked hl).alter (f := f) hk (by rw [hfk])
      (by rwa [hfk]) (by rwa [hfk])
    have hv : (fun q => if q = p then some (f (d.setLink k .queue)).process else v.process q) =
        (v.alter p ({ · with station := loc.station? w })).process := by
      funext q
      by_cases hq : q = p
      · rw [hfk]
        simp [View.alter, hq, h.registers.process_eq hd, Descriptor.process]
      · simp [View.alter, hq]
    exact hv ▸ hr
  · rw [hfk]
    rfl
  · have hc : (u.alter p f).childRing = t.childRing := by
      rw [childRing_alter hk (by rw [hfk]) (by rwa [hfk]), hl.childRing, hfk]
      refine Function.update_eq_self_iff.mpr ?_
      simp [childRing, hd]
    rw [hc]
    refine (h.families.relinked hl (by decide)).alter hk ?_
    rw [hfk]
    rfl

/-- A process that stands nowhere goes to the end of a queue. -/
theorem join (h : t.Shows ring v) (hp : v.process p = some x) (hx : x.station = none) (s : Station)
    (loc : Location) (k : Option SemKey) (hs : loc.station? k = some s)
    (hf : ∀ e : Descriptor, e.waitingOn = none → f e = { e with location := loc, waitingOn := k })
    (hk : k.isSome ↔ loc = .blocked) :
    ∃ r u w, (ring s).insert t .queue p = .ok (r, u) ∧ u.modify p f = .ok w ∧
      w.Shows (Function.update ring s r) (v.join p s) ∧ w.free = t.free := by
  obtain ⟨d, hd, rfl⟩ := h.registers.find? hp
  obtain ⟨hdl, hdw⟩ := h.registers.unqueued hd hx
  have hpool := inPool_of_find? hd
  obtain ⟨r, u, hi, hl, hr⟩ := h.queues.insert hpool (h.not_mem_queue hp hx) s
  have hloc : loc ≠ .free := by
    rintro rfl
    cases hs
  have hwf := h.wf.join (s := s) hp hx
  refine ⟨r, u, _, hi, modify_eq hpool, ?_, free_alter.trans hl.free⟩
  have hj : v.join p s = { v.alter p ({ · with station := loc.station? k }) with
      queue := Function.update v.queue s (v.queue s ++ [p]) } := by
    rw [hs]
    rfl
  rw [hj] at hwf ⊢
  exact h.requeue hd hl hr (fun e _ he => hf e (he.trans hdw)) hloc hk hwf

/-- A process was taken out of the links of its queue. -/
theorem leave (h : t.Shows ring v) (hm : p ∈ v.queue s) (hl : Relinked .queue l t u)
    (hr : u.Rings .queue ring' fun s => (v.queue s).filter (· != p))
    (hf : ∀ e : Descriptor, (s = .ready → e.waitingOn = none) →
      f e = { e with location := .unqueued, waitingOn := none }) :
    ∃ w, u.modify p f = .ok w ∧ w.Shows ring' (v.leave p) ∧ w.free = t.free := by
  obtain ⟨x, hx, hs⟩ := (h.wf.mem_queue s p).mp hm
  obtain ⟨d, hd, rfl⟩ := h.registers.find? hx
  refine ⟨_, modify_eq (inPool_of_find? hd), ?_, free_alter.trans hl.free⟩
  refine h.requeue hd hl hr (fun e _ he => hf e fun hready => ?_) (by decide) (by decide) h.wf.leave
  have ht := h.registers.tagged p d hd
  simp only [Descriptor.process, hready] at hs
  rw [he]
  cases hloc : d.location <;> cases hw : d.waitingOn <;> simp_all [Location.station?]

variable {child : Handle}

theorem childRing_eq (hd : t.find? p = some d) : d.children = t.childRing p := by
  simp [childRing, hd]

/-- The links of the siblings were changed, then the children of one
process and the parent of another. -/
theorem refamily (h : t.Shows ring v) (hp : t.find? p = some d) (hc : t.find? child = some e)
    (hl : Relinked .sibling l t u) {r : Ring} {children : Handle → List Handle}
    (hr : u.Rings .sibling (Function.update t.childRing p r) children) {parent : Option Handle}
    (hwf : ({ v.alter child ({ · with parent }) with children } : View).Wf) :
    ∃ w w', u.modify p ({ · with children := r }) = .ok w ∧
      w.modify child ({ · with parent }) = .ok w' ∧
      w'.Shows ring { v.alter child ({ · with parent }) with children } ∧
      Replanted p child l parent t w' := by
  obtain ⟨k, hk⟩ := hl.find? p
  rw [hp, Option.map_some] at hk
  refine ⟨_, _, modify_eq (inPool_of_find? hp), modify_eq (inPool_of_find? hc), ?_, ?_⟩
  · have hlive : (d.setLink k .sibling).location ≠ .free := by simpa using location_of_find? hp
    have hr₁ := (h.registers.relinked hl).alter (f := ({ · with children := r })) hk rfl hlive
      (by simpa using h.registers.tagged p d hp)
    obtain ⟨e', he', heq⟩ : ∃ e', (u.alter p ({ · with children := r })).find? child = some e' ∧
        e'.process = e.process := by
      have hx := hr₁.process child
      by_cases hcp : child = p
      · subst hcp
        rw [hc] at hp
        cases hp
        simpa [Descriptor.process] using hx
      · rw [if_neg hcp, h.registers.process_eq hc] at hx
        simpa [hcp] using Option.map_eq_some_iff.mp hx
    have hlive' : e'.location ≠ .free := location_of_find? he'
    refine ⟨?_, ?_, ?_, hwf, ((h.dated.relinked hl).alter hk rfl).alter he' rfl⟩
    · have hr₂ := hr₁.alter (f := ({ · with parent })) he' rfl hlive' (hr₁.tagged child e' he')
      have hv : (fun q => if q = child then some ({ e' with parent } : Descriptor).process else
          if q = p then some ({ d.setLink k .sibling with children := r } : Descriptor).process
          else v.process q) = (v.alter child ({ · with parent })).process := by
        funext q
        simp only [View.alter]
        by_cases hq : q = child
        · rw [if_pos hq, if_pos hq, hq, h.registers.process_eq hc, ← heq]
          rfl
        · rw [if_neg hq, if_neg hq]
          split
          · next hqp =>
            rw [hqp, h.registers.process_eq hp, ← Descriptor.process_setLink d k .sibling]
            rfl
          · rfl
      exact hv ▸ hr₂
    · refine Rings.alter (Rings.alter (h.queues.relinked hl (by decide)) hk ?_) he' rfl
      rfl
    · have hring :
        ((u.alter p ({ · with children := r })).alter child ({ · with parent })).childRing =
          Function.update t.childRing p r := by
        rw [childRing_alter he' rfl hlive', childRing_alter hk rfl hlive, hl.childRing]
        refine Function.update_eq_self_iff.mpr ?_
        have hx := congrFun (childRing_alter (f := ({ · with children := r })) hk rfl hlive) child
        rw [hl.childRing] at hx
        have hce : e'.children = _ := childRing_eq he'
        rw [← hx, ← hce]
      rw [hring]
      exact Rings.alter (Rings.alter hr hk rfl) he' rfl
  · exact hl.replanted (inPool_of_find? hp) (inPool_of_find? hc)

theorem adopt (h : t.Shows ring v) {y : Process} (hp : v.process p = some y)
    (hc : v.process child = some x) (hx : x.parent = none)
    (hpc : ¬Relation.ReflTransGen v.IsChild p child) :
    ∃ u, t.adopt p child = .ok u ∧ u.Shows ring (v.adopt p child) ∧
      Replanted p child (child :: v.children p) (some p) t u := by
  obtain ⟨d, hd, _⟩ := h.registers.find? hp
  obtain ⟨e, he, rfl⟩ := h.registers.find? hc
  have hcp := inPool_of_find? he
  have hpp := inPool_of_find? hd
  obtain ⟨r, u, hi, hl, hr⟩ := h.families.insert hcp (h.not_mem_children hc hx) p
  obtain ⟨w, w', hw, hw', hs, hf⟩ := h.refamily hd he hl hr (h.wf.adopt ⟨y, hp⟩ hc hx hpc)
  refine ⟨w', ?_, hs, hf⟩
  have hpar : e.parent = none := hx
  simp only [Table.adopt, slot_eq hcp, slot_eq hpp, entry_of_find? he,
    entry_of_find? hd, ok_bind, hpar,
    Option.isSome_none, Bool.false_eq_true, if_false, childRing_eq hd, hi, hw, hw']

theorem orphan_of (h : t.Shows ring v) (hd : t.find? p = some d) (hm : child ∈ v.children p)
    (hl : Relinked .sibling l t u) {r : Ring}
    (hr : u.Rings .sibling (Function.update t.childRing p r) fun q =>
      (v.children q).filter (· != child)) : ∃ w w', u.modify p ({ · with children := r }) = .ok w ∧
      w.modify child ({ · with parent := none }) = .ok w' ∧
      w'.Shows ring (v.orphan child) ∧ Replanted p child l none t w' := by
  obtain ⟨y, hy, _⟩ := (h.wf.mem_children p child).mp hm
  obtain ⟨e, he, _⟩ := h.registers.find? hy
  exact h.refamily hd he hl hr h.wf.orphan

theorem dropFirstChild_nil (h : t.Shows ring v) (hp : v.process p = some x)
    (hn : v.children p = []) : t.dropFirstChild p = .ok (none, t) := by
  obtain ⟨d, hd, _⟩ := h.registers.find? hp
  have hh := h.families.holds p
  rw [hn] at hh
  simp [dropFirstChild, slot_eq (inPool_of_find? hd), entry_of_find? hd,
    childRing_eq hd, Ring.pop_nil hh]

theorem dropFirstChild_cons (h : t.Shows ring v) (hp : v.process p = some x) {cs : List Handle}
    (hn : v.children p = child :: cs) :
    ∃ u, t.dropFirstChild p = .ok (some child, u) ∧ u.Shows ring (v.orphan child) ∧
      Replanted p child (v.children p) none t u := by
  obtain ⟨d, hd, _⟩ := h.registers.find? hp
  obtain ⟨r, u, hi, hl, hr⟩ := h.families.pop hn
  obtain ⟨w, w', hw, hw', hs, hf⟩ := h.orphan_of hd (by simp [hn]) hl hr
  refine ⟨w', ?_, hs, hf⟩
  simp [dropFirstChild, slot_eq (inPool_of_find? hd), entry_of_find? hd,
    childRing_eq hd, hi, hw, hw']

theorem detach_none (h : t.Shows ring v) (hc : v.process child = some x) (hx : x.parent = none) :
    t.detach child = .ok (none, t) := by
  obtain ⟨e, he, rfl⟩ := h.registers.find? hc
  have hpar : e.parent = none := hx
  simp [detach, slot_eq (inPool_of_find? he), entry_of_find? he, hpar]

theorem detach_some (h : t.Shows ring v) (hc : v.process child = some x) (hx : x.parent = some p) :
    ∃ u, t.detach child = .ok (some child, u) ∧ u.Shows ring (v.orphan child) ∧
      Replanted p child (v.children p) none t u := by
  have hm : child ∈ v.children p := (h.wf.mem_children p child).mpr ⟨x, hc, hx⟩
  obtain ⟨e, he, rfl⟩ := h.registers.find? hc
  obtain ⟨y, hy⟩ := h.wf.parent_live ((h.wf.mem_children p child).mp hm)
  obtain ⟨d, hd, _⟩ := h.registers.find? hy
  obtain ⟨r, u, hi, hl, hr⟩ := h.families.remove hm
  obtain ⟨w, w', hw, hw', hs, hf⟩ := h.orphan_of hd hm hl hr
  have hpar : e.parent = some p := hx
  refine ⟨w', ?_, hs, hf⟩
  simp [detach, slot_eq (inPool_of_find? he), entry_of_find? he, hpar, slot_eq (inPool_of_find? hd),
    entry_of_find? hd, childRing_eq hd, hi, hw, hw']

theorem create (h : t.Shows ring v) (ha : t.alloc = some (p, u)) :
    v.process p = none ∧ p.generation = v.generation p.slot + 1 ∧ u.Shows ring (v.create p {}) ∧
      t.free.length = u.free.length + 1 := by
  obtain ⟨hp, hfree, hlen, he, hpool⟩ := h.registers.pool.alloc ha
  have hdead : ∀ q, q.slot = p.slot → t.find? q = none := fun _ => find?_of_free hfree
  have hnone : ∀ q, q.slot = p.slot → v.process q = none := fun q hq => by
    rw [← h.registers.process q, hdead q hq, Option.map_none]
  have hfind := h.registers.pool.find?_alloc ha
  have hqueue : ∀ s, ∀ q ∈ v.queue s, q.slot ≠ p.slot := fun s q hq e => by
    obtain ⟨y, hy, _⟩ := (h.wf.mem_queue s q).mp hq
    rw [hnone q e] at hy
    cases hy
  have hchildren : ∀ s, ∀ q ∈ v.children s, q.slot ≠ p.slot := fun s q hq e => by
    obtain ⟨y, hy, _⟩ := (h.wf.mem_children s q).mp hq
    rw [hnone q e] at hy
    cases hy
  have hlink : ∀ q c, (t.entry p).link c = {} → (u.entry q).link c = (t.entry q).link c := by
    intro q c hc
    rw [he q]
    split
    · next hs =>
      rw [entry_congr hs, hc]
      cases c <;> rfl
    · rfl
  have hgeneration : p.generation = v.generation p.slot + 1 := by
    rw [← h.dated]
    exact Pooled.generation_of_alloc ha
  refine ⟨hnone p rfl, hgeneration,
    ⟨⟨hpool, fun q => ?_, fun q d hd => ?_⟩, ?_, ?_, ?_, fun q => ?_⟩, hlen⟩
  · rw [hfind]
    simp only [View.create, Function.update_apply]
    split
    · rfl
    · exact h.registers.process q
  · rw [hfind] at hd
    split at hd
    · cases hd
      simp
    · exact h.registers.tagged q d hd
  · exact h.queues.congr fun q _ => hlink q .queue (h.queues.alone p hp hqueue)
  · have hr : u.childRing = t.childRing := by
      funext q
      rw [childRing, hfind]
      split
      · next e => simp [childRing, e, hdead p rfl]
      · rfl
    rw [hr]
    exact h.families.congr fun q _ => hlink q .sibling (h.families.alone p hp hchildren)
  · exact h.wf.create (hnone p rfl) rfl rfl
  · rw [he]
    simp only [View.create, Function.update_apply]
    split
    · rfl
    · exact h.dated q

theorem release (h : t.Shows ring v) (hp : v.process p = some x) (hs : x.station = none)
    (hx : x.parent = none) (hn : v.children p = []) :
    ∃ u i, t.release p = .ok u ∧ i.val = p.slot.toNat ∧ u.free = i :: t.free ∧
      u.Shows ring (v.without [p]) := by
  obtain ⟨d, hd, rfl⟩ := h.registers.find? hp
  have hc : d.children = {} := by
    have ht := (h.families.holds p).tail
    rw [hn, ← childRing_eq hd] at ht
    exact congrArg Ring.mk ht
  obtain ⟨u, i, hu, hi, hf, hpool, he⟩ :=
    h.registers.pool.release hd (h.registers.unqueued hd hs).1 hx hc
  have hfind := find?_release hd he
  have hlink : ∀ q c, (u.entry q).link c = (t.entry q).link c := by
    intro q c
    rw [he q]
    split
    · cases c <;> rfl
    · rfl
  refine ⟨u, i, hu, hi, hf, ⟨⟨hpool, fun q => ?_, fun q e hq => ?_⟩, ?_, ?_, ?_, fun q => ?_⟩⟩
  · rw [hfind, View.without]
    by_cases hq : q = p
    · simp [hq]
    · simpa [hq] using h.registers.process q
  · rw [hfind] at hq
    split at hq
    · cases hq
    · exact h.registers.tagged q e hq
  · rw [h.wf.queue_without hp hs]
    exact h.queues.congr fun q _ => hlink q .queue
  · have hr : u.childRing = t.childRing := by
      funext q
      rw [childRing, hfind]
      split
      · next e => rw [e, ← childRing_eq hd, hc]; rfl
      · rfl
    rw [hr, h.wf.children_without hp hx]
    exact h.families.congr fun q _ => hlink q .sibling
  · refine h.wf.without fun c q hcq hq => ?_
    rw [List.mem_singleton] at hq
    rw [← h.wf.mem_children, hq, hn] at hcq
    cases hcq
  · rw [he]
    split <;> exact h.dated q

end Shows
end Table
end Nucleus
