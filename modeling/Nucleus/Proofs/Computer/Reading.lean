import Nucleus.Proofs.Computer.Sound

/-!
# Reading a sound kernel

What walks, look-ups and counts of a sound kernel answer. A process is live under a handle; where it
stands can be read from its tag and its semaphore, or from the queue it is found in.
-/
namespace Nucleus

theorem Location.station?_eq_none {l : Location} {w : Option SemKey} (hl : l ≠ .free)
    (hw : w.isSome ↔ l = .blocked) : l.station? w = none ↔ l = .unqueued := by
  cases l <;> cases w <;> simp_all [station?]

def Table.IsChild (t : Table) (c p : Handle) : Prop := ∃ d, t.find? c = some d ∧ d.parent = some p

namespace Table.Shows
variable {t : Table} {ring : Station → Ring} {v : View} {p : Handle} {d : Descriptor}

theorem isLive_iff (h : t.Shows ring v) : t.isLive p ↔ ∃ x, v.process p = some x := by
  rw [isLive, Option.isSome_iff_exists]
  exact ⟨fun ⟨d, hd⟩ => ⟨_, h.registers.process_eq hd⟩,
    fun ⟨_, hx⟩ => (h.registers.find? hx).imp fun _ hd => hd.1⟩

theorem isChild_eq (h : t.Shows ring v) : t.IsChild = v.IsChild := by
  funext c p
  refine propext ⟨fun ⟨d, hd, hp⟩ => ⟨d.process, h.registers.process_eq hd, hp⟩,
    fun ⟨x, hx, hp⟩ => ?_⟩
  obtain ⟨d, hd, rfl⟩ := h.registers.find? hx
  exact ⟨d, hd, hp⟩

theorem childrenOf_eq (h : t.Shows ring v) (hd : t.find? p = some d) :
    t.childrenOf p = .ok (v.children p) := by
  have hp := inPool_of_find? hd
  simp only [childrenOf, slot_eq hp, ok_bind, entry_of_find? hd, childRing_eq hd]
  exact Ring.toList_eq (h.families.holds p)

theorem childrenOf_of_isLive (h : t.Shows ring v) (hp : t.isLive p) :
    t.childrenOf p = .ok (v.children p) := by
  obtain ⟨d, hd⟩ := Option.isSome_iff_exists.mp hp
  exact h.childrenOf_eq hd

theorem loose_iff (h : t.Shows ring v) :
    v.Loose p ↔ ∃ d, t.find? p = some d ∧ d.location = .unqueued := by
  constructor
  · rintro ⟨x, hx, hs⟩
    obtain ⟨d, hd, rfl⟩ := h.registers.find? hx
    exact ⟨d, hd, (h.registers.unqueued hd hs).1⟩
  · rintro ⟨d, hd, hl⟩
    exact ⟨d.process, h.registers.process_eq hd,
      (Location.station?_eq_none (location_of_find? hd) (h.registers.tagged p d hd)).mpr hl⟩

end Table.Shows

theorem Store.Arranged.readyList_eq {k : Kernel} {v : View} (h : k.store.Arranged k.ready v) :
    k.readyList = .ok (v.queue .ready) :=
  Ring.toList_eq (h.shows.queues.holds .ready)

namespace Descriptor
variable {d : Descriptor}

/-- Does the process wait for a device or the pseudo-clock? -/
def WaitsSoft (d : Descriptor) : Prop :=
  d.location = .blocked ∧ ∃ c : Channel, d.waitingOn = some c.key

/-- Does the process wait on a semaphore that is not one of the nucleus's own? -/
def WaitsOrdinary (d : Descriptor) : Prop :=
  d.location = .blocked ∧ ∃ key, d.waitingOn = some key ∧ ∀ c : Channel, key ≠ c.key

instance : DecidablePred WaitsSoft := fun d =>
  inferInstanceAs (Decidable (d.location = .blocked ∧ ∃ c : Channel, d.waitingOn = some c.key))

theorem waitsSoft_iff {key : SemKey} (hl : d.location = .blocked) (hk : d.waitingOn = some key) :
    d.WaitsSoft ↔ (Station.semaphore key).isSoft := by
  simp [WaitsSoft, hl, hk, Station.isSoft, Option.isSome_iff_exists, Channel.slot?_eq_some_iff]

theorem waitsOrdinary_iff {key : SemKey} (hl : d.location = .blocked)
    (hk : d.waitingOn = some key) : d.WaitsOrdinary ↔ ¬d.WaitsSoft := by
  simp [WaitsOrdinary, WaitsSoft, hl, hk]

end Descriptor

namespace Kernel.Sound
variable {k : Kernel} {v : View} {p q : Handle} {d : Descriptor} {key : SemKey} {s : Station}

theorem registers (h : k.Sound v) : k.table.Registers v.process := h.arranged.shows.registers

theorem mem_live_iff (h : k.Sound v) : d ∈ k.table.live ↔ k.table.find? d.handle = some d :=
  h.registers.pool.mem_live_iff

theorem isLive (h : k.Sound v) {x : Process} (hx : v.process p = some x) : k.table.isLive p :=
  h.arranged.shows.isLive_iff.mpr ⟨x, hx⟩

theorem generation_eq (h : k.Sound v) (p : Handle) :
    (k.table.entry p).handle.generation = v.generation p.slot :=
  h.arranged.shows.dated p

theorem readyList_eq (h : k.Sound v) : k.readyList = .ok (v.queue .ready) := h.arranged.readyList_eq

theorem isActive_iff (h : k.Sound v) (key : SemKey) :
    k.store.directory.isActive key = .ok true ↔ v.queue (.semaphore key) ≠ [] :=
  h.arranged.indexes.isActive_iff key

theorem mem_queue_iff (h : k.Sound v) :
    p ∈ v.queue s ↔ ∃ d, k.table.find? p = some d ∧ d.location.station? d.waitingOn = some s := by
  rw [h.arranged.wf.mem_queue]
  constructor
  · rintro ⟨x, hx, hs⟩
    obtain ⟨d, hd, rfl⟩ := h.registers.find? hx
    exact ⟨d, hd, hs⟩
  · rintro ⟨d, hd, hs⟩
    exact ⟨d.process, h.registers.process_eq hd, hs⟩

theorem isLive_of_mem_queue (h : k.Sound v) (hp : p ∈ v.queue s) : k.table.isLive p := by
  obtain ⟨x, hx, _⟩ := (h.arranged.wf.mem_queue s p).mp hp
  exact h.isLive hx

theorem mem_ready_iff (h : k.Sound v) :
    p ∈ v.queue .ready ↔ ∃ d, k.table.find? p = some d ∧ d.location = .ready := by
  simp only [h.mem_queue_iff, Location.station?_eq_ready]

theorem mem_semaphore_iff (h : k.Sound v) : p ∈ v.queue (.semaphore key) ↔
    ∃ d, k.table.find? p = some d ∧ d.location = .blocked ∧ d.waitingOn = some key := by
  simp only [h.mem_queue_iff, Location.station?_eq_semaphore]

theorem blocked (h : k.Sound v) (hd : k.table.find? p = some d) (hl : d.location = .blocked) :
    ∃ key, d.waitingOn = some key ∧ p ∈ v.queue (.semaphore key) := by
  obtain ⟨key, hk⟩ := Option.isSome_iff_exists.mp ((h.registers.tagged p d hd).mpr hl)
  exact ⟨key, hk, h.mem_semaphore_iff.mpr ⟨d, hd, hl, hk⟩⟩

theorem waitingOn_eq_none (h : k.Sound v) (hd : k.table.find? p = some d)
    (hl : d.location ≠ .blocked) : d.waitingOn = none := by
  have ht := h.registers.tagged p d hd
  simpa [hl] using ht

theorem loose_iff (h : k.Sound v) :
    v.Loose p ↔ ∃ d, k.table.find? p = some d ∧ d.location = .unqueued :=
  h.arranged.shows.loose_iff

theorem queueLink_eq (h : k.Sound v) (hd : k.table.find? p = some d) (hl : d.location = .unqueued) :
    d.queueLink = {} := by
  obtain ⟨x, hx, hs⟩ := h.loose_iff.mpr ⟨d, hd, hl⟩
  have ha := h.arranged.shows.queues.alone p (Table.inPool_of_find? hd)
    (h.arranged.shows.not_mem_queue hx hs)
  have he : k.store.table.entry p = d := Table.entry_of_find? hd
  rwa [he] at ha

theorem isChild_eq (h : k.Sound v) : k.table.IsChild = v.IsChild := h.arranged.shows.isChild_eq

theorem childrenOf_eq (h : k.Sound v) (hd : k.table.find? p = some d) :
    k.table.childrenOf p = .ok (v.children p) :=
  h.arranged.shows.childrenOf_eq hd

theorem isLive_of_mem_children (h : k.Sound v) (hq : q ∈ v.children p) : k.table.isLive q := by
  obtain ⟨x, hx, _⟩ := (h.arranged.wf.mem_children p q).mp hq
  exact h.isLive hx

theorem isLive_of_link (h : k.Sound v) (hd : k.table.find? p = some d) {c : Chain}
    (hq : (d.link c).next = some q ∨ (d.link c).prev = some q) : k.table.isLive q := by
  have hp := Table.inPool_of_find? hd
  rw [← Table.entry_of_find? hd] at hq
  cases c with
  | queue =>
    obtain ⟨s, hm⟩ := h.arranged.shows.queues.neighbour_mem hp hq
    exact h.isLive_of_mem_queue hm
  | sibling =>
    obtain ⟨p', hm⟩ := h.arranged.shows.families.neighbour_mem hp hq
    exact h.isLive_of_mem_children hm

theorem isLive_of_parent (h : k.Sound v) (hd : d ∈ k.table.slots.toList) (hq : d.parent = some q) :
    k.table.isLive q := by
  rcases h.registers.pool.live_or_vacant hd with hd | ⟨hn, _⟩
  · have hx := h.registers.process_eq (h.mem_live_iff.mp hd)
    obtain ⟨y, hy⟩ := h.arranged.wf.parent_live ⟨d.process, hx, hq⟩
    exact h.isLive hy
  · rw [hn] at hq
    cases hq

theorem isLive_of_children (h : k.Sound v) (hd : d ∈ k.table.slots.toList)
    (hq : d.children.tail = some q) : k.table.isLive q := by
  rcases h.registers.pool.live_or_vacant hd with hd | ⟨_, hn⟩
  · rw [Table.Shows.childRing_eq (h.mem_live_iff.mp hd)] at hq
    exact h.isLive_of_mem_children (h.arranged.shows.families.tail_mem hq)
  · rw [hn] at hq
    cases hq

theorem isLive_of_queue (h : k.Sound v) {i : Fin directorySize}
    (hq : (k.store.directory.entry i).queue.tail = some q) : k.table.isLive q := by
  rcases h.arranged.indexes.queue_eq i with hi | ⟨key, _, hi⟩
  · rw [hi] at hq
    cases hq
  · rw [hi] at hq
    have hm : q ∈ v.queue (.semaphore key) := h.arranged.shows.queues.tail_mem hq
    exact h.isLive_of_mem_queue hm

theorem length_live (h : k.Sound v) : k.processCount = k.table.live.length := by
  have hl := h.registers.pool.length_live
  have hp := h.processes
  rw [← Kernel.table] at hp
  omega

theorem softBlocked_eq (h : k.Sound v) : k.softBlockCount = k.table.live.countP (·.WaitsSoft) := by
  rw [h.softBlocks, List.countP_eq_length_filter, ← List.length_map (·.handle)]
  refine View.softBlocked_eq_length h.arranged.wf h.arranged.shows.nodup_queue ?_ fun p => ?_
  · exact h.registers.pool.nodup_live.sublist (List.filter_sublist.map _)
  · rw [List.mem_map]
    simp only [List.mem_filter, decide_eq_true_eq]
    constructor
    · rintro ⟨d, ⟨hd, hs⟩, rfl⟩
      obtain ⟨key, hw, hm⟩ := h.blocked (h.mem_live_iff.mp hd) hs.1
      exact ⟨.semaphore key, (Descriptor.waitsSoft_iff hs.1 hw).mp hs, hm⟩
    · rintro ⟨s, hs, hm⟩
      cases s with
      | ready => cases hs
      | semaphore key =>
        obtain ⟨d, hd, hl, hw⟩ := h.mem_semaphore_iff.mp hm
        obtain rfl := (Table.find?_eq_some_iff.mp hd).2.2.1
        exact ⟨d, ⟨h.mem_live_iff.mpr hd, (Descriptor.waitsSoft_iff hl hw).mpr hs⟩, rfl⟩

end Kernel.Sound
end Nucleus
