import Mathlib.Data.List.Dedup
import Nucleus.Proofs.Process.Arena
import Nucleus.Proofs.Semaphore.Directory
import Nucleus.Semaphore.Store

/-!
# Room in the directory

The directory has an entry for every process, and an entry is in use only while its queue has a
first process. These first processes are all different and none of them is a process that waits for
nothing, so while there is such a process an entry is to spare: nobody who begins to wait is ever
refused. `Queues` is what this takes from a store; it leaves open which other queues there are
beside those of the semaphores.
-/
namespace Nucleus

/-- A live process that is in no queue of the chain. -/
def Table.Unlinked (t : Table) (c : Chain) (p : Handle) : Prop :=
  ∃ d, t.find? p = some d ∧ d.link c = {}

namespace Store
variable {s s' : Store} {queue : SemKey → List Handle} {key : SemKey} {p q : Handle}
  {l : List Handle}
variable {r : Ring} {u : Table}

section
variable {σ : Type} [SemaphoreCells σ] {cells : σ} {o : Option Handle}

theorem wait_of_enqueue (hv : ¬0 ≤ SemaphoreCells.value cells key - 1)
    (he : s.enqueue key p = .ok (.ok s')) : s.wait cells key p =
      .ok (.ok true, s', SemaphoreCells.assign cells key (SemaphoreCells.value cells key - 1)) := by
  simp only [Store.wait, if_neg hv, he, ok_bind, pure_eq_ok]

theorem signal_of_dequeue (hv : SemaphoreCells.value cells key + 1 ≤ 0)
    (hd : s.dequeue key = .ok (o, s')) : s.signal cells key =
      .ok (o, s', SemaphoreCells.assign cells key (SemaphoreCells.value cells key + 1)) := by
  simp only [Store.signal, if_pos hv, hd, ok_bind, pure_eq_ok]

theorem broadcast_of_drain (hd : s.drain key maxProcesses = .ok (l, s')) :
    s.broadcast cells key = .ok (l, s', SemaphoreCells.assign cells key 0) := by
  simp only [Store.broadcast, hd, ok_bind, pure_eq_ok]

end

def awaited (s : Store) : List SemKey := (s.table.live.filterMap (·.waitingOn)).dedup

/-- Every process that is in no queue can join that of any semaphore, and the entries in use are
those of the semaphores that somebody waits on. -/
structure Roomy (s : Store) : Prop where
  admits : ∀ key p, s.table.Unlinked .queue p → ∃ s', s.enqueue key p = .ok (.ok s')
  active : s.directory.activeCount = s.awaited.length
  awaited : ∀ key, key ∈ s.awaited ↔ ∃ q l, s.waiters key = .ok (q :: l)

theorem Roomy.wait {σ : Type} [SemaphoreCells σ] (h : s.Roomy) (cells : σ) (key : SemKey)
    (hp : ¬0 ≤ SemaphoreCells.value cells key - 1 → s.table.Unlinked .queue p) :
    ∃ blocked s' cells', s.wait cells key p = .ok (.ok blocked, s', cells') := by
  by_cases hv : 0 ≤ SemaphoreCells.value cells key - 1
  · exact ⟨false, s, _, if_pos hv⟩
  · obtain ⟨s', he⟩ := h.admits key p (hp hv)
    exact ⟨true, s', _, wait_of_enqueue hv he⟩

/-- The queues of the semaphores, which hold those who say that they wait there. -/
structure Queues (s : Store) (queue : SemKey → List Handle) : Prop where
  pool : s.table.Pooled
  indexes : s.directory.Indexes fun key => queue key ≠ []
  holds : ∀ key, (s.directory.ringAt key).Holds s.table .queue (queue key)
  waiting : ∀ key p, p ∈ queue key ↔ ∃ d, s.table.find? p = some d ∧ d.waitingOn = some key

namespace Queues

theorem eq_of_mem (h : s.Queues queue) {key' : SemKey} (hp : p ∈ queue key) (hp' : p ∈ queue key') :
    key = key' := by
  obtain ⟨d, hd, hw⟩ := (h.waiting key p).mp hp
  obtain ⟨e, he, hw'⟩ := (h.waiting key' p).mp hp'
  cases hd.symm.trans he
  exact Option.some.inj (hw.symm.trans hw')

theorem isLive (h : s.Queues queue) (hp : p ∈ queue key) : s.table.isLive p := by
  obtain ⟨d, hd, _⟩ := (h.waiting key p).mp hp
  exact Option.isSome_iff_exists.mpr ⟨d, hd⟩

theorem notMem_of_unlinked (h : s.Queues queue) (hp : s.table.Unlinked .queue p) (key : SemKey) :
    p ∉ queue key := fun hm => by
  obtain ⟨d, hd, hl⟩ := hp
  have hlinked := (h.holds key).isLinked hm
  rw [Table.entry_of_find? hd, hl] at hlinked
  cases hlinked

theorem waiters_eq (h : s.Queues queue) (key : SemKey) : s.waiters key = .ok (queue key) := by
  by_cases hq : queue key = []
  · have hf := h.indexes.find?_none key (fun hn => hn hq)
    simp [waiters, hf, hq]
  · obtain ⟨i, hf, hi⟩ := h.indexes.find?_some key hq
    have ht := Ring.toList_eq (h.holds key)
    simp only [waiters, hf, ok_bind, hi]
    exact ht

theorem isActive_eq (h : s.Queues queue) (key : SemKey) :
    s.directory.isActive key = .ok (decide (queue key ≠ [])) := by
  by_cases hq : queue key = []
  · have hf := h.indexes.find?_none key (fun hn => hn hq)
    simp [Directory.isActive, hf, hq]
  · obtain ⟨i, hf, _⟩ := h.indexes.find?_some key hq
    simp [Directory.isActive, hf, hq]

theorem firstWaiter_eq (h : s.Queues queue) (key : SemKey) :
    s.firstWaiter key = .ok (queue key).head? := by
  by_cases hq : queue key = []
  · have hf := h.indexes.find?_none key (fun hn => hn hq)
    simp [firstWaiter, hf, hq]
  · obtain ⟨i, hf, hi⟩ := h.indexes.find?_some key hq
    have ht := Ring.head?_eq (h.holds key)
    simp only [firstWaiter, hf, ok_bind, hi]
    exact ht

theorem mem_awaited (h : s.Queues queue) (key : SemKey) : key ∈ s.awaited ↔ queue key ≠ [] := by
  rw [awaited, List.mem_dedup, List.mem_filterMap]
  constructor
  · rintro ⟨d, hd, hw⟩
    exact List.ne_nil_of_mem ((h.waiting key d.handle).mpr ⟨d, h.pool.mem_live_iff.mp hd, hw⟩)
  · intro hq
    obtain ⟨p, hp⟩ := List.exists_mem_of_ne_nil _ hq
    obtain ⟨d, hd, hw⟩ := (h.waiting key p).mp hp
    exact ⟨d, Table.mem_live_of_find? hd, hw⟩

theorem activeCount_eq (h : s.Queues queue) : s.directory.activeCount = s.awaited.length := by
  have hmem : ∀ key, key ∈ s.table.live.filterMap (·.waitingOn) ↔ queue key ≠ [] := fun key => by
    rw [← h.mem_awaited key, awaited, List.mem_dedup]
  exact h.indexes.activeCount_eq hmem

/-- While some process waits for nothing, the directory has an entry to spare. -/
theorem free_ne_nil (h : s.Queues queue) (hp : s.table.isLive p) (hn : ∀ key, p ∉ queue key) :
    s.directory.free ≠ [] := by
  have hhead : ∀ key ∈ s.awaited, (queue key).head?.getD p ∈ queue key := by
    intro key hk
    obtain ⟨q, l, hq⟩ := List.exists_cons_of_ne_nil ((h.mem_awaited key).mp hk)
    simp [hq]
  have hnodup : (p :: s.awaited.map fun key => (queue key).head?.getD p).Nodup := by
    rw [List.nodup_cons]
    constructor
    · intro hm
      obtain ⟨key, hk, he⟩ := List.mem_map.mp hm
      exact hn key (he ▸ hhead key hk)
    · refine (List.nodup_dedup _).map_on fun k hk k' hk' he => ?_
      exact h.eq_of_mem (hhead k hk) (he ▸ hhead k' hk')
  have hle := Table.length_le_of_isLive (t := s.table) (fun q hq => ?_) hnodup
  · have hactive := h.activeCount_eq
    rw [List.length_cons, List.length_map] at hle
    rw [Directory.activeCount] at hactive
    intro hfree
    rw [hfree, List.length_nil, maxSemaphores] at hactive
    omega
  · rcases List.mem_cons.mp hq with rfl | hq
    · exact hp
    · obtain ⟨key, hk, rfl⟩ := List.mem_map.mp hq
      exact h.isLive (hhead key hk)

theorem enqueue_eq (h : s.Queues queue) (hp : s.table.isLive p) (hn : ∀ key, p ∉ queue key)
    (hi : (s.directory.ringAt key).insert s.table .queue p = .ok (r, u)) :
    ∃ e, s.enqueue key p =
      .ok (.ok ⟨u.alter p ({ · with waitingOn := some key, location := .blocked }), e⟩) ∧
      e.ringAt = Function.update s.directory.ringAt key r ∧
      e.Indexes fun k => k = key ∨ queue k ≠ [] := by
  obtain ⟨i, e, hact, hq, hset⟩ := h.indexes.activate key fun _ => h.free_ne_nil hp hn
  obtain ⟨hidx, hring⟩ := hset r
  obtain ⟨d, hd⟩ := Option.isSome_iff_exists.mp hp
  refine ⟨e.setQueue i r, ?_, hring, hidx⟩
  have hi' : (e.entry i).queue.insert s.table .queue p = .ok (r, u) := hq ▸ hi
  simp only [Store.enqueue, hact, ok_bind, hi',
    Table.modify_eq (Table.inPool_of_find? hd), pure_eq_ok]

theorem roomy (h : s.Queues queue) : s.Roomy where
  admits key p hp := by
    obtain ⟨d, hd, hl⟩ := hp
    have hpool := Table.inPool_of_find? hd
    have hlink : (s.table.entry p).link .queue = {} := by rw [Table.entry_of_find? hd, hl]
    obtain ⟨u, hi, _⟩ := Ring.insert_holds (h.holds key) hpool hlink
    have hlive : s.table.isLive p := Option.isSome_iff_exists.mpr ⟨d, hd⟩
    obtain ⟨e, he, _⟩ := h.enqueue_eq hlive (h.notMem_of_unlinked ⟨d, hd, hl⟩) hi
    exact ⟨_, he⟩
  active := h.activeCount_eq
  awaited key := by
    rw [h.mem_awaited, h.waiters_eq]
    cases queue key <;> simp

theorem dequeue_nil (h : s.Queues queue) (hq : queue key = []) : s.dequeue key = .ok (none, s) := by
  have hf := h.indexes.find?_none key (fun hn => hn hq)
  simp [dequeue, hf]

theorem dequeue_eq (h : s.Queues queue) (hp : p ∈ queue key)
    (hpop : (s.directory.ringAt key).pop s.table .queue = .ok (some p, r, u)) :
    ∃ e, s.dequeue key =
      .ok (some p, ⟨u.alter p ({ · with waitingOn := none, location := .unqueued }), e⟩) ∧
      e.ringAt = Function.update s.directory.ringAt key r ∧
      e.Indexes fun k => if k = key then r ≠ {} else queue k ≠ [] := by
  obtain ⟨i, hf, hi⟩ := h.indexes.find?_some key (List.ne_nil_of_mem hp)
  obtain ⟨e, he, hring, hidx⟩ := h.indexes.storeQueue hf r
  refine ⟨e, ?_, hring, hidx⟩
  have hpool := (h.holds key).inPool p hp
  have hpop' : (s.directory.entry i).queue.pop s.table .queue = .ok (some p, r, u) := hi ▸ hpop
  simp only [dequeue, hf, ok_bind, hpop', he, Table.modify_eq hpool, pure_eq_ok]

theorem withdraw_eq (h : s.Queues queue) (hp : p ∈ queue key)
    (hrem : (s.directory.ringAt key).remove s.table .queue p = .ok (some p, r, u)) :
    ∃ e, s.withdraw p =
      .ok (some p, ⟨u.alter p ({ · with waitingOn := none, location := .unqueued }), e⟩) ∧
      e.ringAt = Function.update s.directory.ringAt key r ∧
      e.Indexes fun k => if k = key then r ≠ {} else queue k ≠ [] := by
  obtain ⟨i, hf, hi⟩ := h.indexes.find?_some key (List.ne_nil_of_mem hp)
  obtain ⟨e, he, hring, hidx⟩ := h.indexes.storeQueue hf r
  refine ⟨e, ?_, hring, hidx⟩
  have hpool := (h.holds key).inPool p hp
  have hrem' : (s.directory.entry i).queue.remove s.table .queue p = .ok (some p, r, u) := hi ▸ hrem
  have hw : (s.table.find? p).bind (·.waitingOn) = some key := by
    obtain ⟨d, hd, hw⟩ := (h.waiting key p).mp hp
    rw [hd]
    exact hw
  simp only [Store.withdraw, hw, hf, ok_bind, hrem', he, Table.modify_eq hpool, pure_eq_ok]

end Queues

end Store
end Nucleus
