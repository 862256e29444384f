import Nucleus.Semaphore.Store
import Nucleus.Proofs.Process.Shows
import Nucleus.Proofs.Semaphore.Room

/-!
# Queues by name

Table, directory and ready queue together arrange the processes as a view says (`Arranged`). There
is room in the directory for a process that stands nowhere, so the operations on queues always
succeed, and each is a move of the view.
-/
namespace Nucleus

namespace Store
variable {s : Store} {ready : Ring} {v : View} {p q : Handle} {x : Process} {key : SemKey}
variable {l : List Handle} {d e : Directory} {r : Ring} {t u : Table}

def station (d : Directory) (ready : Ring) : Station → Ring
  | .ready => ready
  | .semaphore key => d.ringAt key

theorem update_station_ready : Function.update (station d ready) .ready r = station d r := by
  funext s
  cases s <;> simp [station]

theorem update_station_semaphore (he : e.ringAt = Function.update d.ringAt key r) :
    Function.update (station d ready) (.semaphore key) r = station e ready := by
  funext s
  cases s with
  | ready => simp [station]
  | semaphore k => simp [station, Function.update_apply, he]

structure Arranged (s : Store) (ready : Ring) (v : View) : Prop where
  shows : s.table.Shows (station s.directory ready) v
  indexes : s.directory.Indexes fun key => v.queue (.semaphore key) ≠ []

namespace Arranged

theorem wf (h : s.Arranged ready v) : v.Wf := h.shows.wf

theorem queues (h : s.Arranged ready v) : s.Queues fun key => v.queue (.semaphore key) where
  pool := h.shows.registers.pool
  indexes := h.indexes
  holds key := h.shows.queues.holds (.semaphore key)
  waiting key p := by
    rw [h.wf.mem_queue]
    constructor
    · rintro ⟨x, hx, hs⟩
      obtain ⟨d, hd, rfl⟩ := h.shows.registers.find? hx
      exact ⟨d, hd, (Location.station?_eq_semaphore.mp hs).2⟩
    · rintro ⟨d, hd, hw⟩
      have hloc := (h.shows.registers.tagged p d hd).mp (by simp [hw])
      exact ⟨_, h.shows.registers.process_eq hd, Location.station?_eq_semaphore.mpr ⟨hloc, hw⟩⟩

theorem waiters_eq (h : s.Arranged ready v) (key : SemKey) :
    s.waiters key = .ok (v.queue (.semaphore key)) := h.queues.waiters_eq key

theorem firstWaiter_eq (h : s.Arranged ready v) (key : SemKey) :
    s.firstWaiter key = .ok (v.queue (.semaphore key)).head? := h.queues.firstWaiter_eq key

/-- A store arranges the processes in one way only. -/
theorem unique {w : View} (h : s.Arranged ready v) (k : s.Arranged ready w) : v = w := by
  have hprocess : v.process = w.process := funext fun p =>
    (h.shows.registers.process p).symm.trans (k.shows.registers.process p)
  have hqueue : v.queue = w.queue := funext fun i => by
    have hv := Ring.toList_eq (h.shows.queues.holds i)
    rw [Ring.toList_eq (k.shows.queues.holds i)] at hv
    exact (Except.ok.inj hv).symm
  have hchildren : v.children = w.children := funext fun p => by
    have hv := Ring.toList_eq (h.shows.families.holds p)
    rw [Ring.toList_eq (k.shows.families.holds p)] at hv
    exact (Except.ok.inj hv).symm
  have hgeneration : v.generation = w.generation := funext fun i =>
    (h.shows.dated ⟨i, 0⟩).symm.trans (k.shows.dated ⟨i, 0⟩)
  calc v = ⟨v.process, v.queue, v.children, v.generation⟩ := rfl
    _ = w := by rw [hprocess, hqueue, hchildren, hgeneration]

theorem withTable (h : s.Arranged ready v) {w : View} (ht : t.Shows (station s.directory ready) w)
    (hq : w.queue = v.queue) : Arranged { s with table := t } ready w :=
  ⟨ht, hq ▸ h.indexes⟩

theorem alloc (h : s.Arranged ready v) (ha : s.table.alloc = some (p, t)) :
    v.process p = none ∧ p.generation = v.generation p.slot + 1 ∧
      Arranged { s with table := t } ready (v.create p {}) ∧
      s.table.free.length = t.free.length + 1 := by
  obtain ⟨hp, hg, ht, hf⟩ := h.shows.create ha
  exact ⟨hp, hg, h.withTable ht rfl, hf⟩

theorem adopt (h : s.Arranged ready v) {y : Process} (hq : v.process q = some y)
    (hp : v.process p = some x) (hx : x.parent = none)
    (hqp : ¬Relation.ReflTransGen v.IsChild q p) :
    ∃ t, s.table.adopt q p = .ok t ∧ Arranged { s with table := t } ready (v.adopt q p) ∧
      t.free = s.table.free := by
  obtain ⟨t, ht, hs, hf⟩ := h.shows.adopt hq hp hx hqp
  exact ⟨t, ht, h.withTable hs rfl, hf.free⟩

theorem modify (h : s.Arranged ready v) (hp : v.process p = some x) {f : Descriptor → Descriptor}
    {g : Process → Process}
    (hf : ∀ d,
      f d = { d with state := (f d).state, cpuTime := (f d).cpuTime, support := (f d).support })
    (hg : ∀ d : Descriptor, (f d).process = g d.process) (hgp : ∀ y, (g y).parent = y.parent)
    (hgs : ∀ y, (g y).station = y.station) :
    ∃ t, s.table.modify p f = .ok t ∧ Arranged { s with table := t } ready (v.alter p g) ∧
      t.free = s.table.free := by
  obtain ⟨d, hd, rfl⟩ := h.shows.registers.find? hp
  refine ⟨_, Table.modify_eq (Table.inPool_of_find? hd), h.withTable ?_ rfl, Table.free_alter⟩
  refine h.shows.alter hd ?_ ?_ (fun c => ?_) ?_ ?_ (hg d) hgp hgs
  · rw [hf]
  · rw [hf]
  · rw [hf]
    cases c <;> rfl
  · rw [hf]
  · rw [hf]

theorem release (h : s.Arranged ready v) (hp : v.process p = some x) (hs : x.station = none)
    (hx : x.parent = none) (hn : v.children p = []) :
    ∃ t i, s.table.release p = .ok t ∧ i.val = p.slot.toNat ∧ t.free = i :: s.table.free ∧
      Arranged { s with table := t } ready (v.without [p]) := by
  obtain ⟨t, i, ht, hi, hf, hsh⟩ := h.shows.release hp hs hx hn
  refine ⟨t, i, ht, hi, hf, hsh, ?_⟩
  rw [h.wf.queue_without hp hs]
  exact h.indexes

theorem enqueue (h : s.Arranged ready v) (hp : v.process p = some x) (hx : x.station = none)
    (key : SemKey) : ∃ s', s.enqueue key p = .ok (.ok s') ∧
      s'.Arranged ready (v.join p (.semaphore key)) ∧ s'.table.free = s.table.free := by
  obtain ⟨r, t, w, hi, hm, hs, hf⟩ := h.shows.join hp hx (.semaphore key) .blocked (some key)
    (f := ({ · with waitingOn := some key, location := .blocked })) rfl (fun _ _ => rfl) (by simp)
  obtain ⟨d, hd, _⟩ := h.shows.registers.find? hp
  obtain ⟨e, he, hring, hidx⟩ := h.queues.enqueue_eq (Option.isSome_iff_exists.mpr ⟨d, hd⟩)
    (fun k => h.wf.notMem_queue hp hx) hi
  obtain rfl := Except.ok.inj ((Table.modify_eq (Table.inPool_of_find? hd)).symm.trans hm)
  refine ⟨_, he, ⟨?_, ?_⟩, hf⟩
  · rw [update_station_semaphore hring] at hs
    exact hs
  · have ha : (fun k => k = key ∨ v.queue (.semaphore k) ≠ []) =
        fun k => (v.join p (.semaphore key)).queue (.semaphore k) ≠ [] := by
      funext k
      by_cases hk : k = key
      · simp [View.join, hk]
      · simp [View.join, hk]
    exact ha ▸ hidx

theorem makeReady (h : s.Arranged ready v) (hp : v.process p = some x) (hx : x.station = none) :
    ∃ r t w, ready.insert s.table .queue p = .ok (r, t) ∧
      t.modify p ({ · with location := .ready }) = .ok w ∧
      Arranged { s with table := w } r (v.join p .ready) ∧ w.free = s.table.free := by
  obtain ⟨r, t, w, hi, hm, hs, hf⟩ := h.shows.join hp hx .ready .ready none
    (f := ({ · with location := .ready })) rfl (fun e he => by rw [← he]) (by simp)
  refine ⟨r, t, w, hi, hm, ⟨?_, ?_⟩, hf⟩
  · rw [update_station_ready] at hs
    exact hs
  · have ha : (fun k => (v.join p .ready).queue (.semaphore k) ≠ []) =
        fun k => v.queue (.semaphore k) ≠ [] := by
      funext k
      simp [View.join]
    exact ha ▸ h.indexes

/-- The links of a semaphore's queue are free of `p`, its ring is put back
and the descriptor cleared. -/
theorem put_back (h : s.Arranged ready v) (hm : p ∈ v.queue (.semaphore key))
    (hring : e.ringAt = Function.update s.directory.ringAt key r)
    (hidx : e.Indexes fun k => if k = key then r ≠ {} else v.queue (.semaphore k) ≠ [])
    (hl : Table.Relinked .queue l s.table u)
    (hr : u.Rings .queue (Function.update (station s.directory ready) (.semaphore key) r)
      fun s => (v.queue s).filter (· != p)) :
    Arranged ⟨u.alter p ({ · with waitingOn := none, location := .unqueued }), e⟩ ready
        (v.leave p) ∧
      (u.alter p ({ · with waitingOn := none, location := .unqueued })).free = s.table.free := by
  rw [update_station_semaphore hring] at hr
  obtain ⟨w, hmod, hs, hf⟩ :=
    h.shows.leave (f := ({ · with waitingOn := none, location := .unqueued }))
      hm hl hr fun _ _ => rfl
  obtain rfl :=
    Except.ok.inj ((Table.modify_eq ((h.shows.queues.holds _).inPool p hm)).symm.trans hmod)
  refine ⟨⟨hs, ?_⟩, hf⟩
  have ha : (fun k => if k = key then r ≠ {} else v.queue (.semaphore k) ≠ []) =
      fun k => (v.leave p).queue (.semaphore k) ≠ [] := by
    funext k
    by_cases hk : k = key
    · have hh := hr.holds (.semaphore key)
      rw [station, hring, Function.update_self] at hh
      rw [if_pos hk, hk, ne_eq, hh.eq_empty_iff]
      rfl
    · have hn : p ∉ v.queue (.semaphore k) := fun hn => hk (by
        have hs := h.wf.eq_of_mem_queue hn hm
        exact Station.semaphore.inj hs)
      rw [if_neg hk, View.queue_leave_of_notMem hn]
  exact ha ▸ hidx

theorem clear_ready (h : s.Arranged ready v) (hm : p ∈ v.queue .ready)
    (hl : Table.Relinked .queue l s.table u)
    (hr : u.Rings .queue (Function.update (station s.directory ready) .ready r)
      fun s => (v.queue s).filter (· != p)) :
    ∃ w, u.modify p ({ · with location := .unqueued }) = .ok w ∧
      Arranged { s with table := w } r (v.leave p) ∧ w.free = s.table.free := by
  rw [update_station_ready] at hr
  obtain ⟨w, hw, hs, hf⟩ := h.shows.leave (f := ({ · with location := .unqueued })) hm hl hr
    fun e he => by rw [← he rfl]
  refine ⟨w, hw, ⟨hs, ?_⟩, hf⟩
  have ha : (fun k => (v.leave p).queue (.semaphore k) ≠ []) = fun k =>
    v.queue (.semaphore k) ≠ [] := by
    funext k
    have hn : p ∉ v.queue (.semaphore k) := fun hn => by cases h.wf.eq_of_mem_queue hm hn
    rw [View.queue_leave_of_notMem hn]
  exact ha ▸ h.indexes

theorem dequeue_nil (h : s.Arranged ready v) (hq : v.queue (.semaphore key) = []) :
    s.dequeue key = .ok (none, s) := h.queues.dequeue_nil hq

theorem dequeue_cons (h : s.Arranged ready v) (hq : v.queue (.semaphore key) = p :: l) :
    ∃ s', s.dequeue key = .ok (some p, s') ∧ s'.Arranged ready (v.leave p) ∧
      s'.table.free = s.table.free := by
  obtain ⟨r, u, hpop, hl, hr⟩ := h.shows.queues.pop hq
  have hm : p ∈ v.queue (.semaphore key) := by simp [hq]
  obtain ⟨e, he, hring, hidx⟩ := h.queues.dequeue_eq hm hpop
  exact ⟨_, he, h.put_back hm hring hidx hl hr⟩

theorem withdraw (h : s.Arranged ready v) (hm : p ∈ v.queue (.semaphore key)) :
    ∃ s', s.withdraw p = .ok (some p, s') ∧ s'.Arranged ready (v.leave p) ∧
      s'.table.free = s.table.free := by
  obtain ⟨r, u, hrem, hl, hr⟩ := h.shows.queues.remove hm
  obtain ⟨e, he, hring, hidx⟩ := h.queues.withdraw_eq hm hrem
  exact ⟨_, he, h.put_back hm hring hidx hl hr⟩

/-- The queue is emptied from the front. -/
theorem drain {n : Nat} (h : s.Arranged ready v) (hq : v.queue (.semaphore key) = l)
    (hn : l.length ≤ n) : ∃ s', s.drain key n = .ok (l, s') ∧ s'.Arranged ready (v.leaveAll l) ∧
      s'.table.free = s.table.free := by
  induction l generalizing n s v with
  | nil =>
    have hd := h.dequeue_nil hq
    refine ⟨s, ?_, h, rfl⟩
    cases n <;> simp [Store.drain, hd]
  | cons p l ih =>
    obtain ⟨n, rfl⟩ : ∃ m, n = m + 1 := ⟨n - 1, by simp at hn; omega⟩
    obtain ⟨s₁, hd, ha, hf⟩ := h.dequeue_cons hq
    have hp : p ∉ l := by
      have hnodup := h.shows.nodup_queue (.semaphore key)
      rw [hq] at hnodup
      exact (List.nodup_cons.mp hnodup).1
    have hq₁ : (v.leave p).queue (.semaphore key) = l := by
      simp [View.leave, hq, View.filter_ne_of_notMem hp]
    obtain ⟨s₂, hd₂, ha₂, hf₂⟩ := ih ha hq₁ (by simpa using hn)
    exact ⟨s₂, by simp [Store.drain, hd, hd₂], ha₂, hf₂.trans hf⟩

end Arranged

theorem arranged_empty :
    Store.empty.Arranged {} .empty := by
  have hfind : ∀ q, Table.empty.find? q = none := by
    intro q
    rw [Option.eq_none_iff_forall_ne_some]
    intro d hd
    obtain ⟨hp, rfl, _, hl⟩ := Table.find?_eq_some_iff.mp hd
    have hp' : q.slot.toNat < maxProcesses := hp
    simp [Table.entry, Table.empty, hp'] at hl
  have hlink : ∀ c q, q.InPool → (Table.empty.entry q).link c = {} := by
    intro c q hq
    have hq' : q.slot.toNat < maxProcesses := hq
    cases c <;> simp [Table.entry, Table.empty, hq', Descriptor.link]
  have hring : station Directory.empty {} = fun _ => {} := by
    funext s
    cases s with
    | ready => rfl
    | semaphore key => simp [station, Directory.ringAt, Directory.Indexes.empty.find?_none key]
  have hdated : Table.empty.Dated View.empty.generation := by
    intro q
    by_cases hq : q.slot.toNat < maxProcesses
    · simp [Table.entry, Table.empty, View.empty, hq]
    · simp [Table.entry, View.empty, hq]
  refine ⟨⟨⟨.empty, fun q => ?_, fun q d hd => ?_⟩, ?_, ?_, .empty, hdated⟩, ?_⟩
  · rw [Store.empty, hfind]
    rfl
  · rw [Store.empty, hfind] at hd
    cases hd
  · refine ⟨fun i => ?_, by simp [View.empty], fun q hq _ => hlink .queue q hq⟩
    rw [Store.empty, hring]
    exact .nil
  · refine ⟨fun i => ?_, by simp [View.empty], fun q hq _ => hlink .sibling q hq⟩
    rw [Store.empty, Table.childRing, hfind]
    exact .nil
  · have ha : (fun key => View.empty.queue (.semaphore key) ≠ []) = fun _ => False := by
      funext key
      simp [View.empty]
    exact ha ▸ .empty

end Store
end Nucleus
