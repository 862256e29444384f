import Nucleus.Proofs.Semaphore.Lists
import Nucleus.Proofs.Semaphore.Store

/-!
# Stores in use by anybody

A store, queues that its user keeps beside those of the semaphores, and the integers of the
semaphores. The user may perform any operation at any time as long as only processes that are in no
queue are put into one or returned to the pool. No such operation breaks a rule, and none is
refused, except that the pool can run out of descriptors: a list of handles for every queue is kept
up to date by each operation (`Depot.Kept`).
-/
namespace Nucleus

/-- A queue of a chain: one that the user keeps, by number, or that of a semaphore. -/
inductive Place
  | own (i : Nat)
  | semaphore (key : SemKey)
deriving DecidableEq

structure Depot (σ : Type) where
  store : Store := .empty
  /-- The user's queues on either chain. -/
  rings : Chain → Nat → Ring := fun _ _ => {}
  cells : σ

/-- What a user can do. -/
inductive Operation (σ : Type)
  | alloc
  | release (p : Handle)
  | insert (c : Chain) (i : Nat) (p : Handle)
  | pop (c : Chain) (i : Nat)
  | remove (c : Chain) (i : Nat) (p : Handle)
  | enqueue (key : SemKey) (p : Handle)
  | dequeue (key : SemKey)
  | withdraw (p : Handle)
  | wait (key : SemKey) (p : Handle)
  | signal (key : SemKey)
  | broadcast (key : SemKey)
  /-- the integers are kept in memory, where they can be changed in any way -/
  | rewrite (cells : σ)

namespace Depot
variable {σ : Type}

def setTable (d : Depot σ) (t : Table) : Depot σ := { d with store := { d.store with table := t } }

def setRing (d : Depot σ) (c : Chain) (i : Nat) (r : Ring) : Depot σ :=
  { d with rings := Function.update d.rings c (Function.update (d.rings c) i r) }

variable [SemaphoreCells σ]

/-- Performs an operation, and says for what cause it was refused if it was. -/
def perform (d : Depot σ) : Operation σ → Except Fault (Option ServiceError × Depot σ)
  | .alloc =>
    match d.store.table.alloc with
    | none => return (some .noFreeProcess, d)
    | some (_, t) => return (none, d.setTable t)
  | .release p => return (none, d.setTable (← d.store.table.release p))
  | .insert c i p => do
    let (r, t) ← (d.rings c i).insert d.store.table c p
    return (none, (d.setTable t).setRing c i r)
  | .pop c i => do
    let (_, r, t) ← (d.rings c i).pop d.store.table c
    return (none, (d.setTable t).setRing c i r)
  | .remove c i p => do
    let (_, r, t) ← (d.rings c i).remove d.store.table c p
    return (none, (d.setTable t).setRing c i r)
  | .enqueue key p => do
    match ← d.store.enqueue key p with
    | .ok store => return (none, { d with store })
    | .error e => return (some e, d)
  | .dequeue key => do
    let (_, store) ← d.store.dequeue key
    return (none, { d with store })
  | .withdraw p => do
    let (_, store) ← d.store.withdraw p
    return (none, { d with store })
  | .wait key p => do
    match ← d.store.wait d.cells key p with
    | (.ok _, store, cells) => return (none, { d with store, cells })
    | (.error e, store, cells) => return (some e, { d with store, cells })
  | .signal key => do
    let (_, store, cells) ← d.store.signal d.cells key
    return (none, { d with store, cells })
  | .broadcast key => do
    let (_, store, cells) ← d.store.broadcast d.cells key
    return (none, { d with store, cells })
  | .rewrite cells => return (none, { d with cells })

/-- Only a live process that is in no queue of the chain is put into one, and only one that is in no
queue at all is returned. P puts a process into a queue when it leaves the integer negative. -/
def Allows (d : Depot σ) : Operation σ → Prop
  | .release p => d.store.table.isLive p → ∀ c, d.store.table.Unlinked c p
  | .insert c _ p => d.store.table.Unlinked c p
  | .enqueue _ p => d.store.table.Unlinked .queue p
  | .wait key p => ¬0 ≤ SemaphoreCells.value d.cells key - 1 → d.store.table.Unlinked .queue p
  | .alloc | .pop .. | .remove .. | .dequeue _ | .withdraw _ | .signal _ | .broadcast _
  | .rewrite _ => True

/-- What a user can come to, beginning with nothing. -/
inductive Reached : Depot σ → Prop
  | empty (cells : σ) : Reached { cells }
  | step {d e : Depot σ} {op : Operation σ} {refusal : Option ServiceError} :
      Reached d → d.Allows op → d.perform op = .ok (refusal, e) → Reached e

def ring (d : Depot σ) : Chain → Place → Ring
  | c, .own i => d.rings c i
  | .queue, .semaphore key => d.store.directory.ringAt key
  | .sibling, .semaphore _ => {}

end Depot

/-- One queue of a chain is given another list. -/
def relist (list : Chain → Place → List Handle) (c : Chain) (i : Place) (l : List Handle) :
    Chain → Place → List Handle :=
  Function.update list c (Function.update (list c) i l)

section
variable {list : Chain → Place → List Handle} {c e : Chain} {i j : Place} {l : List Handle}
  {q : Handle}

theorem relist_self : relist list c i l c = Function.update (list c) i l := Function.update_self ..

theorem relist_of_ne (h : e ≠ c) : relist list c i l e = list e := Function.update_of_ne h ..

theorem relist_apply : relist list c i l e j = if e = c ∧ j = i then l else list e j := by
  by_cases he : e = c
  · subst he
    simp [relist_self, Function.update_apply]
  · simp [relist_of_ne he, he]

theorem mem_relist (h : q ∈ l ↔ q ∈ list c i) : q ∈ relist list c i l e j ↔ q ∈ list e j := by
  rw [relist_apply]
  split
  · next he => rw [he.1, he.2, h]
  · rfl

end

namespace Depot
variable {σ : Type} {d e : Depot σ} {list : Chain → Place → List Handle} {c : Chain} {i : Place}
variable {p q : Handle} {x : Descriptor} {key : SemKey} {l m : List Handle} {u : Table} {r : Ring}

/-- The lists that the queues hold. Whoever is listed is live; the processes in the queue of a
semaphore are those that wait on it; and nobody has a family. -/
structure Kept (d : Depot σ) (list : Chain → Place → List Handle) : Prop where
  pool : d.store.table.Pooled
  rings : ∀ c, d.store.table.Rings c (d.ring c) (list c)
  indexes : d.store.directory.Indexes fun key => list .queue (.semaphore key) ≠ []
  live : ∀ c i, ∀ p ∈ list c i, d.store.table.isLive p
  waiting : ∀ p x, d.store.table.find? p = some x → ∀ key,
    x.waitingOn = some key ↔ p ∈ list .queue (.semaphore key)
  tagged : ∀ p x, d.store.table.find? p = some x → x = x.await x.waitingOn
  alone : ∀ p x, d.store.table.find? p = some x → x.parent = none ∧ x.children = {}

@[simp] theorem table_setTable : (d.setTable u).store.table = u := rfl

namespace Kept

theorem queues (h : d.Kept list) : d.store.Queues fun key => list .queue (.semaphore key) where
  pool := h.pool
  indexes := h.indexes
  holds key := (h.rings .queue).holds (.semaphore key)
  waiting key p := by
    constructor
    · intro hp
      obtain ⟨x, hx⟩ := Option.isSome_iff_exists.mp (h.live _ _ p hp)
      exact ⟨x, hx, (h.waiting p x hx key).mpr hp⟩
    · rintro ⟨x, hx, hw⟩
      exact (h.waiting p x hx key).mp hw

theorem setCells (h : d.Kept list) (cells : σ) : ({ d with cells } : Depot σ).Kept list :=
  ⟨h.pool, h.rings, h.indexes, h.live, h.waiting, h.tagged, h.alone⟩

theorem slot_ne_of_unlinked (h : d.Kept list) (hp : d.store.table.Unlinked c p) (i : Place) :
    ∀ q ∈ list c i, q.slot ≠ p.slot := fun q hq hs => by
  obtain ⟨x, hx, hl⟩ := hp
  have hlinked := ((h.rings c).holds i).isLinked hq
  rw [Table.entry_congr hs, Table.entry_of_find? hx, hl] at hlinked
  cases hlinked

theorem notMem_of_unlinked (h : d.Kept list) (hp : d.store.table.Unlinked c p) (i : Place) :
    p ∉ list c i :=
  fun hm => h.slot_ne_of_unlinked hp i p hm rfl

/-- One queue is given another list, in which only `p` comes or goes, and
`p` is said to wait as fits. -/
theorem relist (h : d.Kept list) (hx : d.store.table.find? p = some x)
    (hl : Table.Relinked c m d.store.table u)
    (hr : u.Rings c (Function.update (d.ring c) i r) (Function.update (list c) i l))
    (hothers : ∀ q, q ≠ p → (q ∈ l ↔ q ∈ list c i)) {f : Descriptor → Descriptor}
    {w : Option SemKey} (hf : ∀ k, f (x.setLink k c) = (x.setLink k c).await w)
    (hw : ∀ key, w = some key ↔ p ∈ relist list c i l .queue (.semaphore key))
    (htable : e.store.table = u.alter p f)
    (hring : e.ring = Function.update d.ring c (Function.update (d.ring c) i r))
    (hidx : e.store.directory.Indexes fun key => relist list c i l .queue (.semaphore key) ≠ []) :
    e.Kept (relist list c i l) := by
  obtain ⟨k, hk⟩ := hl.find? p
  rw [hx, Option.map_some] at hk
  have hlink : ∀ c', (f (x.setLink k c)).link c' = (x.setLink k c).link c' := fun c' => by
    rw [hf, Descriptor.link_await]
  -- every descriptor is an old one with another link, and that of `p` says what it waits on
  have hfind : ∀ q y, e.store.table.find? q = some y → ∃ z k', d.store.table.find? q = some z ∧
      (if q = p then (z.setLink k' c).await w else z.setLink k' c) = y := by
    intro q y hy
    obtain ⟨k', hk'⟩ := hl.find?_await hx hf q
    rw [htable, hk'] at hy
    obtain ⟨z, hz⟩ := Option.map_eq_some_iff.mp hy
    exact ⟨z, k', hz⟩
  constructor
  case pool =>
    rw [htable]
    refine (h.pool.relinked hl).alter hk ?_ ?_
    · rw [hf]
      rfl
    · rw [hf]
      exact Descriptor.location_await _ w
  case rings =>
    intro c'
    rw [htable, hring]
    by_cases hc : c' = c
    · subst hc
      rw [Function.update_self, relist_self]
      exact hr.alter hk (hlink c')
    · rw [Function.update_of_ne hc, relist_of_ne hc]
      exact ((h.rings c').relinked hl hc).alter hk (hlink c')
  case indexes => exact hidx
  case live =>
    intro c' j q hq
    obtain ⟨k', hk'⟩ := hl.find?_await hx hf q
    rw [htable, Table.isLive, hk', Option.isSome_map]
    by_cases hp : q = p
    · rw [hp, hx]
      rfl
    · exact h.live c' j q ((mem_relist (hothers q hp)).mp hq)
  case waiting =>
    intro q y hy key
    obtain ⟨z, k', hz, rfl⟩ := hfind q y hy
    by_cases hp : q = p
    · rw [if_pos hp, hp, ← hw]
      rfl
    · rw [if_neg hp, mem_relist (hothers q hp), ← h.waiting q z hz, Descriptor.waitingOn_setLink]
  case tagged =>
    intro q y hy
    obtain ⟨z, k', hz, rfl⟩ := hfind q y hy
    by_cases hp : q = p
    · rw [if_pos hp]
      rfl
    · rw [if_neg hp, Descriptor.waitingOn_setLink, ← Descriptor.await_setLink, ← h.tagged q z hz]
  case alone =>
    intro q y hy
    obtain ⟨z, k', hz, rfl⟩ := hfind q y hy
    have hz' := h.alone q z hz
    by_cases hp : q = p
    · simpa [hp, Descriptor.await] using hz'
    · simpa [hp] using hz'

theorem setRing (h : d.Kept list) {n : Nat} (hp : d.store.table.isLive p)
    (hl : Table.Relinked c m d.store.table u)
    (hr : u.Rings c (Function.update (d.ring c) (.own n) r) (Function.update (list c) (.own n) l))
    (hothers : ∀ q, q ≠ p → (q ∈ l ↔ q ∈ list c (.own n))) :
    ((d.setTable u).setRing c n r).Kept (Nucleus.relist list c (.own n) l) := by
  obtain ⟨x, hx⟩ := Option.isSome_iff_exists.mp hp
  have hsemaphore : ∀ key, Nucleus.relist list c (.own n) l .queue (.semaphore key) =
      list .queue (.semaphore key) := fun key => by simp [relist_apply]
  refine h.relist (x := x) (w := x.waitingOn) (f := id) hx hl hr hothers
    (fun k => ?_) (fun key => ?_)
    Table.alter_id.symm ?_ ?_
  · rw [← Descriptor.await_setLink, ← h.tagged p x hx]
    rfl
  · rw [hsemaphore]
    exact h.waiting p x hx key
  · funext c' j
    cases j with
    | own j =>
      by_cases hc : c' = c
      · subst hc
        simp [ring, Depot.setRing, Depot.setTable, Function.update_apply]
      · simp [ring, Depot.setRing, Depot.setTable, hc]
    | semaphore key =>
      by_cases hc : c' = c
      · subst hc
        cases c' <;> simp [ring, Depot.setRing, Depot.setTable]
      · cases c' <;> simp [ring, Depot.setRing, Depot.setTable, hc]
  · simp only [hsemaphore]
    exact h.indexes

theorem ring_setStore {e : Directory}
    (he : e.ringAt = Function.update d.store.directory.ringAt key r) :
    ({ d with store := ⟨u, e⟩ } : Depot σ).ring =
      Function.update d.ring .queue (Function.update (d.ring .queue) (.semaphore key) r) := by
  funext c j
  cases c with
  | sibling => cases j <;> simp [ring]
  | queue =>
    cases j with
    | own j => simp [ring]
    | semaphore k => simp [ring, he, Function.update_apply]

theorem insert (h : d.Kept list) (hp : d.store.table.Unlinked c p) (n : Nat) :
    ∃ r u, (d.rings c n).insert d.store.table c p = .ok (r, u) ∧
      ((d.setTable u).setRing c n r).Kept
        (Nucleus.relist list c (.own n) (list c (.own n) ++ [p])) := by
  have hslots := h.slot_ne_of_unlinked hp
  obtain ⟨x, hx, _⟩ := hp
  obtain ⟨r, u, hi, hl, hr⟩ := (h.rings c).insert (Table.inPool_of_find? hx) hslots (.own n)
  refine ⟨r, u, hi, h.setRing (Option.isSome_iff_exists.mpr ⟨x, hx⟩) hl hr fun q hq => ?_⟩
  simp [hq]

theorem enqueue (h : d.Kept list) (hp : d.store.table.Unlinked .queue p) (key : SemKey) :
    ∃ store, d.store.enqueue key p = .ok (.ok store) ∧ ({ d with store } : Depot σ).Kept
      (Nucleus.relist list .queue (.semaphore key) (list .queue (.semaphore key) ++ [p])) := by
  have hslots := h.slot_ne_of_unlinked hp
  have hn := h.notMem_of_unlinked hp
  obtain ⟨x, hx, _⟩ := hp
  obtain ⟨r, u, hi, hl, hr⟩ := (h.rings .queue).insert
    (Table.inPool_of_find? hx) hslots (.semaphore key)
  obtain ⟨e, he, hring, hidx⟩ := h.queues.enqueue_eq (Option.isSome_iff_exists.mpr ⟨x, hx⟩)
    (fun k => hn (.semaphore k)) hi
  refine ⟨_, he, h.relist (w := some key)
    (f := ({ · with waitingOn := some key, location := .blocked })) hx hl hr
    (fun q hq => by simp [hq]) (fun _ => rfl) (fun k => ?_) rfl (ring_setStore hring) ?_⟩
  · by_cases hk : k = key
    · simp [relist_apply, hk]
    · simp [relist_apply, hk, Ne.symm hk, hn]
  · have ha : (fun k => k = key ∨ list .queue (.semaphore k) ≠ []) =
        fun k => Nucleus.relist list .queue (.semaphore key)
          (list .queue (.semaphore key) ++ [p]) .queue (.semaphore k) ≠ [] := by
      funext k
      by_cases hk : k = key <;> simp [relist_apply, hk]
    exact ha ▸ hidx

theorem leaveRing (h : d.Kept list) {n : Nat} (hm : p ∈ list c (.own n))
    (hl : Table.Relinked c (list c (.own n)) d.store.table u)
    (hr : u.Rings c (Function.update (d.ring c) (.own n) r) fun j => (list c j).filter (· != p)) :
    ((d.setTable u).setRing c n r).Kept
      (Nucleus.relist list c (.own n) ((list c (.own n)).erase p)) := by
  rw [(h.rings c).filter_ne hm] at hr
  exact h.setRing (h.live _ _ p hm) hl hr fun q hq => List.mem_erase_of_ne hq

theorem pop (h : d.Kept list) (c : Chain) (n : Nat) :
    ∃ o r u list', (d.rings c n).pop d.store.table c = .ok (o, r, u) ∧
      ((d.setTable u).setRing c n r).Kept list' := by
  cases hq : list c (.own n) with
  | nil =>
    have hpop := Ring.pop_nil (hq ▸ (h.rings c).holds (.own n))
    refine ⟨none, d.rings c n, d.store.table, list, hpop, ?_⟩
    simpa [Depot.setTable, Depot.setRing] using h
  | cons p l =>
    obtain ⟨r, u, hpop, hl, hr⟩ := (h.rings c).pop hq
    exact ⟨some p, r, u, _, hpop, h.leaveRing (by simp [hq]) hl hr⟩

theorem remove (h : d.Kept list) (c : Chain) (n : Nat) (p : Handle) :
    ∃ o r u list', (d.rings c n).remove d.store.table c p = .ok (o, r, u) ∧
      ((d.setTable u).setRing c n r).Kept list' := by
  by_cases hm : p ∈ list c (.own n)
  · obtain ⟨r, u, hrem, hl, hr⟩ := (h.rings c).remove hm
    exact ⟨some p, r, u, _, hrem, h.leaveRing hm hl hr⟩
  · have hrem := Ring.remove_of_not_mem ((h.rings c).holds (.own n)) hm
    refine ⟨none, d.rings c n, d.store.table, list, hrem, ?_⟩
    simpa [Depot.setTable, Depot.setRing] using h

/-- Whoever leaves the queue of a semaphore: the ring is put back and the descriptor cleared. -/
theorem leave (h : d.Kept list) (hm : p ∈ list .queue (.semaphore key)) {e : Directory}
    (hring : e.ringAt = Function.update d.store.directory.ringAt key r)
    (hidx : e.Indexes fun k => if k = key then r ≠ {} else list .queue (.semaphore k) ≠ [])
    (hl : Table.Relinked .queue (list .queue (.semaphore key)) d.store.table u)
    (hr : u.Rings .queue (Function.update (d.ring .queue) (.semaphore key) r)
      fun j => (list .queue j).filter (· != p)) :
    ({ d with store := ⟨u.alter p ({ · with waitingOn := none, location := .unqueued }), e⟩ } :
      Depot σ).Kept
      (Nucleus.relist list .queue (.semaphore key) ((list .queue (.semaphore key)).erase p)) := by
  obtain ⟨x, hx⟩ := Option.isSome_iff_exists.mp (h.live _ _ p hm)
  rw [(h.rings .queue).filter_ne hm] at hr
  have hnodup := ((h.rings .queue).holds (.semaphore key)).nodup
  have hholds := hr.holds (.semaphore key)
  rw [Function.update_self, Function.update_self] at hholds
  refine h.relist (w := none) (f := ({ · with waitingOn := none, location := .unqueued })) hx hl hr
    (fun q hq => List.mem_erase_of_ne hq) (fun _ => rfl) (fun k => ?_) rfl (ring_setStore hring) ?_
  · by_cases hk : k = key
    · simp [relist_apply, hk, hnodup.not_mem_erase]
    · have hn : p ∉ list .queue (.semaphore k) := fun hm' => hk (h.queues.eq_of_mem hm' hm)
      simp [relist_apply, hk, hn]
  · have ha : (fun k => if k = key then r ≠ {} else list .queue (.semaphore k) ≠ []) =
        fun k => Nucleus.relist list .queue (.semaphore key)
          ((list .queue (.semaphore key)).erase p) .queue (.semaphore k) ≠ [] := by
      funext k
      by_cases hk : k = key
      · simp only [hk, if_true, relist_apply, and_self, ne_eq, hholds.eq_empty_iff]
      · simp [relist_apply, hk]
    exact ha ▸ hidx

theorem dequeue (h : d.Kept list) (key : SemKey) :
    ∃ store, d.store.dequeue key = .ok ((list .queue (.semaphore key)).head?, store) ∧
      ∃ list', ({ d with store } : Depot σ).Kept list' ∧
        list' .queue (.semaphore key) = (list .queue (.semaphore key)).tail := by
  cases hq : list .queue (.semaphore key) with
  | nil => exact ⟨d.store, h.queues.dequeue_nil hq, list, h, hq⟩
  | cons p l =>
    obtain ⟨r, u, hpop, hl, hr⟩ := (h.rings .queue).pop hq
    have hm : p ∈ list .queue (.semaphore key) := by simp [hq]
    obtain ⟨e, he, hring, hidx⟩ := h.queues.dequeue_eq hm hpop
    refine ⟨_, he, _, h.leave hm hring hidx hl hr, ?_⟩
    simp [relist_apply, hq]

theorem withdraw (h : d.Kept list) (p : Handle) :
    ∃ o store list', d.store.withdraw p = .ok (o, store) ∧
      ({ d with store } : Depot σ).Kept list' := by
  cases hw : (d.store.table.find? p).bind (·.waitingOn) with
  | none => exact ⟨none, d.store, list, by simp [Store.withdraw, hw], h⟩
  | some key =>
    obtain ⟨x, hx, hwait⟩ := Option.bind_eq_some_iff.mp hw
    have hm := (h.waiting p x hx key).mp hwait
    obtain ⟨r, u, hrem, hl, hr⟩ := (h.rings .queue).remove hm
    obtain ⟨e, he, hring, hidx⟩ := h.queues.withdraw_eq hm hrem
    exact ⟨some p, _, _, he, h.leave hm hring hidx hl hr⟩

theorem drain {n : Nat} (h : d.Kept list) {key : SemKey}
    (hn : (list .queue (.semaphore key)).length ≤ n) :
    ∃ store list', d.store.drain key n = .ok (list .queue (.semaphore key), store) ∧
      ({ d with store } : Depot σ).Kept list' := by
  generalize hq : list .queue (.semaphore key) = l at hn ⊢
  induction l generalizing n d list with
  | nil =>
    have hd := h.queues.dequeue_nil hq
    refine ⟨d.store, list, ?_, h⟩
    cases n <;> simp [Store.drain, hd]
  | cons p l ih =>
    obtain ⟨n, rfl⟩ : ∃ m, n = m + 1 := ⟨n - 1, by simp at hn; omega⟩
    obtain ⟨s₁, hd, list₁, h₁, hq₁⟩ := h.dequeue key
    rw [hq] at hd hq₁
    obtain ⟨s₂, list₂, hd₂, h₂⟩ := ih h₁ hq₁ (by simpa using hn)
    exact ⟨s₂, list₂, by simp_all [Store.drain], h₂⟩

section
variable [SemaphoreCells σ]

theorem wait (h : d.Kept list)
    (hp : ¬0 ≤ SemaphoreCells.value d.cells key - 1 → d.store.table.Unlinked .queue p) :
    ∃ blocked store cells list', d.store.wait d.cells key p = .ok (.ok blocked, store, cells) ∧
      ({ d with store, cells } : Depot σ).Kept list' := by
  by_cases hv : 0 ≤ SemaphoreCells.value d.cells key - 1
  · exact ⟨false, d.store, _, list, if_pos hv, h.setCells _⟩
  · obtain ⟨store, he, hk⟩ := h.enqueue (hp hv) key
    exact ⟨true, store, _, _, Store.wait_of_enqueue hv he, hk.setCells _⟩

theorem signal (h : d.Kept list) (key : SemKey) :
    ∃ woken store cells list', d.store.signal d.cells key = .ok (woken, store, cells) ∧
      ({ d with store, cells } : Depot σ).Kept list' := by
  by_cases hv : SemaphoreCells.value d.cells key + 1 ≤ 0
  · obtain ⟨store, hd, list', hk, _⟩ := h.dequeue key
    exact ⟨_, store, _, list', Store.signal_of_dequeue hv hd, hk.setCells _⟩
  · exact ⟨none, d.store, _, list, if_neg hv, h.setCells _⟩

theorem broadcast (h : d.Kept list) (key : SemKey) :
    ∃ woken store cells list', d.store.broadcast d.cells key = .ok (woken, store, cells) ∧
      ({ d with store, cells } : Depot σ).Kept list' := by
  have hlen := ((h.rings .queue).holds (.semaphore key)).length_le
  obtain ⟨store, list', hd, hk⟩ := h.drain hlen
  exact ⟨_, store, _, list', Store.broadcast_of_drain hd, hk.setCells _⟩

end

theorem alloc (h : d.Kept list) (ha : d.store.table.alloc = some (p, u)) :
    (d.setTable u).Kept list := by
  obtain ⟨hp, hfree, _, he, hpool⟩ := h.pool.alloc ha
  have hfind := h.pool.find?_alloc ha
  have hdead : ∀ q, q.slot = p.slot → d.store.table.find? q = none :=
    fun _ => Table.find?_of_free hfree
  have hslots : ∀ c i, ∀ q ∈ list c i, q.slot ≠ p.slot := fun c i q hq hs => by
    have hlive := h.live c i q hq
    rw [Table.isLive, hdead q hs] at hlive
    cases hlive
  have hne : ∀ c i, ∀ q ∈ list c i, q ≠ p := fun c i q hq e => hslots c i q hq (by rw [e])
  refine ⟨hpool, fun c => ?_, h.indexes, fun c i q hq => ?_, fun q y hy key => ?_,
    fun q y hy => ?_, fun q y hy => ?_⟩
  · refine (h.rings c).congr fun q _ => ?_
    have hlink := (h.rings c).alone p hp (hslots c)
    rw [table_setTable, he q]
    split
    · next hs =>
      rw [Table.entry_congr hs, hlink]
      cases c <;> rfl
    · rfl
  · rw [table_setTable, Table.isLive, hfind, if_neg (hne c i q hq)]
    exact h.live c i q hq
  · rcases ite_eq_iff.mp ((hfind q).symm.trans hy) with ⟨rfl, hy'⟩ | ⟨_, hy'⟩
    · cases hy'
      exact iff_of_false (by simp) fun hm => hne _ _ q hm rfl
    · exact h.waiting q y hy' key
  · rcases ite_eq_iff.mp ((hfind q).symm.trans hy) with ⟨rfl, hy'⟩ | ⟨_, hy'⟩
    · cases hy'
      rfl
    · exact h.tagged q y hy'
  · rcases ite_eq_iff.mp ((hfind q).symm.trans hy) with ⟨rfl, hy'⟩ | ⟨_, hy'⟩
    · cases hy'
      exact ⟨rfl, rfl⟩
    · exact h.alone q y hy'

theorem release (h : d.Kept list) (hp : d.store.table.isLive p → ∀ c, d.store.table.Unlinked c p) :
    ∃ u, d.store.table.release p = .ok u ∧ (d.setTable u).Kept list := by
  by_cases hlive : d.store.table.isLive p
  · obtain ⟨x, hx⟩ := Option.isSome_iff_exists.mp hlive
    have hn : ∀ c i, p ∉ list c i := fun c => h.notMem_of_unlinked (hp hlive c)
    have hwait : x.waitingOn = none := by
      by_contra hw
      obtain ⟨key, hw⟩ := Option.ne_none_iff_exists'.mp hw
      exact hn _ _ ((h.waiting p x hx key).mp hw)
    have hloc : x.location = .unqueued := by
      rw [h.tagged p x hx, hwait]
      rfl
    obtain ⟨hparent, hchildren⟩ := h.alone p x hx
    obtain ⟨u, _, hu, _, _, hpool, he⟩ := h.pool.release hx hloc hparent hchildren
    have hfind := Table.find?_release hx he
    have hold : ∀ {q y}, u.find? q = some y → d.store.table.find? q = some y := fun {q y} hy => by
      rcases ite_eq_iff.mp ((hfind q).symm.trans hy) with ⟨_, hy'⟩ | ⟨_, hy'⟩
      · cases hy'
      · exact hy'
    refine ⟨u, hu, hpool, fun c => ?_, h.indexes, fun c i q hq => ?_,
      fun q y hy => h.waiting q y (hold hy),
      fun q y hy => h.tagged q y (hold hy), fun q y hy => h.alone q y (hold hy)⟩
    · refine (h.rings c).congr fun q _ => ?_
      rw [table_setTable, he q]
      split
      · cases c <;> rfl
      · rfl
    · have hqp : q ≠ p := by
        rintro rfl
        exact hn c i hq
      rw [table_setTable, Table.isLive, hfind, if_neg hqp]
      exact h.live c i q hq
  · have hfind : d.store.table.find? p = none := Option.not_isSome_iff_eq_none.mp hlive
    exact ⟨d.store.table, by simp [Table.release, hfind], h⟩

end Kept

theorem kept_empty (cells : σ) : ({ cells } : Depot σ).Kept fun _ _ => [] := by
  have h := Store.arranged_empty
  have hnone : ∀ p x, Table.empty.find? p = some x → False := fun p x hx => by
    have hprocess := h.shows.registers.process_eq (p := p) (d := x) hx
    cases hprocess
  refine ⟨h.shows.registers.pool, fun c => ⟨fun i => ?_, by simp, fun q hq _ => ?_⟩, ?_, by simp,
    fun p x hx => (hnone p x hx).elim, fun p x hx => (hnone p x hx).elim,
    fun p x hx => (hnone p x hx).elim⟩
  · have hring : ({ cells } : Depot σ).ring c i = {} := by
      cases c <;> cases i <;> simp [ring, Store.empty, Directory.ringAt,
        Directory.Indexes.empty.find?_none]
    rw [hring]
    exact .nil
  · cases c with
    | queue => exact h.shows.queues.alone q hq (by simp [View.empty])
    | sibling => exact h.shows.families.alone q hq (by simp [View.empty])
  · simpa [Store.empty] using Directory.Indexes.empty

variable [SemaphoreCells σ]

/-- What the user may do succeeds and keeps the lists, unless it is to take a
descriptor and none is left. -/
theorem Kept.perform (h : d.Kept list) {op : Operation σ} (ha : d.Allows op) :
    ∃ refusal e list', d.perform op = .ok (refusal, e) ∧ e.Kept list' ∧
      (refusal = none ∨ op = .alloc ∧ d.store.table.free = []) := by
  cases op with
  | alloc =>
    cases halloc : d.store.table.alloc with
    | none =>
      have hfree := Table.Pooled.alloc_eq_none_iff.mp halloc
      exact ⟨some .noFreeProcess, d, list, by simp [Depot.perform, halloc], h, .inr ⟨rfl, hfree⟩⟩
    | some a => exact ⟨none, _, list, by simp [Depot.perform, halloc], h.alloc halloc, .inl rfl⟩
  | release p =>
    obtain ⟨u, hu, hk⟩ := h.release ha
    exact ⟨none, _, list, by simp [Depot.perform, hu], hk, .inl rfl⟩
  | insert c n p =>
    obtain ⟨r, u, hi, hk⟩ := h.insert ha n
    exact ⟨none, _, _, by simp [Depot.perform, hi], hk, .inl rfl⟩
  | pop c n =>
    obtain ⟨o, r, u, list', hp, hk⟩ := h.pop c n
    exact ⟨none, _, list', by simp [Depot.perform, hp], hk, .inl rfl⟩
  | remove c n p =>
    obtain ⟨o, r, u, list', hr, hk⟩ := h.remove c n p
    exact ⟨none, _, list', by simp [Depot.perform, hr], hk, .inl rfl⟩
  | enqueue key p =>
    obtain ⟨store, he, hk⟩ := h.enqueue ha key
    exact ⟨none, _, _, by simp [Depot.perform, he], hk, .inl rfl⟩
  | dequeue key =>
    obtain ⟨store, hd, list', hk, _⟩ := h.dequeue key
    exact ⟨none, _, list', by simp [Depot.perform, hd], hk, .inl rfl⟩
  | withdraw p =>
    obtain ⟨o, store, list', hw, hk⟩ := h.withdraw p
    exact ⟨none, _, list', by simp [Depot.perform, hw], hk, .inl rfl⟩
  | wait key p =>
    obtain ⟨blocked, store, cells, list', hw, hk⟩ := h.wait ha
    exact ⟨none, _, list', by simp [Depot.perform, hw], hk, .inl rfl⟩
  | signal key =>
    obtain ⟨o, store, cells, list', hs, hk⟩ := h.signal key
    exact ⟨none, _, list', by simp [Depot.perform, hs], hk, .inl rfl⟩
  | broadcast key =>
    obtain ⟨l, store, cells, list', hb, hk⟩ := h.broadcast key
    exact ⟨none, _, list', by simp [Depot.perform, hb], hk, .inl rfl⟩
  | rewrite cells => exact ⟨none, _, list, rfl, h.setCells cells, .inl rfl⟩

theorem Reached.kept (h : d.Reached) : ∃ list, d.Kept list := by
  induction h with
  | empty cells => exact ⟨_, kept_empty cells⟩
  | step _ ha hp ih =>
    obtain ⟨list, hk⟩ := ih
    obtain ⟨refusal, e, list', hp', hk', _⟩ := hk.perform ha
    cases hp.symm.trans hp'
    exact ⟨list', hk'⟩

end Depot
end Nucleus
