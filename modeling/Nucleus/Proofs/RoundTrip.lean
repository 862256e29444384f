import Nucleus.Proofs.Ending
import Nucleus.Proofs.Semaphore.Account

/-!
# P and then V

A unit that is taken from a semaphore and given back leaves the semaphore as it was, for any
processes that wait on it and any integer that can still be counted down, whatever the two have to
do with one another. Where there was a unit to take, nothing at all has changed. Where there was
none, the process has joined the queue and the first process of the queue, which is itself when
nobody waited before, is ready.
-/
namespace Nucleus

theorem Semaphore.zero_le_sub_one_iff {n : Int32} (h : n ≠ Int32.minValue) : 0 ≤ n - 1 ↔ 0 < n := by
  have hl := n.le_toInt
  have hn : n.toInt ≠ -2147483648 := fun e => h (Int32.toInt_inj.mp e)
  rw [Int32.le_iff_toInt_le, Int32.lt_iff_toInt_lt, toInt_sub_one (by omega), Int32.toInt_zero]
  omega

theorem Channel.locate?_key (c : Channel) : Bus.locate? c.key.address = none := by
  refine Bus.locate?_eq_none_of_toNat (.inl ?_)
  have hc : c.val < 49 := c.isLt
  rw [toNat_key]
  omega

namespace NucleusCells
variable {key : SemKey} {c : NucleusCells} {n : Int32}

theorem value_assign_self (hk : Bus.locate? key.address = none) :
    (c.assign key n).value key = n := by
  unfold value assign
  cases Channel.slot? key with
  | some i => simp
  | none => simp [Machine.write_of_locate?_eq_none hk]

theorem assign_assign_value (hk : Bus.locate? key.address = none) :
    (c.assign key n).assign key (c.value key) = c := by
  unfold value assign
  cases Channel.slot? key with
  | some i => simp
  | none => simp [Machine.write_of_locate?_eq_none hk, Machine.poke_poke, Machine.poke_read]

end NucleusCells

namespace Computer

/-- Computers with a kernel that a run has left, and on which processes are taken from the pool,
wait and are woken since; machine and journal may become any other in between. -/
inductive AtWork : Computer → Prop
  | reached {timing : Timing} {machine : Machine} {s : Computer}
      (h : Reaches (.initial timing machine) s) : AtWork s
  | frame {s t : Computer} (h : AtWork s) (ht : t.kernel = s.kernel) : AtWork t
  | alloc {s : Computer} {p : Handle} {table : Table} (h : AtWork s)
      (ha : s.kernel.table.alloc = some (p, table)) :
      AtWork { s with kernel := s.kernel.setTable table }
  | wait {s t : Computer} {key : SemKey} {p : Handle} {d : Descriptor}
      {answer : Except ServiceError Bool} (h : AtWork s) (hd : s.kernel.table.find? p = some d)
      (hl : d.location = .unqueued)
      (ht : s.wait key p = .ok (answer, t)) : AtWork t
  | signal {s t : Computer} {key : SemKey} {woken : Option Handle} (h : AtWork s)
      (ht : s.signal key = .ok (woken, t)) : AtWork t

variable {s t w : Computer} {v : View} {key : SemKey} {p first : Handle} {d : Descriptor}

theorem AtWork.arranged (h : AtWork s) : ∃ v, s.kernel.store.Arranged s.kernel.ready v := by
  induction h with
  | @reached timing _ _ h =>
    obtain ⟨v, hv⟩ := reaches_sound h (Kernel.sound_initial timing)
    exact ⟨v, hv.arranged⟩
  | frame _ ht ih => rwa [ht]
  | alloc _ ha ih =>
    obtain ⟨v, h⟩ := ih
    exact ⟨_, (h.alloc ha).2.2.1⟩
  | @wait s t key p d answer _ hd hl ht ih =>
    obtain ⟨v, h⟩ := ih
    rcases wait_cases h (h.shows.loose_iff.mpr ⟨d, hd, hl⟩) key with ⟨_, hw⟩ | ⟨_, store, hw, ha, _⟩
    · rw [hw] at ht
      cases ht
      exact ⟨v, h⟩
    · rw [hw] at ht
      cases ht
      exact ⟨_, ha⟩
  | @signal s t key woken _ ht ih =>
    obtain ⟨v, h⟩ := ih
    rcases signal_cases h key with ⟨q, rest, store, ready, _, _, hs, ha, _⟩ | ⟨_, hs⟩
    · rw [hs] at ht
      cases ht
      exact ⟨_, ha⟩
    · rw [hs] at ht
      cases ht
      exact ⟨v, h⟩

/-- `w` is `s` after `p` joined the queue of the semaphore and `first`, which then came first, was
made ready. -/
structure Exchanged (key : SemKey) (p first : Handle) (s w : Computer) : Prop where
  queue : ∃ q rest, s.kernel.store.waiters key = .ok q ∧ q ++ [p] = first :: rest ∧
    w.kernel.store.waiters key = .ok rest
  queues : ∀ k ≠ key, ∃ q, s.kernel.store.waiters k = .ok q ∧ w.kernel.store.waiters k = .ok q
  ready : ∃ q, s.kernel.readyList = .ok q ∧ w.kernel.readyList = .ok (q ++ [first])
  woken : (w.kernel.table.find? first).map (·.bare) =
    (s.kernel.table.find? first).map fun d => { d.bare with location := .ready, waitingOn := none }
  blocked : p ≠ first → (w.kernel.table.find? p).map (·.bare) =
    (s.kernel.table.find? p).map fun d =>
      { d.bare with location := .blocked, waitingOn := some key }
  others : ∀ x, x ≠ p → x ≠ first →
    (w.kernel.table.find? x).map (·.bare) = (s.kernel.table.find? x).map (·.bare)
  children : ∀ x, s.kernel.table.isLive x → ∃ cs, s.kernel.table.childrenOf x = .ok cs ∧
    w.kernel.table.childrenOf x = .ok cs
  free : w.kernel.table.free = s.kernel.table.free

/-- A unit was taken and given back, and everything but the queues is as before. The process blocked
just when there was no unit to take, and then the first in the queue is ready in its place. -/
structure Restored (key : SemKey) (p : Handle) (blocked : Bool) (woken : Option Handle)
    (s w : Computer) : Prop where
  frame : w =
    { s with kernel := { s.kernel with store := w.kernel.store, ready := w.kernel.ready } }
  value : w.cells.value key = s.cells.value key
  keys : ∃ keys, s.kernel.store.directory.keys = .ok keys ∧ w.kernel.store.directory.keys = .ok keys
  unblocked : 0 < s.cells.value key → blocked = false ∧ woken = none ∧ w = s
  exchanged : s.cells.value key ≤ 0 → blocked = true ∧ ∃ first, woken = some first ∧
    Exchanged key p first s w

end Computer

/-- A process joins the queue of a semaphore, and whoever is first then is made ready. -/
theorem Store.Arranged.queue_exchange {s : Store} {ready : Ring} {v : View} {key : SemKey}
    {p first : Handle} {rest : List Handle} (h : s.Arranged ready (v.join p (.semaphore key)))
    (hq : v.queue (.semaphore key) ++ [p] = first :: rest) :
    (((v.join p (.semaphore key)).leave first).join first .ready).queue =
      Function.update (Function.update v.queue (.semaphore key) rest) .ready
        (v.queue .ready ++ [first]) := by
  have hjoin : (v.join p (.semaphore key)).queue =
      Function.update v.queue (.semaphore key) (first :: rest) := by
    rw [← hq]
    rfl
  have hm : first ∈ (v.join p (.semaphore key)).queue (.semaphore key) := by simp [hjoin]
  have hleave : ((v.join p (.semaphore key)).leave first).queue =
    Function.update (v.join p (.semaphore key)).queue
      (.semaphore key) (((v.join p (.semaphore key)).queue (.semaphore key)).erase first) :=
    h.shows.queues.filter_ne hm
  rw [hjoin, Function.update_self, List.erase_cons_head, Function.update_idem] at hleave
  rw [View.join, hleave, Function.update_of_ne (by simp)]

namespace Computer
variable {s t w : Computer} {v : View} {key : SemKey} {p first : Handle} {rest : List Handle}
  {store : Store}
variable {ready : Ring}

theorem active_exchange (hj : store.Arranged ready (v.join p (.semaphore key)))
    (hq : v.queue (.semaphore key) ++ [p] = first :: rest) :
    (fun k => (((v.join p (.semaphore key)).leave first).join first .ready).queue
      (.semaphore k) ≠ []) = fun k => v.queue (.semaphore k) ≠ [] := by
  have hlength : (v.queue (.semaphore key)).length = rest.length := by
    simpa using congrArg List.length hq
  funext k
  rw [hj.queue_exchange hq]
  by_cases hk : k = key
  · subst hk
    simp [← List.length_eq_zero_iff, hlength]
  · simp [hk]

theorem exchanged (h : s.kernel.store.Arranged s.kernel.ready v)
    (hj : store.Arranged s.kernel.ready (v.join p (.semaphore key)))
    (hq : v.queue (.semaphore key) ++ [p] = first :: rest)
    (hw : w.kernel.store.Arranged w.kernel.ready
      (((v.join p (.semaphore key)).leave first).join first .ready))
    (hf : w.kernel.table.free = s.kernel.table.free) : Exchanged key p first s w := by
  have hqueue := hj.queue_exchange hq
  have hr := h.shows.registers
  have hr' := hw.shows.registers
  refine ⟨⟨_, rest, h.waiters_eq key, hq, ?queue⟩, fun k hk => ⟨_, h.waiters_eq k, ?queues⟩,
    ⟨_, h.readyList_eq, ?ready⟩, ?woken, fun hp => ?blocked, fun x hxp hxf => ?others,
    fun x hx => ?children, hf⟩
  case queue =>
    rw [hw.waiters_eq, hqueue]
    simp
  case queues =>
    rw [hw.waiters_eq, hqueue]
    simp [hk]
  case ready =>
    rw [hw.readyList_eq, hqueue, Function.update_self]
  case woken =>
    refine hr.bare_map hr' (f := ({ · with location := .ready, waitingOn := none }))
      (g := ({ · with station := some .ready })) ?_ (fun _ => rfl) (fun _ => rfl) fun _ _ => by simp
    -- where nobody waited before, `p` is its own heir
    by_cases hp : first = p <;>
      simp [View.join, View.leave, View.alter, hp, Function.comp_def]
  case blocked =>
    refine hr.bare_map hr' (f := ({ · with location := .blocked, waitingOn := some key }))
      (g := ({ · with station := some (.semaphore key) })) ?_ (fun _ => rfl) (fun _ => rfl)
      fun _ _ => by simp
    simp [View.join, View.leave, View.alter, hp]
  case others =>
    refine hr.bare_eq hr' ?_
    simp [View.join, View.leave, View.alter, hxp, hxf]
  case children =>
    have hlive : w.kernel.table.isLive x := by
      refine hw.shows.isLive_iff.mpr
        (View.exists_process_alter.mpr (View.exists_process_alter.mpr ?_))
      exact View.exists_process_alter.mpr (h.shows.isLive_iff.mp hx)
    exact ⟨_, h.shows.childrenOf_of_isLive hx, hw.shows.childrenOf_of_isLive hlive⟩

theorem value_setCells_assign (hk : Bus.locate? key.address = none) {n : Int32} :
    (s.setCells (s.cells.assign key n)).cells.value key = n := NucleusCells.value_assign_self hk

theorem setCells_assign_value (hk : Bus.locate? key.address = none) {n : Int32} :
    (s.setCells (s.cells.assign key n)).setCells
      ((s.setCells (s.cells.assign key n)).cells.assign key (s.cells.value key)) = s :=
  congrArg s.setCells (NucleusCells.assign_assign_value hk)

/-- A unit that is taken and given back leaves the semaphore as it was. -/
theorem wait_signal_of_atWork (h : AtWork s) {d : Descriptor} (hd : s.kernel.table.find? p = some d)
    (hl : d.location = .unqueued)
    (hkey : (∃ c : Channel, key = c.key) ∨ Bus.locate? key.address = none)
    (hmin : s.cells.value key ≠ Int32.minValue) :
    ∃ blocked t woken w, s.wait key p = .ok (.ok blocked, t) ∧ t.signal key = .ok (woken, w) ∧
      Restored key p blocked woken s w := by
  obtain ⟨v, ha⟩ := h.arranged
  have hkey : Bus.locate? key.address = none := hkey.elim (fun ⟨c, hc⟩ => hc ▸ c.locate?_key) id
  have hp : v.Loose p := ha.shows.loose_iff.mpr ⟨d, hd, hl⟩
  have hpos := Semaphore.zero_le_sub_one_iff hmin
  have hvalue : s.cells.value key - 1 + 1 = s.cells.value key := Int32.sub_add_cancel ..
  rcases wait_cases ha hp key with ⟨hv, hwait⟩ | ⟨hv, store, hwait, hj, hf⟩
  · -- there was a unit, and nobody is owed the one that comes back
    have hv := hpos.mp hv
    have hs := signal_cases (s := s.setCells (s.cells.assign key (s.cells.value key - 1))) ha key
    rw [value_setCells_assign hkey, hvalue, setCells_assign_value hkey] at hs
    rcases hs with ⟨_, _, _, _, hle, _⟩ | ⟨_, hsignal⟩
    · exact (Int32.not_lt.mpr hle hv).elim
    · exact ⟨false, _, none, s, hwait, hsignal, rfl, rfl, ha.indexes.keys_congr ha.indexes,
        fun _ => ⟨rfl, rfl, rfl⟩, fun hle => (Int32.not_lt.mpr hle hv).elim⟩
  · have hv : s.cells.value key ≤ 0 := Int32.not_lt.mp fun hlt => hv (hpos.mpr hlt)
    have hs := signal_cases
      (s := (s.setCells (s.cells.assign key (s.cells.value key - 1))).setStore store) hj key
    have hcells : ((s.setCells (s.cells.assign key (s.cells.value key - 1))).setStore store).cells =
        (s.setCells (s.cells.assign key (s.cells.value key - 1))).cells := rfl
    have hback : (s.setCells (s.cells.assign key (s.cells.value key - 1))).cells.assign key
        (s.cells.value key) = s.cells := NucleusCells.assign_assign_value hkey
    rw [hcells, value_setCells_assign hkey, hvalue, hback] at hs
    rcases hs with ⟨first, rest, store', ready', _, hq, hsignal, hw, hf'⟩ | ⟨hn | hn, _⟩
    · have hq' : v.queue (.semaphore key) ++ [p] = first :: rest := by simpa [View.join] using hq
      have hindexes := active_exchange hj hq' ▸ hw.indexes
      exact ⟨true, _, some first, _, hwait, hsignal, rfl, rfl, ha.indexes.keys_congr hindexes,
        fun hlt => (Int32.not_lt.mpr hv hlt).elim,
        fun _ => ⟨rfl, first, rfl, exchanged ha hj hq' hw (hf'.trans hf)⟩⟩
    · exact (hn hv).elim
    · simp [View.join] at hn

/-- The running child waits where its parent does: the parent, which came first, is woken, and the
child is left alone in the queue. -/
theorem wait_signal_smallFamily : smallFamily.cells.value ⟨0x3000⟩ = -1 ∧
    ∃ t w, smallFamily.wait ⟨0x3000⟩ ⟨1, 1⟩ = .ok (.ok true, t) ∧
      t.signal ⟨0x3000⟩ = .ok (some ⟨0, 1⟩, w) ∧
      w.cells.value ⟨0x3000⟩ = -1 ∧ w.kernel.store.waiters ⟨0x3000⟩ = .ok [⟨1, 1⟩] := by
  have hvalue : smallFamily.cells.value ⟨0x3000⟩ = -1 := by decide +kernel
  have hqueue : smallFamily.kernel.store.waiters ⟨0x3000⟩ = .ok [⟨0, 1⟩] := by decide +kernel
  obtain ⟨d, hd, hl⟩ : ∃ d, smallFamily.kernel.table.find? ⟨1, 1⟩ = some d ∧
      d.location = .unqueued := by
    have hl : (smallFamily.kernel.table.find? ⟨1, 1⟩).map (·.location) = some .unqueued := by
      decide +kernel
    exact Option.map_eq_some_iff.mp hl
  have hwork : AtWork smallFamily := .reached (reaches_after _ _)
  obtain ⟨blocked, t, woken, w, ht, hw, hr⟩ := wait_signal_of_atWork hwork hd hl
    (.inr (by decide : Bus.locate? 0x3000 = none)) (by rw [hvalue]; decide)
  obtain ⟨rfl, first, rfl, he⟩ := hr.exchanged (by rw [hvalue]; decide)
  obtain ⟨q, rest, hq, hcons, hrest⟩ := he.queue
  rw [hqueue] at hq
  cases hq
  cases hcons
  exact ⟨hvalue, t, w, ht, hw, hr.value.trans hvalue, hrest⟩

end Computer
end Nucleus
