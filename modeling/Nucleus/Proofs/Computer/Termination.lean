import Nucleus.Proofs.Computer.Parts
import Nucleus.Proofs.Postorder

/-!
# How a family ends

Ending processes takes them out of the view, frees their slots and settles what their waiting was
worth: a process that waited on an ordinary semaphore is credited there, one that waited on a
semaphore of the nucleus is no longer counted as doing so. `Ended` sums this up for a list of
processes, and composes. The work list visits a family in postorder, so the list that ends is the
postorder list of the family.
-/
namespace Nucleus

def Station.ordinary? : Station → Option SemKey
  | .ready => none
  | .semaphore key => if (Channel.slot? key).isSome then none else some key

def Machine.credit (m : Machine) : Option SemKey → Machine
  | none => m
  | some key => m.write key.address (m.read key.address + 1)

namespace View
variable {v : View} {p q : Handle} {l m : List Handle} {x : Process}

/-- Does the process wait on one of the nucleus's own semaphores? -/
def standsSoft (v : View) (p : Handle) : Bool :=
  (v.process p).any fun x => x.station.any Station.isSoft

/-- The semaphore that owes the process a unit. -/
def debt (v : View) (p : Handle) : Option SemKey :=
  (v.process p).bind fun x => x.station.bind Station.ordinary?

def repay (v : View) (l : List Handle) (machine : Machine) : Machine :=
  l.foldl (fun m p => m.credit (v.debt p)) machine

theorem standsSoft_eq (hp : v.process p = some x) :
    v.standsSoft p = x.station.any Station.isSoft := by
  simp [standsSoft, hp]

theorem softBlocked_leave_of_live (hw : v.Wf) (hn : ∀ s, (v.queue s).Nodup)
    (hp : v.process p = some x) :
    (v.leave p).softBlocked + (if v.standsSoft p then 1 else 0) = v.softBlocked := by
  rw [standsSoft_eq hp]
  cases hs : x.station with
  | none => simpa using softBlocked_leave_loose hw ⟨x, hp, hs⟩
  | some s => exact softBlocked_leave hw ((hw.mem_queue s p).mpr ⟨x, hp, hs⟩) (hn s)

theorem softBlocked_without_singleton : (v.without [p]).softBlocked = (v.leave p).softBlocked := by
  refine Finset.sum_congr rfl fun c _ => congrArg List.length (List.filter_congr fun q _ => ?_)
  by_cases hq : q = p <;> simp [hq]

theorem debt_eq (hp : v.process p = some x) : v.debt p = x.station.bind Station.ordinary? := by
  simp [debt, hp]

theorem process_without (hp : p ∉ l) : (v.without l).process p = v.process p := by
  simp [without, hp]

theorem station_orphan :
    ((v.orphan q).process p).map (·.station) = (v.process p).map (·.station) := by
  unfold orphan alter
  by_cases hp : p = q
  · cases hq : v.process p <;> simp [← hp, hq]
  · simp [hp]

theorem standsSoft_congr {w : View}
    (h : (w.process p).map (·.station) = (v.process p).map (·.station)) :
    w.standsSoft p = v.standsSoft p := by
  cases hw : w.process p <;> cases hv : v.process p <;> simp_all [standsSoft]

theorem debt_congr {w : View} (h : (w.process p).map (·.station) = (v.process p).map (·.station)) :
    w.debt p = v.debt p := by
  cases hw : w.process p <;> cases hv : v.process p <;> simp_all [debt]

theorem repay_congr {w : View} (h : ∀ p ∈ l, w.debt p = v.debt p) (machine : Machine) :
    w.repay l machine = v.repay l machine := by
  induction l generalizing machine with
  | nil => rfl
  | cons p l ih =>
    rw [repay, List.foldl_cons, h p (by simp)]
    exact ih (fun q hq => h q (by simp [hq])) _

theorem repay_append (machine : Machine) :
    v.repay (l ++ m) machine = v.repay m (v.repay l machine) :=
  List.foldl_append

end View

namespace Computer
variable {s t u : Computer} {v : View} {p top : Handle} {x : Process} {l m : List Handle}

theorem setCells_credit {key : SemKey} (hk : Channel.slot? key = none) :
    s.setCells (s.cells.assign key (s.cells.value key + 1)) =
      { s with machine := s.machine.credit (some key) } := by
  have hv : (s.cells.value key + 1).toUInt32 = s.machine.read key.address + 1 := by
    simp [NucleusCells.value, hk, cells]
    rfl
  have ha : s.cells.assign key (s.cells.value key + 1) =
      ⟨s.kernel.channels, s.machine.write key.address (s.machine.read key.address + 1)⟩ := by
    rw [NucleusCells.assign, hk, hv]
    rfl
  rw [ha]
  rfl

/-- A process leaves the queue it is in, if any, and what it waited for is settled. -/
theorem unqueue_eq (h : s.kernel.store.Arranged s.kernel.ready v) (hp : v.process p = some x)
    {d : Descriptor} (hd : s.kernel.table.find? p = some d) (hdx : d.process = x)
    (hsoft : v.standsSoft p → 1 ≤ s.kernel.softBlockCount) :
    ∃ store ready softBlockCount,
      s.unqueue p d = .ok { s with
        kernel := { s.kernel with store, ready, softBlockCount }
        machine := s.machine.credit (v.debt p) } ∧
      softBlockCount + (if v.standsSoft p then 1 else 0) = s.kernel.softBlockCount ∧
      store.Arranged ready (v.leave p) ∧ store.table.free = s.kernel.store.table.free := by
  have hstation : d.location.station? d.waitingOn = x.station := congrArg Process.station hdx
  rw [View.standsSoft_eq hp] at hsoft ⊢
  rw [View.debt_eq hp]
  cases hs : x.station with
  | none =>
    obtain ⟨hl, _⟩ := h.shows.registers.unqueued hd (by rw [hdx, hs])
    refine ⟨s.kernel.store, s.kernel.ready, s.kernel.softBlockCount,
      by simp [unqueue, hl, Machine.credit], by simp, ?_, rfl⟩
    rw [h.wf.leave_eq_self ⟨x, hp, hs⟩]
    exact h
  | some station =>
    have hm : p ∈ v.queue station := (h.wf.mem_queue station p).mpr ⟨x, hp, hs⟩
    rw [hs] at hstation
    cases station with
    | ready =>
      have hl := Location.station?_eq_ready.mp hstation
      obtain ⟨r, u, hrem, hrel, hr⟩ := h.shows.queues.remove hm
      have hrem' : s.kernel.ready.remove s.kernel.table .queue p = .ok (some p, r, u) := hrem
      obtain ⟨w, hw, ha, hf⟩ := h.clear_ready hm hrel hr
      refine ⟨{ s.kernel.store with table := w }, r, s.kernel.softBlockCount, ?_, rfl, ha, hf⟩
      simp only [unqueue, hl, hrem', ok_bind, hw, pure_eq_ok]
      rfl
    | semaphore key =>
      obtain ⟨hl, hk⟩ := Location.station?_eq_semaphore.mp hstation
      obtain ⟨store, hw, ha, hf⟩ := h.withdraw hm
      simp only [unqueue, hl, hw, ok_bind, hk]
      rw [hs] at hsoft
      simp only [Option.any_some, Station.isSoft] at hsoft ⊢
      obtain hc | ⟨c, hc⟩ := Option.eq_none_or_eq_some (Channel.slot? key)
      · refine ⟨store, s.kernel.ready, s.kernel.softBlockCount, ?_, by simp [hc], ha, hf⟩
        have hset := setCells_credit (s := s.setStore store) hc
        simp only [hc, Option.isSome_none, Bool.false_eq_true, if_false, pure_eq_ok,
          hset, Option.bind_some, Station.ordinary?]
        rfl
      · have hone := hsoft (by simp [hc])
        refine ⟨store, s.kernel.ready, s.kernel.softBlockCount - 1, ?_, ?_, ha, hf⟩
        · simp [hc, lower, setStore, hone, Station.ordinary?, Machine.credit]
        · simp only [hc, Option.isSome_some, if_true]
          omega

end Computer

/-- From `s` to `t` the processes `l` ended. -/
structure Computer.Ended (v : View) (l : List Handle) (s t : Computer) : Prop where
  sound : t.kernel.Sound (v.without l)
  free : t.kernel.table.free.map (·.val) =
    (l.map (·.slot.toNat)).reverse ++ s.kernel.table.free.map (·.val)
  processes : t.kernel.processCount + l.length = s.kernel.processCount
  softBlocks : t.kernel.softBlockCount + l.countP v.standsSoft = s.kernel.softBlockCount
  current : t.kernel.current = s.kernel.current.filter (· ∉ l)
  channels : t.kernel.channels = s.kernel.channels
  banked : t.kernel.banked = s.kernel.banked
  stopwatch : t.kernel.stopwatch = s.kernel.stopwatch
  timing : t.kernel.timing = s.kernel.timing
  machine : t.machine = v.repay l s.machine
  events : t.journal.events = s.journal.events
  created : t.journal.counters.created = s.journal.counters.created
  dispatches : t.journal.counters.dispatches = s.journal.counters.dispatches
  killed : t.journal.counters.killed.value = s.journal.counters.killed.value + UInt32.ofNat l.length

namespace Computer.Ended
variable {s t u : Computer} {v : View} {p : Handle} {l m : List Handle}

theorem refl (h : s.kernel.Sound v) : Ended v [] s s where
  sound := by rwa [View.without_nil]
  free := rfl
  processes := rfl
  softBlocks := rfl
  current := by cases s.kernel.current <;> rfl
  channels := rfl
  banked := rfl
  stopwatch := rfl
  timing := rfl
  machine := rfl
  events := rfl
  created := rfl
  dispatches := rfl
  killed := by simp

theorem trans (h : Ended v l s t) (k : Ended (v.without l) m t u) (hd : ∀ p ∈ m, p ∉ l) :
    Ended v (l ++ m) s u where
  sound := by
    rw [← View.without_without]
    exact k.sound
  free := by
    rw [k.free, h.free]
    simp
  processes := by
    rw [← h.processes, ← k.processes, List.length_append]
    omega
  softBlocks := by
    have hm : m.countP (v.without l).standsSoft = m.countP v.standsSoft :=
      List.countP_congr fun p hp => by
        have hs : (v.without l).standsSoft p = v.standsSoft p :=
          View.standsSoft_congr (by rw [View.process_without (hd p hp)])
        rw [hs]
    rw [← h.softBlocks, ← k.softBlocks, hm, List.countP_append]
    omega
  current := by
    rw [k.current, h.current, Option.filter_filter]
    congr 1
    funext p
    simp [not_or]
  channels := k.channels.trans h.channels
  banked := k.banked.trans h.banked
  stopwatch := k.stopwatch.trans h.stopwatch
  timing := k.timing.trans h.timing
  machine := by
    have hm : ∀ p ∈ m, (v.without l).debt p = v.debt p := fun p hp =>
      View.debt_congr (by rw [View.process_without (hd p hp)])
    rw [k.machine, h.machine, View.repay_append, View.repay_congr hm]
  events := k.events.trans h.events
  created := k.created.trans h.created
  dispatches := k.dispatches.trans h.dispatches
  killed := by
    rw [k.killed, h.killed, List.length_append, UInt32.ofNat_add, UInt32.add_assoc]

/-- Taking a process that is going to end away from its parent makes no difference. -/
theorem of_orphan {table : Table}
    (h : Ended (v.orphan p) l { s with kernel := s.kernel.setTable table } t) (hp : p ∈ l)
    (hf : table.free = s.kernel.table.free) : Ended v l s t where
  sound := by
    rw [← View.orphan_without hp]
    exact h.sound
  free := by
    rw [h.free, ← hf]
    rfl
  processes := h.processes
  softBlocks := by
    have hl : l.countP (v.orphan p).standsSoft = l.countP v.standsSoft :=
      List.countP_congr fun q _ => by rw [View.standsSoft_congr View.station_orphan]
    rw [← hl]
    exact h.softBlocks
  current := h.current
  channels := h.channels
  banked := h.banked
  stopwatch := h.stopwatch
  timing := h.timing
  machine := by
    rw [← View.repay_congr fun q _ => View.debt_congr View.station_orphan]
    exact h.machine
  events := h.events
  created := h.created
  dispatches := h.dispatches
  killed := h.killed

end Computer.Ended

namespace Computer
variable {s t u : Computer} {v : View} {p top root : Handle} {x : Process} {l ps rest : List Handle}

theorem destroy_eq (h : s.kernel.Sound v) (hp : v.process p = some x) (hx : x.parent = none)
    (hn : v.children p = []) : ∃ t, s.destroy p = .ok t ∧ Ended v [p] s t := by
  obtain ⟨d, hproc, hd, hdx⟩ := process_eq h.arranged hp
  have hcount := View.softBlocked_leave_of_live h.arranged.wf h.arranged.shows.nodup_queue hp
  rw [← h.softBlocks] at hcount
  obtain ⟨store, ready, softBlockCount, hu, hc, ha, hf⟩ := unqueue_eq h.arranged hp hd hdx
    fun hs => by
    rw [if_pos hs] at hcount
    omega
  obtain ⟨table, i, hr, hi, hfree, ha'⟩ := ha.release (View.process_alter_self hp) rfl hx hn
  rw [View.leave_without (by simp)] at ha'
  have hlen : i :: s.kernel.store.table.free = table.free := by rw [hfree, hf]
  have hone : 1 ≤ s.kernel.processCount := by
    have hle : table.free.length ≤ maxProcesses := ha'.shows.registers.pool.length_le
    have hsum := h.processes
    rw [← hlen, List.length_cons] at hle
    omega
  generalize hcurrent : (if s.kernel.current = some p then none else s.kernel.current) = current
  have hfilter : current = s.kernel.current.filter (· ∉ [p]) := by
    rw [← hcurrent]
    cases hq : s.kernel.current with
    | none => rfl
    | some q => by_cases hqp : q = p <;> simp [hqp, Option.filter]
  refine ⟨{ kernel := { s.kernel with
              store := { store with table }, ready, softBlockCount, current
              processCount := s.kernel.processCount - 1 }
            machine := s.machine.credit (v.debt p)
            journal := s.journal.count fun c => { c with killed := c.killed.increment } }, ?_, ?_⟩
  · have hr' : (Kernel.table { s.kernel with store, ready, softBlockCount }).release p =
        .ok table := hr
    simp only [destroy, hproc, ok_bind, hu, hr', lower, if_pos hone, pure_eq_ok, hcurrent]
    rfl
  · refine ⟨⟨ha', ?_, ?_, fun q hq => ?_⟩, ?_, ?_, ?_, hfilter, rfl, rfl, rfl, rfl,
      rfl, rfl, rfl, rfl, rfl⟩
    · have hsum := h.processes
      simp only [← hlen, List.length_cons]
      omega
    · rw [View.softBlocked_without_singleton]
      simp only
      omega
    · have hq' : current = some q := hq
      rw [hfilter, Option.filter_eq_some_iff] at hq'
      exact View.loose_without.mpr ⟨h.running q hq'.1, by simpa using hq'.2⟩
    · have hk : table.free.map (·.val) = p.slot.toNat :: s.kernel.table.free.map (·.val) := by
        rw [← hlen, List.map_cons, hi]
        rfl
      exact hk
    · exact Nat.sub_add_cancel hone
    · rw [List.countP_singleton]
      exact hc

theorem sound_setTable (h : s.kernel.Sound v) {table : Table} {w : View}
    (ht : table.Shows (Store.station s.kernel.store.directory s.kernel.ready) w)
    (hq : w.queue = v.queue) (hl : w.Loose = v.Loose)
    (hf : table.free = s.kernel.store.table.free) : (s.kernel.setTable table).Sound w where
  arranged := h.arranged.withTable ht hq
  processes := by
    have hsum := h.processes
    rw [← hf] at hsum
    exact hsum
  softBlocks := by
    have hs : w.softBlocked = v.softBlocked := by rw [View.softBlocked, hq, View.softBlocked]
    exact h.softBlocks.trans hs.symm
  running p hp := by
    rw [hl]
    exact h.running p hp

/-- The processes on the work list are live and different, and none of
them is among those that end. -/
structure Pending (v : View) (stack l : List Handle) : Prop where
  nodup : stack.Nodup
  live : ∀ p ∈ stack, ∃ x, v.process p = some x
  spared : ∀ p ∈ stack, p ∉ l

theorem Pending.without {stack : List Handle} (h : Pending v stack (l ++ p :: rest)) :
    Pending (v.without (l ++ [p])) stack rest where
  nodup := h.nodup
  live q hq := by
    have hn := h.spared q hq
    obtain ⟨x, hx⟩ := h.live q hq
    refine ⟨x, (View.process_without fun hm => hn ?_).trans hx⟩
    simp only [List.mem_append, List.mem_cons] at hm ⊢
    tauto
  spared q hq hm := h.spared q hq (by simp [hm])

theorem Pending.push {below after : List Handle}
    (hp : Pending v (top :: rest) (below ++ p :: after)) (hx : v.process p = some x)
    (hn : p ∉ below) : Pending (v.orphan p) (p :: top :: rest) below := by
  have hstack : (p :: top :: rest).Nodup :=
    List.nodup_cons.mpr ⟨fun hm => hp.spared p hm (by simp), hp.nodup⟩
  refine ⟨hstack, fun q hq => ?_, fun q hq hm => ?_⟩
  · refine View.exists_process_alter.mpr ?_
    rcases List.mem_cons.mp hq with rfl | hq
    · exact ⟨x, hx⟩
    · exact hp.live q hq
  · rcases List.mem_cons.mp hq with rfl | hq
    · exact hn hm
    · exact hp.spared q hq (by simp [hm])

theorem Pending.children_orphan {q : Handle} (hp : Pending v (top :: rest) l) (hw : v.Wf)
    (hc : v.IsChild p top) (hq : q ∈ l) : (v.orphan p).children q = v.children q := by
  refine View.filter_ne_of_notMem fun hm => ?_
  have htop := View.Wf.parent_unique hc ((hw.mem_children q p).mp hm)
  exact hp.spared q (by simp [← htop]) hq

theorem children_without_eq_nil {q : Handle} (hs : v.children q ⊆ l) :
    (v.without l).children q = [] := by
  have hc : (v.without l).children q = (v.children q).filter (· ∉ l) := rfl
  rw [hc, List.filter_eq_nil_iff]
  intro c hm
  simpa using hs hm

theorem endAll_push (h : s.kernel.Sound v) (ht : v.process top = some x)
    (hc : v.children top = p :: ps) (hp : Pending (v.orphan p) (p :: top :: rest) l) :
    ∃ table, (s.kernel.setTable table).Sound (v.orphan p) ∧ table.free = s.kernel.table.free ∧
      ∀ n, s.endAll (n + 1) (top :: rest) =
        endAll { s with kernel := s.kernel.setTable table } n (p :: top :: rest) := by
  obtain ⟨table, hd, hs, hf⟩ := h.arranged.shows.dropFirstChild_cons ht hc
  refine ⟨table, sound_setTable h hs rfl View.loose_orphan hf.free, hf.free, fun n => ?_⟩
  have hd' : s.kernel.table.dropFirstChild top = .ok (some p, table) := hd
  have hroom : rest.length + 1 < maxProcesses := hs.registers.length_le hp.live hp.nodup
  simp only [endAll, hd', ok_bind, hroom, if_true]

theorem endAll_pop (h : s.kernel.Sound v) (hp : v.process top = some x) (hx : x.parent = none)
    (hc : v.children top = []) (rest : List Handle) :
    ∃ t, Ended v [top] s t ∧ ∀ n k u, t.endAll n rest = .ok (k, u) →
      s.endAll (n + 1) (top :: rest) = .ok (k + 1, u) := by
  obtain ⟨t, ht, he⟩ := destroy_eq h hp hx hc
  refine ⟨t, he, fun n k u hk => ?_⟩
  have hd : s.kernel.table.dropFirstChild top = .ok (none, s.kernel.table) :=
    h.arranged.shows.dropFirstChild_nil hp hc
  simp only [endAll, hd, ok_bind, ht, hk, pure_eq_ok]

/-- With the children `ps` of the top, all that is below them ends, and
the work list is as before. -/
theorem endAll_eq {ch : Handle → List Handle} (hl : Postorder ch ps l) {n : Nat}
    (h : s.kernel.Sound v) (hch : ∀ p ∈ l, v.children p = ch p) (htop : v.children top = ps)
    (hn : l.Nodup) (hp : Pending v (top :: rest) l) :
    ∃ t, Ended v l s t ∧ ∀ k u, t.endAll n (top :: rest) = .ok (k, u) →
      s.endAll (n + 2 * l.length) (top :: rest) = .ok (k + l.length, u) := by
  induction hl generalizing s v n top rest with
  | nil => exact ⟨s, .refl h, fun k u hk => by simpa using hk⟩
  | @cons p ps below after hb hr ihb ihr =>
    have hw := h.arranged.wf
    obtain ⟨hnb, hna, hdisj⟩ := List.nodup_append.mp hn
    obtain ⟨hpa, hna⟩ := List.nodup_cons.mp hna
    have hpb : p ∉ below := fun hm => hdisj p hm p (by simp) rfl
    have hpm : p ∈ below ++ p :: after := by simp
    obtain ⟨y, hy⟩ := hp.live top (by simp)
    obtain ⟨x, hx, hxp⟩ := (hw.mem_children top p).mp (by simp [htop])
    have hp₁ := hp.push hx hpb
    obtain ⟨table, hs₁, hf, hpush⟩ := endAll_push h hy htop hp₁
    have hchildren : ∀ q ∈ below ++ p :: after, (v.orphan p).children q = ch q := fun q hq =>
      (hp.children_orphan hw ⟨x, hx, hxp⟩ hq).trans (hch q hq)
    -- first what is below the child
    obtain ⟨t₁, he₁, hk₁⟩ := ihb (s := { s with kernel := s.kernel.setTable table })
      (n := n + 2 * after.length + 1) hs₁
      (fun q hq => hchildren q (by simp [hq])) (hchildren p hpm) hnb hp₁
    -- then the child itself
    have hx₁ : ((v.orphan p).without below).process p = some { x with parent := none } :=
      (View.process_without hpb).trans (View.process_alter_self hx)
    have hc₁ : ((v.orphan p).without below).children p = [] :=
      children_without_eq_nil (hchildren p hpm ▸ hb.subset)
    obtain ⟨t₂, he₂, hk₂⟩ := endAll_pop he₁.sound hx₁ rfl hc₁ (top :: rest)
    have he₂' : Ended v (below ++ [p]) s t₂ :=
      (he₁.trans he₂ fun q hq => by rwa [List.mem_singleton.mp hq]).of_orphan (by simp) hf
    -- then the younger children and what is below them
    have hafter : ∀ q ∈ after, q ∉ below ++ [p] := fun q hq hm => by
      rcases List.mem_append.mp hm with hm | hm
      · exact hdisj q hm q (by simp [hq]) rfl
      · exact hpa (List.mem_singleton.mp hm ▸ hq)
    have hkeep : ∀ cs ⊆ after, cs.filter (· ∉ below ++ [p]) = cs := fun cs hcs =>
      List.filter_eq_self.mpr fun c hc => by simpa using hafter c (hcs hc)
    obtain ⟨t₃, he₃, hk₃⟩ := ihr (n := n) he₂'.sound
      (fun q hq => by
        have hc : (v.without (below ++ [p])).children q =
            (v.children q).filter (· ∉ below ++ [p]) := rfl
        rw [hc, hch q (by simp [hq]), hkeep _ (hr.closed hq)])
      (by
        have hc : (v.without (below ++ [p])).children top =
            (v.children top).filter (· ∉ below ++ [p]) := rfl
        rw [hc, htop, List.filter_cons_of_neg (by simp), hkeep _ hr.subset])
      hna hp.without
    refine ⟨t₃, ?_, fun k u hk => ?_⟩
    · have he := he₂'.trans he₃ hafter
      rwa [List.append_assoc, List.singleton_append] at he
    · have hend := hk₁ _ _ (hk₂ _ _ _ (hk₃ k u hk))
      have hfuel : n + 2 * (below ++ p :: after).length =
          n + 2 * after.length + 1 + 2 * below.length + 1 := by
        simp only [List.length_append, List.length_cons]
        omega
      rw [hfuel, hpush, hend, List.length_append, List.length_cons]
      congr 2
      omega

theorem detach_eq (h : s.kernel.Sound v) (hp : v.process root = some x) :
    ∃ child table, s.kernel.table.detach root = .ok (child, table) ∧
      (s.kernel.setTable table).Sound (v.orphan root) ∧ table.free = s.kernel.table.free := by
  cases hx : x.parent with
  | none =>
    have ho := h.arranged.wf.orphan_eq_self hp hx
    refine ⟨none, s.kernel.table, h.arranged.shows.detach_none hp hx, ?_, rfl⟩
    rw [ho]
    exact h
  | some q =>
    obtain ⟨table, hd, hs, hf⟩ := h.arranged.shows.detach_some hp hx
    exact ⟨some root, table, hd, sound_setTable h hs rfl View.loose_orphan hf.free, hf.free⟩

theorem terminate_eq (h : s.kernel.Sound v) (hp : v.process root = some x) :
    ∃ l t, Postorder v.children [root] l ∧ l.Nodup ∧
      (∀ q, q ∈ l ↔ Relation.ReflTransGen v.IsChild q root) ∧
      s.terminate root = .ok (l.length, t.note (.terminated root l.length)) ∧ Ended v l s t := by
  obtain ⟨below, hb, hn, hm⟩ := h.arranged.wf.family h.arranged.shows.nodup_children root
  obtain ⟨d, hfind, _⟩ := h.arranged.shows.registers.find? hp
  obtain ⟨child, table, hd, hs, hf⟩ := detach_eq h hp
  have hroot : root ∉ below := by
    have hdisj := (List.nodup_append.mp hn).2.2
    exact fun hm => hdisj root hm root (by simp) rfl
  have hch : ∀ q ∈ below ++ [root], (v.orphan root).children q = v.children q := fun q hq => by
    refine View.filter_ne_of_notMem fun hc => ?_
    exact h.arranged.wf.not_below_child ((h.arranged.wf.mem_children q root).mp hc) ((hm q).mp hq)
  have hx₀ : (v.orphan root).process root = some { x with parent := none } :=
    View.process_alter_self hp
  have hlive : ∀ q ∈ below ++ [root], ∃ y, v.process q = some y := fun q hq => by
    rcases Relation.ReflTransGen.cases_head ((hm q).mp hq) with rfl | ⟨_, ⟨y, hy, _⟩, _⟩
    · exact ⟨x, hp⟩
    · exact ⟨y, hy⟩
  have hpending : Pending (v.orphan root) [root] below :=
    ⟨by simp, by simp [hx₀], fun q hq => List.mem_singleton.mp hq ▸ hroot⟩
  obtain ⟨t₁, he₁, hk₁⟩ := endAll_eq (s := { s with kernel := s.kernel.setTable table }) hb
    (n := 2 * maxProcesses - 2 * below.length) hs (fun q hq => hch q (by simp [hq]))
    (hch root (by simp)) (List.nodup_append.mp hn).1 hpending
  have hx₁ : ((v.orphan root).without below).process root = some { x with parent := none } :=
    (View.process_without hroot).trans hx₀
  have hc₁ : ((v.orphan root).without below).children root = [] :=
    children_without_eq_nil (hch root (by simp) ▸ hb.subset)
  obtain ⟨t₂, he₂, hk₂⟩ := endAll_pop he₁.sound hx₁ rfl hc₁ []
  refine ⟨below ++ [root], t₂, .cons hb .nil, hn, hm, ?_, ?_⟩
  · have hlen := h.arranged.shows.registers.length_le hlive hn
    rw [List.length_append, List.length_singleton] at hlen
    obtain ⟨n, hn⟩ : ∃ n, 2 * maxProcesses - 2 * below.length = n + 1 :=
      ⟨2 * maxProcesses - 2 * below.length - 1, by omega⟩
    have hempty : t₂.endAll n [] = .ok (0, t₂) := by cases n <;> rfl
    have hend := hk₁ _ _ (hn ▸ hk₂ n 0 t₂ hempty)
    rw [Nat.sub_add_cancel (by omega)] at hend
    have hfind' : s.kernel.table.find? root = some d := hfind
    simp only [terminate, hfind', hd, ok_bind, hend, pure_eq_ok, List.length_append,
      List.length_singleton]
    rw [Nat.add_comm 1]
  · exact (he₁.trans he₂ fun q hq => List.mem_singleton.mp hq ▸ hroot).of_orphan (by simp) hf

end Computer
end Nucleus
