import Nucleus.Proofs.Computer.Sound

/-!
# The parts of an entry

What the operations that entries are made of do to the kernel and to the view it shows. Each of them
succeeds; the store it leaves is named, everything else of the computer is written out.
-/
namespace Nucleus.Computer

variable {s : Computer} {v : View} {p q : Handle} {x : Process} {key : SemKey}
  {l rest : List Handle}
variable {saved : SavedState}

theorem process_eq (h : s.kernel.store.Arranged s.kernel.ready v) (hp : v.process p = some x) :
    ∃ d, s.process p = .ok d ∧ s.kernel.table.find? p = some d ∧ d.process = x := by
  obtain ⟨d, hd, hx⟩ := h.shows.registers.find? hp
  refine ⟨d, ?_, hd, hx⟩
  have hs := Table.slot_eq (t := s.kernel.store.table) (Table.inPool_of_find? hd)
  rw [Table.entry_of_find? hd] at hs
  exact hs

theorem modifyProcess_eq (h : s.kernel.store.Arranged s.kernel.ready v) (hp : v.process p = some x)
    {f : Descriptor → Descriptor} {g : Process → Process}
    (hf : ∀ d,
      f d = { d with state := (f d).state, cpuTime := (f d).cpuTime, support := (f d).support })
    (hg : ∀ d : Descriptor, (f d).process = g d.process) (hgp : ∀ y, (g y).parent = y.parent)
    (hgs : ∀ y, (g y).station = y.station) :
    ∃ store, s.modifyProcess p f = .ok { s with kernel := { s.kernel with store } } ∧
      store.Arranged s.kernel.ready (v.alter p g) ∧
      store.table.free = s.kernel.store.table.free := by
  obtain ⟨t, ht, ha, hfree⟩ := h.modify hp hf hg hgp hgs
  have ht' : s.kernel.table.modify p f = .ok t := ht
  exact ⟨{ s.kernel.store with table := t },
    by simp [modifyProcess, ht', Kernel.setTable], ha, hfree⟩

theorem setState_eq (h : s.kernel.store.Arranged s.kernel.ready v) (hp : v.process p = some x)
    (f : SavedState → SavedState) :
    ∃ store, s.modifyProcess p (fun d => { d with state := f d.state }) =
        .ok { s with kernel := { s.kernel with store } } ∧
      store.Arranged s.kernel.ready (v.alter p fun y => { y with state := f y.state }) ∧
      store.table.free = s.kernel.store.table.free :=
  modifyProcess_eq h hp (fun _ => rfl) (fun _ => rfl) (fun _ => rfl) fun _ => rfl

theorem reply_eq (h : s.kernel.store.Arranged s.kernel.ready v) (hp : v.process p = some x)
    (w : Word) :
    ∃ store, s.reply p w = .ok (.load (x.state.setV0 w),
      { s with kernel := { s.kernel with store } }) ∧
      store.Arranged s.kernel.ready (v.alter p fun y => { y with state := y.state.setV0 w }) ∧
      store.table.free = s.kernel.store.table.free := by
  obtain ⟨store, hm, ha, hf⟩ := setState_eq h hp (·.setV0 w)
  obtain ⟨d, hd, _, hdx⟩ := process_eq (s := { s with kernel := { s.kernel with store } }) ha
    (View.process_alter_self hp)
  have hstate : d.state = x.state.setV0 w := congrArg Process.state hdx
  refine ⟨store, ?_, ha, hf⟩
  simp only [reply, hm, ok_bind, hd, hstate, pure_eq_ok]

theorem modifyProcess_alter (hp : p.InPool) (f : Descriptor → Descriptor) :
    s.modifyProcess p f =
      .ok { s with kernel := s.kernel.setTable (s.kernel.table.alter p f) } := by
  simp [modifyProcess, Table.modify_eq hp]

theorem charge_eq (h : s.kernel.store.Arranged s.kernel.ready v) (hc : s.kernel.current = some p)
    (hp : v.process p = some x) : ∃ store, s.charge =
        .ok { s with kernel := { s.kernel with store, stopwatch := .startedAt s.machine } } ∧
      store.Arranged s.kernel.ready (v.alter p fun y =>
        { y with cpuTime := y.cpuTime + s.kernel.stopwatch.elapsed s.machine }) ∧
      store.table.free = s.kernel.store.table.free := by
  have hm := modifyProcess_eq
    (s := { s with kernel := { s.kernel with stopwatch := .startedAt s.machine } }) (v := v) h hp
    (f := fun d => { d with cpuTime := d.cpuTime + s.kernel.stopwatch.elapsed s.machine })
    (g := fun y => { y with cpuTime := y.cpuTime + s.kernel.stopwatch.elapsed s.machine })
    (fun _ => rfl) (fun _ => rfl) (fun _ => rfl) fun _ => rfl
  obtain ⟨store, hs, ha, hfree⟩ := hm
  refine ⟨store, ?_, ha, hfree⟩
  simp only [charge, Stopwatch.lap]
  split
  · next hn => cases hc.symm.trans hn
  · next q hq =>
    obtain rfl : p = q := Option.some.inj (hc.symm.trans hq)
    exact hs

theorem reply_saved {t : Computer} (hp : p.InPool)
    (ht : t.kernel = s.kernel.setTable (s.kernel.table.alter p fun d => { d with state := saved }))
    (w : Word) : t.reply p w = .ok (.load (saved.setV0 w), { t with
      kernel := s.kernel.setTable (s.kernel.table.alter p fun d =>
        { d with state := saved.setV0 w }) }) := by
  have htable : (t.kernel.table.alter p fun d => { d with state := d.state.setV0 w }) =
      s.kernel.table.alter p fun d => { d with state := saved.setV0 w } := by
    rw [ht]
    exact Table.alter_alter (fun d => { d with state := saved }) fun d =>
      { d with state := d.state.setV0 w }
  have hset : ∀ table, t.kernel.setTable table = s.kernel.setTable table := by
    rw [ht]
    exact fun _ => rfl
  have hslot :=
    Table.slot_eq (t := s.kernel.table.alter p fun d => { d with state := saved.setV0 w }) hp
  rw [Table.entry_alter hp, if_pos rfl] at hslot
  simp only [reply, modifyProcess_alter hp, htable, hset, ok_bind, process]
  exact congrArg (· >>= _) hslot

theorem makeReady_kernel {k : Kernel} (h : k.store.Arranged k.ready v) (hp : v.Loose p) :
    ∃ store ready, k.makeReady p = .ok { k with store, ready } ∧
      store.Arranged ready (v.join p .ready) ∧ store.table.free = k.store.table.free := by
  obtain ⟨x, hx, hs⟩ := hp
  obtain ⟨r, t, w, hi, hm, ha, hf⟩ := h.makeReady hx hs
  have hi' : k.ready.insert k.table .queue p = .ok (r, t) := hi
  refine ⟨{ k.store with table := w }, r, ?_, ha, hf⟩
  simp [Kernel.makeReady, hi', hm, Kernel.setTable]

theorem makeReady_eq (h : s.kernel.store.Arranged s.kernel.ready v) (hp : v.Loose p) :
    ∃ store ready, s.makeReady p = .ok { s with kernel := { s.kernel with store, ready } } ∧
      store.Arranged ready (v.join p .ready) ∧ store.table.free = s.kernel.store.table.free := by
  obtain ⟨store, ready, hk, ha, hf⟩ := makeReady_kernel h hp
  exact ⟨store, ready, by simp [makeReady, hk], ha, hf⟩

theorem makeReady_all (h : s.kernel.store.Arranged s.kernel.ready v) (hl : ∀ p ∈ l, v.Loose p)
    (hn : l.Nodup) :
    ∃ store ready, l.foldlM makeReady s = .ok { s with kernel := { s.kernel with store, ready } } ∧
      store.Arranged ready (v.joinAll l .ready) ∧ store.table.free = s.kernel.store.table.free := by
  induction l generalizing s v with
  | nil => exact ⟨_, _, rfl, h, rfl⟩
  | cons p l ih =>
    obtain ⟨hp, hn⟩ := List.nodup_cons.mp hn
    obtain ⟨store, ready, hm, ha, hf⟩ := makeReady_eq h (hl p (by simp))
    have hrest : ∀ q ∈ l, (v.join p .ready).Loose q := fun q hq =>
      View.loose_join.mpr ⟨hl q (by simp [hq]), fun e => hp (e ▸ hq)⟩
    obtain ⟨store', ready', hm', ha', hf'⟩ :=
      ih (s := { s with kernel := { s.kernel with store, ready } }) ha hrest hn
    refine ⟨store', ready', ?_, ha', hf'.trans hf⟩
    rw [List.foldlM_cons, hm, ok_bind, hm']

theorem setCells_channel (c : Channel) (value : Int32) :
    s.setCells (s.cells.assign c.key value) =
      { s with kernel := { s.kernel with channels := s.kernel.channels.set c value c.isLt } } := by
  have ha : s.cells.assign c.key value = ⟨s.kernel.channels.set c value c.isLt, s.machine⟩ := by
    simp [NucleusCells.assign, cells]
  rw [ha]
  rfl

theorem wait_cases (h : s.kernel.store.Arranged s.kernel.ready v) (hp : v.Loose p) (key : SemKey) :
    (0 ≤ s.cells.value key - 1 ∧
      s.wait key p = .ok (.ok false, s.setCells (s.cells.assign key (s.cells.value key - 1)))) ∨
    (¬0 ≤ s.cells.value key - 1 ∧ ∃ store,
      s.wait key p = .ok (.ok true,
        (s.setCells (s.cells.assign key (s.cells.value key - 1))).setStore store) ∧
      store.Arranged s.kernel.ready (v.join p (.semaphore key)) ∧
      store.table.free = s.kernel.store.table.free) := by
  by_cases hv : 0 ≤ s.cells.value key - 1
  · refine .inl ⟨hv, ?_⟩
    have hw : s.kernel.store.wait s.cells key p =
        .ok (.ok false, s.kernel.store, s.cells.assign key (s.cells.value key - 1)) := if_pos hv
    simp [wait, hw, setStore, setCells]
  · refine .inr ⟨hv, ?_⟩
    obtain ⟨x, hx, hs⟩ := hp
    obtain ⟨store, he, ha, hf⟩ := h.enqueue hx hs key
    refine ⟨store, ?_, ha, hf⟩
    have hw : s.kernel.store.wait s.cells key p =
        .ok (.ok true, store, s.cells.assign key (s.cells.value key - 1)) := by
      have hv' : ¬0 ≤ SemaphoreCells.value s.cells key - 1 := hv
      simp only [Store.wait, if_neg hv', he, ok_bind, pure_eq_ok]
      rfl
    simp [wait, hw]

/-- V wakes the first process in the queue when it leaves the integer at zero or below. -/
theorem signal_cases (h : s.kernel.store.Arranged s.kernel.ready v) (key : SemKey) :
    (∃ q rest store ready, s.cells.value key + 1 ≤ 0 ∧ v.queue (.semaphore key) = q :: rest ∧
      s.signal key = .ok (some q, { s.setCells (s.cells.assign key (s.cells.value key + 1)) with
        kernel := { (s.setCells (s.cells.assign key (s.cells.value key + 1))).kernel with
          store, ready } }) ∧
      store.Arranged ready ((v.leave q).join q .ready) ∧
      store.table.free = s.kernel.store.table.free) ∨
    ((¬s.cells.value key + 1 ≤ 0 ∨ v.queue (.semaphore key) = []) ∧
      s.signal key = .ok (none, s.setCells (s.cells.assign key (s.cells.value key + 1)))) := by
  have hstep : s.kernel.store.signal s.cells key =
      if s.cells.value key + 1 ≤ 0 then
        s.kernel.store.dequeue key >>= fun r =>
          .ok (r.1, r.2, s.cells.assign key (s.cells.value key + 1))
      else .ok (none, s.kernel.store, s.cells.assign key (s.cells.value key + 1)) := rfl
  by_cases hv : s.cells.value key + 1 ≤ 0
  · rw [if_pos hv] at hstep
    cases hq : v.queue (.semaphore key) with
    | nil =>
      refine .inr ⟨.inr rfl, ?_⟩
      rw [h.dequeue_nil hq, ok_bind] at hstep
      simp [signal, hstep, setStore, setCells]
    | cons q rest =>
      obtain ⟨store, hd, ha, hf⟩ := h.dequeue_cons hq
      rw [hd, ok_bind] at hstep
      have hlive : ∃ x, v.process q = some x := by
        obtain ⟨x, hx, _⟩ := (h.wf.mem_queue _ q).mp (by rw [hq]; simp)
        exact ⟨x, hx⟩
      obtain ⟨store', ready, hm, ha', hf'⟩ := makeReady_eq
        (s := (s.setCells (s.cells.assign key (s.cells.value key + 1))).setStore store) ha
        ((View.loose_leave hlive).mpr (.inr rfl))
      refine .inl ⟨q, rest, store', ready, hv, rfl, ?_, ha', hf'.trans hf⟩
      simp only [signal, hstep, ok_bind, hm]
      rfl
  · rw [if_neg hv] at hstep
    exact .inr ⟨.inl hv, by simp [signal, hstep, setStore, setCells]⟩

theorem schedule_cons (h : s.kernel.store.Arranged s.kernel.ready v)
    (hq : v.queue .ready = p :: rest) : ∃ x store ready, v.process p = some x ∧
      s.schedule = .ok (.load x.state,
        { s with
          kernel :=
            { s.kernel with store, ready, current := some p, stopwatch := .startedAt s.machine }
          machine := s.machine.loadLocalTimer s.kernel.timing.quantum
          journal := (s.journal.count fun c => { c with dispatches := c.dispatches.increment }).note
            (.dispatched p x.state.pc) }) ∧
      store.Arranged ready (v.leave p) ∧ store.table.free = s.kernel.store.table.free := by
  obtain ⟨r, u, hpop, hl, hr⟩ := h.shows.queues.pop hq
  have hpop' : s.kernel.ready.pop s.kernel.table .queue = .ok (some p, r, u) := hpop
  have hm : p ∈ v.queue .ready := by simp [hq]
  obtain ⟨w, hw, ha, hf⟩ := h.clear_ready hm hl hr
  obtain ⟨x, hx, _⟩ := (h.wf.mem_queue .ready p).mp hm
  have hx' : (v.leave p).process p = some { x with station := none } := View.process_alter_self hx
  obtain ⟨d, hd, hdx⟩ := ha.shows.registers.find? hx'
  have hslot := Table.slot_eq (t := w) (Table.inPool_of_find? hd)
  rw [Table.entry_of_find? hd] at hslot
  have hstate : d.state = x.state := congrArg Process.state hdx
  refine ⟨x, { s.kernel.store with table := w }, r, hx, ?_, ha, hf⟩
  simp only [schedule, hpop', ok_bind, hw, hslot, pure_eq_ok, hstate]
  rfl

theorem schedule_nil (h : s.kernel.store.Arranged s.kernel.ready v) (hq : v.queue .ready = []) :
    ∃ machine journal, s.schedule = .ok (s.kernel.verdict,
        { kernel := { s.kernel with current := none }, machine, journal }) ∧
      machine.memory = s.machine.memory ∧
      machine.localTimer = (if s.kernel.verdict = .wait then idleTimer else s.machine.localTimer) ∧
      journal.counters.created = s.journal.counters.created ∧
      journal.counters.killed = s.journal.counters.killed ∧
      journal.counters.dispatches = s.journal.counters.dispatches := by
  have hh := h.shows.queues.holds .ready
  rw [hq] at hh
  have hpop : s.kernel.ready.pop s.kernel.table .queue =
      .ok (none, s.kernel.ready, s.kernel.table) :=
    Ring.pop_nil hh
  simp only [schedule, hpop, ok_bind, Kernel.verdict]
  split
  · exact ⟨_, _, rfl, rfl, rfl, rfl, rfl, rfl⟩
  · split
    · exact ⟨_, _, rfl, rfl, rfl, rfl, rfl, rfl⟩
    · exact ⟨_, _, rfl, rfl, rfl, rfl, rfl, rfl⟩

end Nucleus.Computer
