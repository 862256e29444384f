import Nucleus.Proofs.Ending

/-!
# The birth of a process

Kernel code asks for a new process and gets it whole or not at all. It is born just when the state
is read from a word that can be one and a descriptor is free. Then the descriptor has nothing of
whoever had the slot before, the process comes last among its parent's children and among the ready
ones, and its parent is told its name. Otherwise the caller is told so, and that is all.
-/
namespace Nucleus

structure SavedState.AsksForChild (saved : SavedState) : Prop where
  code : saved.trapCode = Trap.request.code
  mode : saved.wasUserMode = false
  service : saved.register .a0 = 1

def SavedState.childRequest (saved : SavedState) : Request :=
  .createProcess (saved.register .a1) (SupportArea.ofWord? (saved.register .a2))

theorem SavedState.AsksForChild.served? {saved : SavedState} (h : saved.AsksForChild) (p : Handle) :
    saved.served? (some p) = some (p, saved.childRequest) := by
  have hr : Request.ofState? saved = some saved.childRequest := by
    simp [Request.ofState?, h.service, childRequest]
  have hm : saved.matter = .request saved.childRequest := by
    rw [SavedState.matter, h.code, hr]
    simp [Route.ofCode, Trap.ofCode?_code, h.mode, childRequest, Request.isWellFormed]
  exact SavedState.served?_eq_some.mpr ⟨hm, rfl⟩

namespace Computer

def CanCreate (s : Computer) (address : Word) : Prop :=
  address ≠ 0 ∧ address % wordBytes = 0 ∧ s.kernel.table.live.length < maxProcesses

/-- `t` is `s` after `child` was born to the running process `p`, which is told so. -/
structure Created (saved : SavedState) (p child : Handle) (s t : Computer) : Prop where
  fresh : ∀ q, s.kernel.table.isLive q → q ≠ child ∧ q.slot ≠ child.slot
  live : ∀ q, t.kernel.table.isLive q ↔ s.kernel.table.isLive q ∨ q = child
  born : ∃ state, (t.kernel.table.find? child).map (·.bare) = some
      { handle := child, parent := some p, location := .ready, state
        support := SupportArea.ofWord? (saved.register .a2) } ∧
    ∀ (i : Fin stateWords) (a : Word), a.toNat = (saved.register .a1).toNat + 4 * i.val →
      state.word i = s.machine.read a
  childless : t.kernel.table.childrenOf child = .ok []
  siblings : ∃ cs, s.kernel.table.childrenOf p = .ok cs ∧
    t.kernel.table.childrenOf p = .ok (cs ++ [child])
  ready : ∃ q, s.kernel.readyList = .ok q ∧ t.kernel.readyList = .ok (q ++ [child])
  caller : (t.kernel.table.find? p).map (·.bare) = (s.kernel.table.find? p).map fun d =>
    { d.bare with state := (saved.pastInstruction.setV1 child.toWord).setV0 0 }
  others : ∀ q, q ≠ p → q ≠ child →
    (t.kernel.table.find? q).map (·.bare) = (s.kernel.table.find? q).map (·.bare)
  families : ∀ q, s.kernel.table.isLive q → q ≠ p → ∃ cs, s.kernel.table.childrenOf q = .ok cs ∧
    t.kernel.table.childrenOf q = .ok cs
  waiters : ∀ key, ∃ q, s.kernel.store.waiters key = .ok q ∧ t.kernel.store.waiters key = .ok q
  keys : ∃ keys, s.kernel.store.directory.keys = .ok keys ∧ t.kernel.store.directory.keys = .ok keys
  frame : t = { s with
    kernel := { s.kernel with
      store := t.kernel.store, ready := t.kernel.ready, processCount := s.kernel.processCount + 1 }
    journal := t.journal }
  counters : t.journal.counters = { s.journal.counters with
    requests := s.journal.counters.requests.increment,
    created := s.journal.counters.created.increment }
  events : t.journal.events = .created p child ::
    .requested p saved.childRequest :: s.journal.events

/-- `t` is `s` after the running process `p` was refused a child: its saved state and the count of
requests are all that is new. -/
structure RefusedChild (saved : SavedState) (p : Handle) (s t : Computer) : Prop where
  kernel : ∃ table, s.kernel.table.modify p
    ({ · with state := saved.pastInstruction.setV0 0xFFFFFFFF }) = .ok table ∧
    t.kernel = s.kernel.setTable table
  machine : t.machine = s.machine
  counters : t.journal.counters =
    { s.journal.counters with requests := s.journal.counters.requests.increment }
  events : t.journal.events = .creationRefused p (if saved.register .a1 = 0 ∨
      saved.register .a1 % wordBytes ≠ 0 then .invalidArgument else .noFreeProcess) ::
    .requested p saved.childRequest :: s.journal.events

end Computer

namespace View
variable {v : View} {p q child : Handle} {y : Process} {past : SavedState}

/-- The processes after `child` was born as `y` to `p`, which goes on from `past` and is told so. -/
def bear (v : View) (p child : Handle) (past : SavedState) (y : Process) : View :=
  (((((v.alter p ({ · with state := past })).create child y).adopt p child).join
    child .ready).alter p fun z => { z with state := z.state.setV1 child.toWord }).alter p
      fun z => { z with state := z.state.setV0 0 }

theorem process_bear_child (h : p ≠ child) :
    (v.bear p child past y).process child =
      some { y with parent := some p, station := some .ready } := by
  simp [bear, alter, join, adopt, create, h.symm]

theorem process_bear_parent (h : p ≠ child) : (v.bear p child past y).process p =
    (v.process p).map ({ · with state := (past.setV1 child.toWord).setV0 0 }) := by
  simp [bear, alter, join, adopt, create, h, Function.comp_def]

theorem process_bear_of_ne (hp : q ≠ p) (hc : q ≠ child) :
    (v.bear p child past y).process q = v.process q := by
  simp [bear, alter, join, adopt, create, hp, hc]

theorem exists_process_bear (h : p ≠ child) :
    (∃ z, (v.bear p child past y).process q = some z) ↔
      (∃ z, v.process q = some z) ∨ q = child := by
  by_cases hqc : q = child
  · simp [hqc, process_bear_child h]
  · by_cases hqp : q = p
    · simp [hqp, h, process_bear_parent h]
    · simp [hqc, process_bear_of_ne hqp hqc]

theorem queue_bear :
    (v.bear p child past y).queue = Function.update v.queue .ready (v.queue .ready ++ [child]) :=
  rfl

end View

namespace Computer
variable {s t u : Computer} {v : View} {p child : Handle} {x : Process} {saved : SavedState}
  {address : Word}

theorem tell_eq (h : s.kernel.store.Arranged s.kernel.ready v) (hp : v.process p = some x)
    (a b : Word) :
    ∃ store, (s.modifyProcess p fun d => { d with state := d.state.setV1 a }) >>= (·.reply p b) =
        .ok (.load ((x.state.setV1 a).setV0 b), { s with kernel := { s.kernel with store } }) ∧
      store.Arranged s.kernel.ready ((v.alter p fun y =>
        { y with state := y.state.setV1 a }).alter p fun y =>
          { y with state := y.state.setV0 b }) := by
  obtain ⟨store, hset, ha, _⟩ := setState_eq h hp (·.setV1 a)
  obtain ⟨store', hreply, ha', _⟩ := reply_eq (s := { s with kernel := { s.kernel with store } }) ha
    (View.process_alter_self hp) b
  exact ⟨store', by rw [hset, ok_bind, hreply], ha'⟩

theorem createProcess_eq (h : s.kernel.Sound v) (hx : v.process p = some x)
    (haddress : ¬(address = 0 ∨ address % wordBytes ≠ 0)) (support : Option SupportArea)
    {table : Table} {r : Request}
    (halloc : (s.saving saved p r).kernel.table.alloc = some (child, table)) :
    ∃ store ready, v.process child = none ∧
      (s.saving saved p r).createProcess p address support =
        .ok (.load ((saved.pastInstruction.setV1 child.toWord).setV0 0), { s with
          kernel := { s.kernel with store, ready, processCount := s.kernel.processCount + 1 }
          journal := ((s.saving saved p r).journal.count fun c =>
            { c with created := c.created.increment }).note (.created p child) }) ∧
      store.Arranged ready (v.bear p child saved.pastInstruction
        { state := s.machine.readState address, support }) := by
  have hsaved : (s.saving saved p r).kernel.Sound
      (v.alter p fun y => { y with state := saved.pastInstruction }) :=
    sound_setState h hx saved.pastInstruction
  have hx₁ := View.process_alter_self (f := fun y => { y with state := saved.pastInstruction }) hx
  obtain ⟨store₁, ready, hn, _, he, ha₁, _⟩ := createChild_eq hsaved hx₁ haddress support halloc
  have hpc : p ≠ child := View.ne_of_process hx₁ hn
  have hx₂ : ((((v.alter p fun y => { y with state := saved.pastInstruction }).create child
      { state := s.machine.readState address, support }).adopt p child).join
        child .ready).process p = some { x with state := saved.pastInstruction } := by
    simp [View.join, View.adopt, View.create, View.alter, hpc, hx]
  obtain ⟨store₂, htell, ha₂⟩ := tell_eq (s := { s with
    kernel := { s.kernel with store := store₁, ready, processCount := s.kernel.processCount + 1 }
    journal := ((s.saving saved p r).journal.count fun c =>
      { c with created := c.created.increment }).note (.created p child) }) ha₁ hx₂ child.toWord 0
  refine ⟨store₂, ready, (View.process_alter_of_ne hpc.symm).symm.trans hn, ?_, ha₂⟩
  simp only [createProcess, he, ok_bind]
  exact htell

/-- The words from an address on are those of the state that is read there. -/
theorem word_readState {m : Machine} (i : Fin stateWords) {a : Word}
    (ha : a.toNat = address.toNat + 4 * i.val) : (m.readState address).word i = m.read a := by
  have hlt := a.toNat_lt
  have hword : wordAt address i.val = a :=
    UInt32.toNat_inj.mp ((toNat_wordAt (by rw [← ha]; exact hlt)).trans ha.symm)
  rw [Machine.readState, SavedState.word_ofWords, hword]

theorem created (h : s.kernel.store.Arranged s.kernel.ready v) (hx : v.process p = some x)
    (hn : v.process child = none)
    (ht : t.kernel.store.Arranged t.kernel.ready (v.bear p child saved.pastInstruction
      { state := s.machine.readState (saved.register .a1),
        support := SupportArea.ofWord? (saved.register .a2) }))
    (hframe : t = { s with
      kernel := { s.kernel with
        store := t.kernel.store, ready := t.kernel.ready,
        processCount := s.kernel.processCount + 1 }
      journal := t.journal })
    (hjournal : t.journal = ((s.saving saved p saved.childRequest).journal.count fun c =>
      { c with created := c.created.increment }).note (.created p child)) :
    Created saved p child s t := by
  have hpc : p ≠ child := View.ne_of_process hx hn
  have hr := h.shows.registers
  have hr' := ht.shows.registers
  have hp : s.kernel.table.isLive p := h.shows.isLive_iff.mpr ⟨x, hx⟩
  have hlive : ∀ q, t.kernel.table.isLive q ↔ s.kernel.table.isLive q ∨ q = child := fun q =>
    ht.shows.isLive_iff.trans ((View.exists_process_bear hpc).trans
      (or_congr_left h.shows.isLive_iff.symm))
  have hchildren : ∀ q, t.kernel.table.isLive q →
      t.kernel.table.childrenOf q = .ok
        (Function.update v.children p (v.children p ++ [child]) q) :=
    fun _ => ht.shows.childrenOf_of_isLive
  refine ⟨fun q hq => ?fresh, hlive, ⟨_, ?born, fun i a => word_readState i⟩, ?childless,
    ⟨_, h.shows.childrenOf_of_isLive hp, ?siblings⟩, ⟨_, h.readyList_eq, ?ready⟩, ?caller,
    fun q hqp hqc => hr.bare_eq hr' (View.process_bear_of_ne hqp hqc),
    fun q hq hqp => ⟨_, h.shows.childrenOf_of_isLive hq, ?families⟩,
    fun key => ⟨_, h.waiters_eq key, ?waiters⟩, h.indexes.keys_congr ?keys, hframe,
    ?counters, ?events⟩
  case fresh =>
    -- a slot has one live handle at a time, and in the end it is the child's
    have hne : q.slot ≠ child.slot := fun e => by
      obtain ⟨y, hy⟩ := ht.shows.isLive_iff.mp ((hlive q).mpr (.inl hq))
      obtain rfl := hr'.eq_of_slot hy (View.process_bear_child hpc) e
      obtain ⟨z, hz⟩ := h.shows.isLive_iff.mp hq
      rw [hn] at hz
      cases hz
    exact ⟨fun e => hne (congrArg Handle.slot e), hne⟩
  case born =>
    exact hr'.bare_of_process
      (d := { handle := child, parent := some p, location := .ready, state := _, support := _ })
      (View.process_bear_child hpc) (by simp) (by simp)
  case childless =>
    rw [hchildren child ((hlive child).mpr (.inr rfl)), Function.update_of_ne hpc.symm,
      h.wf.children_eq_nil hn]
  case siblings => rw [hchildren p ((hlive p).mpr (.inl hp)), Function.update_self]
  case ready => rw [ht.readyList_eq, View.queue_bear, Function.update_self]
  case caller =>
    exact hr.bare_map hr'
      (f := ({ · with state := (saved.pastInstruction.setV1 child.toWord).setV0 0 }))
      (View.process_bear_parent hpc) (fun _ => rfl) (fun _ => rfl)
      fun d hd => ⟨(Table.location_of_find? hd :), hr.tagged _ d hd⟩
  case families => rw [hchildren q ((hlive q).mpr (.inl hq)), Function.update_of_ne hqp]
  case waiters => rw [ht.waiters_eq, View.queue_bear, Function.update_of_ne (by simp)]
  case keys =>
    have hi := ht.indexes
    simpa [View.queue_bear] using hi
  case counters => rw [hjournal]; rfl
  case events =>
    rw [hjournal]
    rfl

theorem createProcess_refused (hp : p.InPool) {support : Option SupportArea} {r : Request}
    {e : ServiceError}
    (he : (s.saving saved p r).createChild p address support = .ok (.error e, s.saving saved p r)) :
    (s.saving saved p r).createProcess p address support =
      .ok (.load (saved.pastInstruction.setV0 0xFFFFFFFF),
        { (s.saving saved p r).note (.creationRefused p e) with
        kernel := s.kernel.setTable
          (s.kernel.table.alter p fun d =>
            { d with state := saved.pastInstruction.setV0 0xFFFFFFFF }) }) := by
  simp only [createProcess, he, ok_bind, refuse]
  exact reply_saved hp rfl _

theorem refused (hp : p.InPool) {e : ServiceError} (he : e = if saved.register .a1 = 0 ∨
      saved.register .a1 % wordBytes ≠ 0 then .invalidArgument else .noFreeProcess) :
    RefusedChild saved p s { (s.saving saved p saved.childRequest).note (.creationRefused p e) with
      kernel := s.kernel.setTable
        (s.kernel.table.alter p fun d =>
          { d with state := saved.pastInstruction.setV0 0xFFFFFFFF }) } where
  kernel := ⟨_, Table.modify_eq hp, rfl⟩
  machine := rfl
  counters := rfl
  events := by
    rw [← he]
    rfl

theorem alloc_saving_eq_none_iff (h : s.kernel.Sound v) (p : Handle) (saved : SavedState)
    (r : Request) :
    (s.saving saved p r).kernel.table.alloc = none ↔
      ¬s.kernel.table.live.length < maxProcesses := by
  have hfree : (s.saving saved p r).kernel.table.free = s.kernel.table.free :=
    Table.free_alter (t := s.kernel.table) (p := p)
      (f := fun d => { d with state := saved.pastInstruction })
  have hlength := h.registers.pool.length_live
  rw [Table.Pooled.alloc_eq_none_iff, hfree, ← List.length_eq_zero_iff]
  omega

section
variable (h : s.kernel.Sound v) (hc : s.kernel.current = some p) (hsaved : saved.AsksForChild)
include h hc hsaved

theorem exception_eq_createProcess : s.exception saved =
    (s.saving saved p saved.childRequest).createProcess p (saved.register .a1)
      (SupportArea.ofWord? (saved.register .a2)) := by
  obtain ⟨x, hx, _⟩ := h.running p hc
  obtain ⟨d, hd, _⟩ := h.registers.find? hx
  exact exception_request (hc ▸ hsaved.served? p) (Table.inPool_of_find? hd)

theorem exception_created (hcan : s.CanCreate (saved.register .a1)) :
    ∃ child t, s.exception saved =
      .ok (.load ((saved.pastInstruction.setV1 child.toWord).setV0 0), t) ∧
      Created saved p child s t := by
  obtain ⟨x, hx, _⟩ := h.running p hc
  obtain ⟨hzero, haligned, hroom⟩ := hcan
  cases halloc : (s.saving saved p saved.childRequest).kernel.table.alloc with
  | none => exact ((alloc_saving_eq_none_iff h p saved _).mp halloc hroom).elim
  | some r =>
    obtain ⟨child, table⟩ := r
    have haddress : ¬(saved.register .a1 = 0 ∨ saved.register .a1 % wordBytes ≠ 0) := by
      simp [hzero, haligned]
    obtain ⟨store, ready, hn, he, ha⟩ := createProcess_eq h hx haddress
      (SupportArea.ofWord? (saved.register .a2)) halloc
    exact ⟨child, _, (exception_eq_createProcess h hc hsaved).trans he,
      created h.arranged hx hn ha rfl rfl⟩

theorem exception_refused (hcan : ¬s.CanCreate (saved.register .a1)) :
    ∃ t, s.exception saved = .ok (.load (saved.pastInstruction.setV0 0xFFFFFFFF), t) ∧
      RefusedChild saved p s t := by
  obtain ⟨x, hx, _⟩ := h.running p hc
  obtain ⟨d, hd, _⟩ := h.registers.find? hx
  have hp := Table.inPool_of_find? hd
  generalize he : (if saved.register .a1 = 0 ∨ saved.register .a1 % wordBytes ≠ 0
    then ServiceError.invalidArgument else .noFreeProcess) = e
  have hchild : (s.saving saved p saved.childRequest).createChild p (saved.register .a1)
      (SupportArea.ofWord? (saved.register .a2)) =
        .ok (.error e, s.saving saved p saved.childRequest) := by
    by_cases haddress : saved.register .a1 = 0 ∨ saved.register .a1 % wordBytes ≠ 0
    · rw [createChild, if_pos haddress, ← he, if_pos haddress, pure_eq_ok]
    · have hgood : saved.register .a1 ≠ 0 ∧ saved.register .a1 % wordBytes = 0 := by
        simpa using haddress
      have halloc : (s.saving saved p saved.childRequest).kernel.table.alloc = none :=
        (alloc_saving_eq_none_iff h p saved _).mpr fun hroom => hcan ⟨hgood.1, hgood.2, hroom⟩
      simp only [createChild, if_neg haddress, halloc, ← he, pure_eq_ok]
  exact ⟨_, (exception_eq_createProcess h hc hsaved).trans (createProcess_refused hp hchild),
    refused hp he.symm⟩

end

/-- A process is born just when its state can be read and a descriptor is free, and whole; a caller
that is refused has only been told so. -/
theorem exception_creates_of_reaches {timing : Timing} {machine : Machine}
    (hu : Reaches (initial timing machine) u) (hs : s.kernel = u.kernel)
    (hc : s.kernel.current = some p) (hsaved : saved.AsksForChild) :
    ∃ state t, s.exception saved = .ok (.load state, t) ∧
      (state.register .v0 = 0 ↔ s.CanCreate (saved.register .a1)) ∧
      (state.register .v0 = 0 →
        ∃ child, state = (saved.pastInstruction.setV1 child.toWord).setV0 0 ∧
        Created saved p child s t) ∧
      (state.register .v0 ≠ 0 → state = saved.pastInstruction.setV0 0xFFFFFFFF ∧
        RefusedChild saved p s t) := by
  obtain ⟨v, hv⟩ := reaches_sound hu (Kernel.sound_initial timing)
  rw [← hs] at hv
  by_cases hcan : s.CanCreate (saved.register .a1)
  · obtain ⟨child, t, he, hborn⟩ := exception_created hv hc hsaved hcan
    have hv0 : ((saved.pastInstruction.setV1 child.toWord).setV0 0).register .v0 = 0 := by
      rw [SavedState.setV0, SavedState.register_setRegister, if_pos rfl]
    exact ⟨_, t, he, iff_of_true hv0 hcan, fun _ => ⟨child, rfl, hborn⟩, fun hn => (hn hv0).elim⟩
  · obtain ⟨t, he, hrefused⟩ := exception_refused hv hc hsaved hcan
    have hv0 : (saved.pastInstruction.setV0 0xFFFFFFFF).register .v0 ≠ 0 := by
      rw [SavedState.setV0, SavedState.register_setRegister, if_pos rfl]
      decide
    exact ⟨_, t, he, iff_of_false hv0 hcan, fun hz => (hv0 hz).elim, fun _ => ⟨rfl, hrefused⟩⟩

/-- The running child of the small family bears a child from an aligned address, and is refused one
from another. -/
theorem exception_creates_smallFamily :
    (∃ child state t, smallFamily.exception (asking 1 0x2000) = .ok (.load state, t) ∧
      state.register .v0 = 0 ∧ Created (asking 1 0x2000) ⟨1, 1⟩ child smallFamily t) ∧
    ∃ state t, smallFamily.exception (asking 1 0x2002) = .ok (.load state, t) ∧
      state.register .v0 ≠ 0 ∧ RefusedChild (asking 1 0x2002) ⟨1, 1⟩ smallFamily t := by
  have hcurrent : smallFamily.kernel.current = some ⟨1, 1⟩ := by decide +kernel
  have hreaches : Reaches (initial {} .initial) smallFamily := reaches_after _ _
  have hroom : smallFamily.kernel.table.live.length < maxProcesses := by decide +kernel
  constructor
  · obtain ⟨state, t, he, hcan, hborn, _⟩ := exception_creates_of_reaches hreaches rfl hcurrent
      (⟨by decide, by decide, by decide⟩ : (asking 1 0x2000).AsksForChild)
    have hv0 := hcan.mpr ⟨by decide, by decide, hroom⟩
    obtain ⟨child, _, hcreated⟩ := hborn hv0
    exact ⟨child, state, t, he, hv0, hcreated⟩
  · obtain ⟨state, t, he, hcan, _, hrefused⟩ := exception_creates_of_reaches hreaches rfl hcurrent
      (⟨by decide, by decide, by decide⟩ : (asking 1 0x2002).AsksForChild)
    have hv0 : state.register .v0 ≠ 0 := fun hz => absurd (hcan.mp hz).2.1 (by decide)
    exact ⟨state, t, he, hv0, (hrefused hv0).2⟩

end Computer
end Nucleus
