import Nucleus.Proofs.Computer.Reading
import Nucleus.Proofs.Computer.Termination
import Nucleus.Proofs.Machine.Frame
import Nucleus.Proofs.Run

/-!
# What the end of a family leaves behind

`terminate` at a live process ends it and all its descendants, and nobody else. What becomes of
memory, of counts, of queues and of the other processes is stated here by what can be read from the
kernel before and after.
-/
namespace Nucleus
open Relation

theorem Machine.credit_eq {m : Machine} {o : Option SemKey}
    (h : ∀ key, o = some key → Bus.locate? key.address = none) :
    (m.credit o).localTimer = m.localTimer ∧
      ∀ a, (m.credit o).read a = m.read a + if o = some ⟨a⟩ then 1 else 0 := by
  cases o with
  | none => exact ⟨rfl, fun a => by simp [credit]⟩
  | some key =>
    rw [credit, write_of_locate?_eq_none (h key rfl)]
    refine ⟨rfl, fun a => ?_⟩
    obtain ⟨b⟩ := key
    by_cases hb : a = b
    · simp [hb]
    · simp [hb, Ne.symm hb]

theorem View.repay_eq {v : View} {l : List Handle}
    (h : ∀ p ∈ l, ∀ key, v.debt p = some key → Bus.locate? key.address = none) (m : Machine) :
    (v.repay l m).localTimer = m.localTimer ∧
      ∀ a, (v.repay l m).read a = m.read a + UInt32.ofNat
        (l.countP fun p => v.debt p = some ⟨a⟩) := by
  induction l generalizing m with
  | nil => exact ⟨rfl, fun a => by simp [repay]⟩
  | cons p l ih =>
    obtain ⟨ht, hr⟩ := Machine.credit_eq (m := m) (h p (by simp))
    obtain ⟨ht', hr'⟩ := ih (fun q hq => h q (by simp [hq])) (m.credit (v.debt p))
    refine ⟨ht'.trans ht, fun a => ?_⟩
    have hstep : v.repay (p :: l) m = v.repay l (m.credit (v.debt p)) := rfl
    rw [hstep, hr', hr, List.countP_cons, UInt32.ofNat_add, UInt32.add_assoc,
      UInt32.add_comm (ite _ _ _)]
    split <;> simp_all

/-- What a process is, apart from the lists it stands in and the list of its children. -/
def Descriptor.bare (d : Descriptor) : Descriptor :=
  { d with queueLink := {}, siblingLink := {}, children := {} }

/-- Does a live process wait on the semaphore? -/
def Table.waitsOn (t : Table) (key : SemKey) (p : Handle) : Bool :=
  (t.find? p).any fun d => d.location = .blocked ∧ d.waitingOn = some key

def Table.waitsSoft (t : Table) (p : Handle) : Bool := (t.find? p).any (·.WaitsSoft)

/-- `t` is `s` after `root` has ended with its family `l`. -/
structure Computer.Terminated (root : Handle) (l : List Handle) (s t : Computer) : Prop where
  family : ∀ q, q ∈ l ↔ ReflTransGen s.kernel.table.IsChild q root
  nodup : l.Nodup
  postorder : ∃ children, (∀ p ∈ l, s.kernel.table.childrenOf p = .ok (children p)) ∧
    Postorder children [root] l
  freed : t.kernel.table.free.map (·.val) =
    (l.map (·.slot.toNat)).reverse ++ s.kernel.table.free.map (·.val)
  gone : ∀ p ∈ l, t.kernel.table.find? p = none
  others : ∀ p, p ∉ l → (t.kernel.table.find? p).map (·.bare) =
    (s.kernel.table.find? p).map (·.bare)
  children : ∀ p, p ∉ l → s.kernel.table.isLive p → ∃ cs, s.kernel.table.childrenOf p = .ok cs ∧
    t.kernel.table.childrenOf p = .ok (cs.filter (· != root))
  ready : ∃ q, s.kernel.readyList = .ok q ∧ t.kernel.readyList = .ok (q.filter (· ∉ l))
  waiters : ∀ key, ∃ q, s.kernel.store.waiters key = .ok q ∧
    t.kernel.store.waiters key = .ok (q.filter (· ∉ l))
  active : ∀ key q, s.kernel.store.waiters key = .ok q →
    s.kernel.store.directory.isActive key = .ok (!q.isEmpty) ∧
      t.kernel.store.directory.isActive key = .ok (!q.all (· ∈ l))
  current : t.kernel.current = s.kernel.current.filter (· ∉ l)
  processes : t.kernel.processCount + l.length = s.kernel.processCount
  softBlocks : t.kernel.softBlockCount + l.countP s.kernel.table.waitsSoft = s.kernel.softBlockCount
  memory : ∀ key : SemKey, (∀ c : Channel, key ≠ c.key) → t.machine.read key.address =
    s.machine.read key.address + UInt32.ofNat (l.countP (s.kernel.table.waitsOn key))
  channelWords : ∀ c : Channel, t.machine.read c.key.address = s.machine.read c.key.address
  localTimer : t.machine.localTimer = s.machine.localTimer
  channels : t.kernel.channels = s.kernel.channels
  banked : t.kernel.banked = s.kernel.banked
  stopwatch : t.kernel.stopwatch = s.kernel.stopwatch
  timing : t.kernel.timing = s.kernel.timing
  killed : t.journal.counters.killed.value = s.journal.counters.killed.value + UInt32.ofNat l.length
  events : t.journal.events = .terminated root l.length :: s.journal.events

theorem Location.station?_inj {a b : Location} {x y : Option SemKey} (ha : a ≠ .free)
    (hb : b ≠ .free) (hx : x.isSome ↔ a = .blocked) (hy : y.isSome ↔ b = .blocked)
    (h : a.station? x = b.station? y) : a = b ∧ x = y := by
  cases a <;> cases b <;> cases x <;> cases y <;> simp_all [station?]

namespace Table.Registers
variable {t u : Table} {process process' : Handle → Option Process} {p : Handle}

/-- What a process is tells its descriptor apart from the links. -/
theorem bare_of_process (h : t.Registers process) {d : Descriptor}
    (hp : process d.handle = some d.process) (hl : d.location ≠ .free)
    (ht : d.waitingOn.isSome ↔ d.location = .blocked) :
    (t.find? d.handle).map (·.bare) = some d.bare := by
  obtain ⟨e, he, hed⟩ := h.find? hp
  have hstation : e.location.station? e.waitingOn = d.location.station? d.waitingOn :=
    congrArg Process.station hed
  obtain ⟨hloc, hw⟩ := Location.station?_inj (location_of_find? he) hl (h.tagged _ e he) ht hstation
  have hh : e.handle = d.handle := (find?_eq_some_iff.mp he).2.2.1
  have hparent : e.parent = d.parent := congrArg Process.parent hed
  have hstate : e.state = d.state := congrArg Process.state hed
  have htime : e.cpuTime = d.cpuTime := congrArg Process.cpuTime hed
  have hsupport : e.support = d.support := congrArg Process.support hed
  simp only [he, Option.map_some, Descriptor.bare, hh, hloc, hw, hparent, hstate, htime, hsupport]

theorem bare_map (h : t.Registers process) (h' : u.Registers process') {f : Descriptor → Descriptor}
    {g : Process → Process} (hp : process' p = (process p).map g)
    (hg : ∀ d, (f d).process = g d.process) (hh : ∀ d, (f d).handle = d.handle)
    (hf : ∀ d, t.find? p = some d →
      (f d).location ≠ .free ∧ ((f d).waitingOn.isSome ↔ (f d).location = .blocked)) :
    (u.find? p).map (·.bare) = (t.find? p).map fun d => (f d).bare := by
  cases hd : t.find? p with
  | none => simpa [← h.process p, ← h'.process p, hd] using hp
  | some d =>
    obtain ⟨hl, ht⟩ := hf d hd
    have hhandle : (f d).handle = p := (hh d).trans (find?_eq_some_iff.mp hd).2.2.1
    have hx : process' (f d).handle = some (f d).process := by
      rw [hhandle, hp, h.process_eq hd, Option.map_some, hg]
    exact hhandle ▸ h'.bare_of_process hx hl ht

theorem bare_eq (h : t.Registers process) (h' : u.Registers process')
    (hp : process' p = process p) : (u.find? p).map (·.bare) = (t.find? p).map (·.bare) :=
  h.bare_map h' (f := id) (hp.trans Option.map_id'.symm) (fun _ => rfl) (fun _ => rfl)
    fun d hd => ⟨location_of_find? hd, h.tagged _ d hd⟩

end Table.Registers

namespace Kernel.Sound
variable {k k' : Kernel} {v w : View} {p root : Handle} {l : List Handle} {key : SemKey}

theorem waitsOn_iff (h : k.Sound v) : k.table.waitsOn key p ↔
    ∃ x, v.process p = some x ∧ x.station = some (.semaphore key) := by
  rw [← h.arranged.wf.mem_queue, h.mem_semaphore_iff]
  simp [Table.waitsOn, Option.any_eq_true]

theorem debt_eq_some_iff (h : k.Sound v) :
    v.debt p = some key ↔ k.table.waitsOn key p ∧ ∀ c : Channel, key ≠ c.key := by
  rw [h.waitsOn_iff, View.debt, Option.bind_eq_some_iff]
  constructor
  · rintro ⟨x, hx, hbind⟩
    obtain ⟨s, hs, ho⟩ := Option.bind_eq_some_iff.mp hbind
    cases s with
    | ready => cases ho
    | semaphore k =>
      simp only [Station.ordinary?, Option.ite_none_left_eq_some, Option.some.injEq] at ho
      obtain ⟨hn, rfl⟩ := ho
      exact ⟨⟨x, hx, hs⟩, fun c hc => hn (by simp [hc])⟩
  · rintro ⟨⟨x, hx, hs⟩, hn⟩
    refine ⟨x, hx, ?_⟩
    have hk : Channel.slot? key = none := by
      rw [Option.eq_none_iff_forall_ne_some]
      exact fun c hc => hn c (Channel.slot?_eq_some_iff.mp hc)
    simp [hs, Station.ordinary?, hk]

theorem standsSoft_eq (h : k.Sound v) (p : Handle) : v.standsSoft p = k.table.waitsSoft p := by
  rw [View.standsSoft, ← h.registers.process p, Table.waitsSoft, Option.any_map]
  cases hd : k.table.find? p with
  | none => rfl
  | some d =>
    rw [Bool.eq_iff_iff]
    simp only [Option.any_some, decide_eq_true_eq, Descriptor.process]
    cases hl : d.location with
    | blocked =>
      obtain ⟨key, hk, _⟩ := h.blocked hd hl
      rw [Descriptor.waitsSoft_iff hl hk, hk]
      rfl
    | free | unqueued | ready => simp [Location.station?, Descriptor.WaitsSoft, hl, Station.isSoft]

theorem bare_eq (h : k.Sound v) (h' : k'.Sound w) (hp : w.process p = v.process p) :
    (k'.table.find? p).map (·.bare) = (k.table.find? p).map (·.bare) :=
  h.registers.bare_eq h'.registers hp

theorem isActive_eq (h : k.Sound v) (key : SemKey) :
    k.store.directory.isActive key = .ok (!(v.queue (.semaphore key)).isEmpty) := by
  by_cases hq : v.queue (.semaphore key) = []
  · simp [Directory.isActive, h.arranged.indexes.find?_none key fun hn => hn hq, hq]
  · obtain ⟨i, hf, _⟩ := h.arranged.indexes.find?_some key hq
    simp [Directory.isActive, hf, hq]

end Kernel.Sound

namespace Computer
variable {s t : Computer} {v : View} {root : Handle} {l : List Handle}

theorem Ended.terminated (h : s.kernel.Sound v) (he : Ended v l s t)
    (horder : Postorder v.children [root] l) (hn : l.Nodup)
    (hm : ∀ q, q ∈ l ↔ ReflTransGen v.IsChild q root)
    (hlive : ∀ q ∈ l, ∃ x, v.process q = some x)
    (hbus : ∀ q ∈ l, ∀ key, v.debt q = some key → Bus.locate? key.address = none) :
    Terminated root l s (t.note (.terminated root l.length)) where
  family q := by rw [hm, h.isChild_eq]
  nodup := hn
  postorder := by
    refine ⟨v.children, fun p hp => ?_, horder⟩
    obtain ⟨x, hx⟩ := hlive p hp
    obtain ⟨d, hd, _⟩ := h.registers.find? hx
    exact h.childrenOf_eq hd
  freed := he.free
  gone p hp := by
    have hx := he.sound.registers.process p
    have hnone : (v.without l).process p = none := by simp [View.without, hp]
    rw [hnone] at hx
    exact Option.map_eq_none_iff.mp hx
  others p hp := h.bare_eq he.sound (View.process_without hp)
  children p hp hpl := by
    obtain ⟨d, hd⟩ := Option.isSome_iff_exists.mp hpl
    have hx := (View.process_without hp).trans (h.registers.process_eq hd)
    obtain ⟨e, he', _⟩ := he.sound.registers.find? hx
    refine ⟨_, h.childrenOf_eq hd, (he.sound.childrenOf_eq he').trans (congrArg _ ?_)⟩
    refine List.filter_congr fun c hc => ?_
    have hcp := (h.arranged.wf.mem_children p c).mp hc
    have hroot : c ∈ l ↔ c = root := by
      rw [hm]
      refine ⟨fun hr => ?_, fun e => e ▸ .refl⟩
      rcases ReflTransGen.cases_head hr with e | ⟨b, hcb, hb⟩
      · exact e
      · rw [← View.Wf.parent_unique hcp hcb, ← hm] at hb
        exact (hp hb).elim
    rw [Bool.eq_iff_iff, decide_eq_true_eq, bne_iff_ne, ne_eq, hroot]
  ready := ⟨_, h.readyList_eq, he.sound.readyList_eq⟩
  waiters key := ⟨_, h.arranged.waiters_eq key, he.sound.arranged.waiters_eq key⟩
  active key q hq := by
    rw [h.arranged.waiters_eq key] at hq
    cases hq
    refine ⟨h.isActive_eq key, (he.sound.isActive_eq key).trans (congrArg _ (congrArg _ ?_))⟩
    rw [Bool.eq_iff_iff, List.isEmpty_iff, List.all_eq_true]
    simp [View.without]
  current := he.current
  processes := he.processes
  softBlocks := by
    have hc : l.countP s.kernel.table.waitsSoft = l.countP v.standsSoft :=
      List.countP_congr fun p _ => by rw [h.standsSoft_eq p]
    rw [hc]
    exact he.softBlocks
  memory key hk := by
    have hc : l.countP (s.kernel.table.waitsOn key) = l.countP fun p => v.debt p = some key :=
      List.countP_congr fun p _ => by simp [h.debt_eq_some_iff, hk]
    have hr := (View.repay_eq hbus s.machine).2 key.address
    rwa [← he.machine, ← hc] at hr
  channelWords c := by
    have hc : (l.countP fun p => v.debt p = some c.key) = 0 := by
      simp [List.countP_eq_zero, h.debt_eq_some_iff]
    have hr := (View.repay_eq hbus s.machine).2 c.key.address
    rw [← he.machine, hc] at hr
    exact hr.trans (UInt32.add_zero _)
  localTimer := by
    have ht := (View.repay_eq hbus s.machine).1
    rwa [← he.machine] at ht
  channels := he.channels
  banked := he.banked
  stopwatch := he.stopwatch
  timing := he.timing
  killed := he.killed
  events := congrArg (_ :: ·) he.events

theorem terminate_terminated (h : s.kernel.Sound v) (hroot : s.kernel.table.isLive root)
    (hbus : ∀ q d key, ReflTransGen s.kernel.table.IsChild q root →
      s.kernel.table.find? q = some d →
      d.waitingOn = some key → (∀ c : Channel, key ≠ c.key) →
        key.address < 0x10000000 ∨ 0x100002D3 < key.address) :
    ∃ l t, s.terminate root = .ok (l.length, t) ∧ Terminated root l s t := by
  obtain ⟨d, hd⟩ := Option.isSome_iff_exists.mp hroot
  obtain ⟨l, t, horder, hn, hm, ht, he⟩ := terminate_eq h (h.registers.process_eq hd)
  refine ⟨l, _, ht, he.terminated h horder hn hm (fun q hq => ?_) fun q hq key hk => ?_⟩
  · rcases ReflTransGen.cases_head ((hm q).mp hq) with rfl | ⟨_, ⟨x, hx, _⟩, _⟩
    · exact ⟨_, h.registers.process_eq hd⟩
    · exact ⟨x, hx⟩
  · obtain ⟨hon, hordinary⟩ := h.debt_eq_some_iff.mp hk
    obtain ⟨e, hfind, hwait⟩ := (Option.any_eq_true _ _).mp hon
    have hkey : e.waitingOn = some key := (of_decide_eq_true hwait).2
    rw [hm, ← h.isChild_eq] at hq
    exact Bus.locate?_eq_none (hbus q e key hq hfind hkey hordinary)

/-- The end of a family at any kernel that a run can leave, on any machine. -/
theorem terminate_of_reaches {timing : Timing} {machine : Machine} {u : Computer}
    (hu : Reaches (initial timing machine) u) (hs : s.kernel = u.kernel)
    (hroot : s.kernel.table.isLive root)
    (hbus : ∀ q d key, ReflTransGen s.kernel.table.IsChild q root →
      s.kernel.table.find? q = some d →
      d.waitingOn = some key → (∀ c : Channel, key ≠ c.key) →
        key.address < 0x10000000 ∨ 0x100002D3 < key.address) :
    ∃ l t, s.terminate root = .ok (l.length, t) ∧ Terminated root l s t := by
  obtain ⟨v, hv⟩ := reaches_sound hu (Kernel.sound_initial timing)
  rw [← hs] at hv
  exact terminate_terminated hv hroot hbus

/-- What a program leaves in its registers when it asks for a service. -/
def asking (service argument : Word) : SavedState :=
  ((({} : SavedState).setRegister .a0 service).setRegister
    .a1 argument).setTrapCode Trap.request.code

/-- A process with two children waits on a semaphore; the older child
runs, the younger one is ready. -/
def smallFamily : Computer :=
  (initial {} .initial).after [(.initial, .start {}), (.initial, .exception (asking 1 0x2000)),
    (.initial, .exception (asking 1 0x2000)), (.initial, .exception (asking 3 0x3000))]

theorem terminate_smallFamily :
    smallFamily.kernel.processCount = 3 ∧ smallFamily.kernel.table.waitsOn ⟨0x3000⟩ ⟨0, 1⟩ ∧
      ∃ l t, smallFamily.terminate ⟨0, 1⟩ = .ok (l.length, t) ∧
        Terminated ⟨0, 1⟩ l smallFamily t := by
  refine ⟨by decide +kernel, by decide +kernel, terminate_of_reaches (reaches_after _ _) rfl
    (by decide +kernel) fun q d key _ hd hk _ => .inl ?_⟩
  have hall : ∀ e ∈ smallFamily.kernel.table.live,
      e.waitingOn.all fun k => k.address < 0x10000000 := by
    decide +kernel
  simpa [hk] using hall d (Table.mem_live_of_find? hd)

end Computer
end Nucleus
