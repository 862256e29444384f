import Nucleus.Proofs.Computer.Channels
import Nucleus.Proofs.Computer.Metering
import Nucleus.Proofs.History

/-!
# The interrupt of a line

Every device that is pending when the interrupt is taken is acknowledged once and gives one unit to
the semaphore of its channel, with the status that could be read there, and nothing else on the bus
or among the semaphores changes. A terminal with two completions reports its transmitter first and
stays pending, so that the next interrupt of the line finds its receiver.
-/
namespace Nucleus

theorem Channel.exists_ofDevice? {line device : Word} {receive : Bool}
    (hl : 3 ≤ line.toNat ∧ line.toNat ≤ 7) (hd : device.toNat < 8)
    (hr : receive = true → line.toNat = 7) : ∃ c, Channel.ofDevice? line device receive = .ok c ∧
      c.val = 8 * (line.toNat - 3) + device.toNat + if receive = true then 8 else 0 := by
  unfold ofDevice?
  rw [dif_pos ⟨⟨hl.1, hl.2, hd⟩, hr⟩]
  refine ⟨_, rfl, ?_⟩
  simp only
  split <;> omega

/-- What a pending device reports: a terminal reports on the channel of its transmitter, or on the
channel of its receiver when its transmitter has nothing to report. -/
structure Machine.Reports (m : Machine) (line dev : Word) (report : Channel × Word) : Prop where
  channel : report.1.val = 8 * (line.toNat - 3) + dev.toNat +
    if line = Bus.terminalLine ∧ ¬(m.device line dev).transmitPending then 8 else 0
  status : report.2 = if line = Bus.terminalLine ∧ (m.device line dev).transmitPending then
    (m.device line dev).transmitStatus else (m.device line dev).status

theorem forall₂_filterMap {α β : Type} {R : α → β → Prop} {f : α → Option β} {l : List α}
    (h : ∀ a ∈ l, ∃ b, f a = some b ∧ R a b) : List.Forall₂ R l (l.filterMap f) := by
  induction l with
  | nil => exact .nil
  | cons a l ih =>
    obtain ⟨⟨b, hb, hr⟩, h⟩ := List.forall_mem_cons.mp h
    rw [List.filterMap_cons_some hb]
    exact .cons hr (ih h)

namespace Machine
variable {m m' : Machine} {line dev : Word}

theorem exists_report (m : Machine) (hl : 3 ≤ line.toNat ∧ line.toNat ≤ 7) (hd : dev.toNat < 8) :
    ∃ report, m.completion? line dev = some report ∧ m.Reports line dev report := by
  have hterminal : line = Bus.terminalLine ↔ line.toNat = 7 := UInt32.toNat_inj.symm
  have hreport := Computer.completion_eq line (m.device line dev)
  have hreceive : (Computer.completion line (m.device line dev)).2.1 = true ↔
      line = Bus.terminalLine ∧ ¬(m.device line dev).transmitPending := by
    rw [hreport]
    split
    · next h => simp [h.2]
    · next h =>
      simp only [decide_eq_true_eq, iff_self_and]
      exact fun hline ht => h ⟨hline, ht⟩
  obtain ⟨c, hc, hval⟩ := Channel.exists_ofDevice? hl hd fun hr => hterminal.mp (hreceive.mp hr).1
  refine ⟨(c, _), by simp only [completion?, hc]; rfl, ?_, ?_⟩
  · rw [hval, if_congr hreceive rfl rfl]
  · rw [hreport]
    split <;> rfl

theorem reports_completions (m : Machine) (hl : 3 ≤ line.toNat ∧ line.toNat ≤ 7) :
    List.Forall₂ (m.Reports line) (Computer.pendingDevices m line) (m.completions line) :=
  forall₂_filterMap fun _ hm => m.exists_report hl (Computer.lt_of_mem_pendingDevices hm)

/-- The line shows the same pending devices and the same registers. -/
structure AgreesOn (line : Word) (m m' : Machine) : Prop where
  bitmap : m'.bitmap line = m.bitmap line
  device : ∀ dev : Word, dev.toNat < 8 → m'.device line dev = m.device line dev

theorem AgreesOn.pendingDevices_eq (h : AgreesOn line m m') :
    Computer.pendingDevices m' line = Computer.pendingDevices m line := by
  rw [Computer.pendingDevices, h.bitmap, Computer.pendingDevices]

/-- What is left on the line of the terminals: the receivers of those that had two completions. -/
theorem Drained.left {m₁ : Machine} (h : m.Drained Bus.terminalLine m₁)
    (ha : AgreesOn Bus.terminalLine m₁ m')
    (hd : dev ∈ Computer.pendingDevices m' Bus.terminalLine) :
    (m'.device Bus.terminalLine dev).transmitPending = false ∧
      (m'.device Bus.terminalLine dev).status = (m.device Bus.terminalLine dev).status := by
  rw [ha.pendingDevices_eq, h.pending] at hd
  obtain ⟨hmem, hdouble⟩ := List.mem_filter.mp hd
  have hdouble := of_decide_eq_true hdouble
  have hlt := Computer.lt_of_mem_pendingDevices hmem
  have htransmits : Bus.terminalLine = Bus.terminalLine ∧
      (m.device Bus.terminalLine dev).transmitPending :=
    ⟨rfl, hdouble.2.1⟩
  rw [ha.device dev hlt, h.devices dev hlt, if_pos hmem,
    DeviceRegister.transmitPending_acknowledged htransmits,
    DeviceRegister.acknowledged_of_transmits htransmits]
  exact ⟨rfl, rfl⟩

end Machine

theorem SavedState.matter_of_servedLine {saved : SavedState} {line : Word}
    (htrap : saved.trapCode = 0) (hline : Computer.servedLine? saved = some line.toNat)
    (hl : 3 ≤ line.toNat) : saved.matter = .devices line := by
  have hroute := Route.ofCode_eq_interrupt_iff.mpr htrap
  have htimer : line.toNat ≠ Bus.timerLine := by simp only [Bus.timerLine]; omega
  have hinterval : line.toNat ≠ Bus.intervalLine := by simp only [Bus.intervalLine]; omega
  simp [matter, hroute, hline, htimer, hinterval]

/-- The process that a unit given to the semaphore of a channel wakes. -/
def Kernel.signalled? (k : Kernel) (c : Channel) : Option Handle :=
  if k.channels.get c + 1 ≤ 0 then (k.store.firstWaiter c.key).toOption.join else none

namespace Turn

/-- Those whom the completions wake, in the order in which the devices are served. -/
def signalled (turn : Turn) : List Handle :=
  turn.completions.filterMap fun report => turn.before.kernel.signalled? report.1

/-- A channel is given one unit, with a status. -/
structure Completes (turn : Turn) (c : Channel) (status : Word) : Prop where
  value : turn.after.kernel.channels.get c = turn.before.kernel.channels.get c + 1
  waiters : ∃ q, turn.before.kernel.store.waiters c.key = .ok q ∧
    turn.after.kernel.store.waiters c.key =
    .ok (if turn.before.kernel.channels.get c + 1 ≤ 0 then q.tail else q)
  state : ∀ p, turn.before.kernel.signalled? c = some p →
    (turn.after.kernel.table.find? p).map (·.state) =
      (turn.before.kernel.table.find? p).map (·.state.setV0 status)
  banked : turn.after.kernel.banked.get c =
    if turn.before.kernel.channels.get c + 1 ≤ 0 then turn.before.kernel.banked.get c else status

/-- The interrupt of a line is served. -/
structure Drains (turn : Turn) (line : Word) : Prop where
  machine : turn.before.machine.Drained line turn.after.machine
  /-- Beside the bitmap and the registers of the line nothing changes. -/
  timer : turn.after.machine.intervalTimer = turn.before.machine.intervalTimer
  lines : ∀ line' : Word, 3 ≤ line'.toNat ∧ line'.toNat ≤ 7 → line' ≠ line →
    turn.after.machine.read (Bus.bitmapAddress line') =
      turn.before.machine.read (Bus.bitmapAddress line') ∧
      ∀ dev : Word, dev.toNat < 8 → turn.after.machine.device line' dev =
        turn.before.machine.device line' dev
  reports : List.Forall₂ (turn.before.machine.Reports line)
    (Computer.pendingDevices turn.before.machine line)
    turn.completions
  completes : ∀ c status, (c, status) ∈ turn.completions → turn.Completes c status
  channels : ∀ c, c ∉ turn.completions.map (·.1) →
    turn.after.kernel.channels.get c = turn.before.kernel.channels.get c ∧
      turn.after.kernel.banked.get c = turn.before.kernel.banked.get c
  waiters : ∀ key, (∀ report ∈ turn.completions, key ≠ report.1.key) →
    turn.after.kernel.store.waiters key = turn.before.kernel.store.waiters key
  /-- Those who are woken join the ready queue by the number of their device. -/
  queue : ∃ ready ready', turn.before.kernel.readyList = .ok ready ∧
    turn.after.kernel.readyList = .ok ready' ∧
    turn.after.kernel.current.toList ++ ready' = turn.before.kernel.current.toList ++
      ready ++ turn.signalled
  current : ∀ p, turn.before.kernel.current = some p → turn.after.kernel.current = some p
  softBlocks : turn.after.kernel.softBlockCount + turn.signalled.length =
    turn.before.kernel.softBlockCount
  states : ∀ p ∉ turn.signalled,
    (turn.after.kernel.table.find? p).map (·.state) =
      (turn.before.kernel.table.find? p).map (·.state)
  cleared : line ≠ Bus.terminalLine → turn.after.machine.bitmap line = 0
  stays : line = Bus.terminalLine → ∀ dev ∈ Computer.pendingDevices turn.before.machine line,
    dev ∈ Computer.pendingDevices turn.after.machine line ↔
      (turn.before.machine.device line dev).transmitPending ∧
        (turn.before.machine.device line dev).receivePending

section
variable {s t : Computer} {v w : View} {saved : SavedState} {d : Dispatch} {line : Word}
  {c : Channel}

theorem signalled?_eq (h : s.kernel.Sound v) (c : Channel) :
    s.kernel.signalled? c = (s.scene v).woken? c.key := by
  have hvalue : (s.scene v).value c.key = s.kernel.channels.get c := Scene.value_channel _ c
  have hwaiters : (s.scene v).waiters c.key = v.queue (.semaphore c.key) := rfl
  rw [Kernel.signalled?, h.arranged.firstWaiter_eq, Scene.woken?, hvalue, hwaiters]
  rfl

theorem completes_of_effect (h : s.kernel.Sound v) (ht : t.kernel.Sound w)
    (heffect : (s.scene v).Effect saved d (t.scene w)) (hm : saved.matter = .devices line)
    {status : Word} (hc : (c, status) ∈ saved.completions s.machine) :
    (Turn.mk s (.exception saved) d t).Completes c status := by
  obtain ⟨hvalue, howed⟩ := heffect.completes h.scene hc
  have hgive := heffect.semaphore_of_completion h.scene hc
  rw [s.semaphore_channel] at hgive
  have hqueue : w.queue (.semaphore c.key) = if s.kernel.channels.get c + 1 ≤ 0 then
      (v.queue (.semaphore c.key)).tail else v.queue (.semaphore c.key) :=
        congrArg Semaphore.waiters hgive
  obtain ⟨_, _, hstate, _⟩ := heffect.drains h.scene hm rfl
  refine ⟨hvalue, ⟨_, h.arranged.waiters_eq c.key,
    (ht.arranged.waiters_eq c.key).trans (congrArg _ hqueue)⟩, fun p hp => ?_, ?_⟩
  · rw [signalled?_eq h] at hp
    have hafter := congrArg (Option.map (·.setV0 status)) (h.state_eq p)
    rw [Option.map_map, Option.map_map] at hafter
    refine (ht.state_eq p).symm.trans ((hstate c status p hc hp).trans ?_)
    rw [Scene.state?, Option.map_map]
    exact hafter
  · have hvalue' : (s.scene v).value c.key = s.kernel.channels.get c := Scene.value_channel _ c
    split
    · next hv => exact howed hv
    · next hv => exact heffect.banked_of_completion h.scene hc (hvalue'.symm ▸ hv)

theorem drains_of_effect (h : s.kernel.Sound v) (ht : t.kernel.Sound w)
    (heffect : (s.scene v).Effect saved d (t.scene w)) (hm : saved.matter = .devices line) :
    (Turn.mk s (.exception saved) d t).Drains line := by
  have hl := (Scene.matter_eq_devices hm).2
  have hcont := heffect.continued hm
  have hdrained : s.machine.Drained line t.machine :=
    Machine.drained_drain hl hcont.proceeds.memory_eq
  have hcompletions : (Turn.mk s (.exception saved) d t).completions =
      s.machine.completions line := by
    simp [completions, SavedState.completions, hm]
  have hserved : ∀ (c : Channel) p r, saved.served? (s.scene v).current = some (p, r) →
      r.channel? ≠ some c := by
    intro c p r hs
    cases hm.symm.trans (SavedState.served?_eq_some.mp hs).1
  have hsignalled : (Turn.mk s (.exception saved) d t).signalled =
      (s.scene v).wokenAll (saved.completions s.machine) :=
    List.filterMap_congr fun c _ => signalled?_eq h c.1
  obtain ⟨hline, hsoft, _, hothers⟩ := heffect.drains h.scene hm rfl
  refine {
    machine := hdrained
    timer := hdrained.intervalTimer_eq hl
    lines := fun line' hl' hne => ⟨hdrained.bitmap_of_ne hl hl' hne,
      fun dev hd => hdrained.device_of_ne hl hl' hne hd⟩
    reports := ?_
    completes := fun c status hc => completes_of_effect h ht heffect hm hc
    channels := fun c hc => ?_
    waiters := fun key hkey => ?_
    queue := ?_
    current := fun p hc => ?_
    softBlocks := ?_
    states := fun p hp => ?_
    cleared := hdrained.bitmap_eq_zero
    stays := fun hterminal dev hd => ?_ }
  · rw [hcompletions]
    exact s.machine.reports_completions hl
  · have htick : saved.matter ≠ .tick := by simp [hm]
    exact ⟨heffect.channels (hserved c) hc fun he => (htick he).elim, heffect.banked (hserved c) hc⟩
  · have hqueue : w.queue (.semaphore key) = v.queue (.semaphore key) :=
      (hcont.waiters_eq ((h.scene.completeAll _).onMachine _).orderly).trans
        (Scene.waiters_completeAll_of_ne h.scene fun c hc => (hkey c hc).symm)
    exact (ht.arranged.waiters_eq key).trans (hqueue ▸ (h.arranged.waiters_eq key).symm)
  · rw [hsignalled]
    exact ⟨_, _, h.readyList_eq, ht.readyList_eq, hline⟩
  · have hcurrent :=
      (Scene.current_completeAll (σ := s.scene v) (saved.completions s.machine)).trans hc
    obtain ⟨hτ, _⟩ := hcont.eq_of_some hcurrent
    exact (congrArg Scene.current hτ).trans hcurrent
  · rw [hsignalled, ht.softBlocks]
    exact hsoft.trans h.softBlocks.symm
  · rw [hsignalled] at hp
    exact (ht.state_eq p).symm.trans ((hothers p hp).trans (h.state_eq p))
  · rw [hdrained.pending, List.mem_filter, decide_eq_true_eq, and_iff_right hd]
    exact and_iff_right hterminal

end
end Turn

/-- The receivers are served of the terminals that had two completions when the line showed `m`, and
nothing is pending any more. -/
structure Turn.DrainsReceivers (turn : Turn) (m : Machine) : Prop where
  drains : turn.Drains Bus.terminalLine
  receivers : List.Forall₂ (fun (dev : Word) report => report.1.val = 40 + dev.toNat ∧
      report.2 = (m.device Bus.terminalLine dev).receiveStatus)
    ((Computer.pendingDevices m Bus.terminalLine).filter fun dev =>
      (m.device Bus.terminalLine dev).transmitPending ∧
        (m.device Bus.terminalLine dev).receivePending)
    turn.completions
  cleared : turn.after.machine.bitmap Bus.terminalLine = 0

theorem Turn.Drains.drainsReceivers {turn : Turn} {m m₁ : Machine}
    (h : turn.Drains Bus.terminalLine) (h₁ : m.Drained Bus.terminalLine m₁)
    (ha : Machine.AgreesOn Bus.terminalLine m₁ turn.before.machine) : turn.DrainsReceivers m := by
  have hleft : ∀ dev ∈ Computer.pendingDevices turn.before.machine Bus.terminalLine,
      (turn.before.machine.device Bus.terminalLine dev).transmitPending = false ∧
        (turn.before.machine.device Bus.terminalLine dev).status =
          (m.device Bus.terminalLine dev).status :=
    fun _ => h₁.left ha
  have hpending : Computer.pendingDevices turn.before.machine Bus.terminalLine =
      (Computer.pendingDevices m Bus.terminalLine).filter fun dev =>
        (m.device Bus.terminalLine dev).transmitPending ∧
        (m.device Bus.terminalLine dev).receivePending := by
    rw [ha.pendingDevices_eq, h₁.pending]
    exact List.filter_congr fun dev _ => by simp [DeviceRegister.IsDouble]
  refine ⟨h, ?_, Computer.bitmap_eq_zero ?_⟩
  · have hreports : List.Forall₂ (fun dev report =>
        dev ∈ Computer.pendingDevices turn.before.machine Bus.terminalLine ∧
          turn.before.machine.Reports Bus.terminalLine dev report)
        (Computer.pendingDevices turn.before.machine Bus.terminalLine) turn.completions :=
      (List.forall₂_and_left _ _).mpr ⟨fun _ hd => hd, h.reports⟩
    rw [← hpending]
    refine hreports.imp fun dev report hmem => ?_
    obtain ⟨hd, hreport⟩ := hmem
    obtain ⟨hnone, hstatus⟩ := hleft dev hd
    have hchannel := hreport.channel
    have hvalue := hreport.status
    have hline : Bus.terminalLine.toNat = 7 := rfl
    simp only [hnone, hline, Bool.false_eq_true, not_false_eq_true, and_self, and_false,
      if_true, if_false] at hchannel hvalue
    exact ⟨by omega, hvalue.trans hstatus⟩
  · rw [h.machine.pending, List.filter_eq_nil_iff]
    intro dev hd hdouble
    have hnone := (hleft dev hd).1
    rw [(of_decide_eq_true hdouble).2.1] at hnone
    cases hnone

namespace Computer

/-- The interrupt of a line drains it, whatever state a run has left and whatever machine it finds.
Of the terminals it may leave receivers; the next interrupt of the line that finds it as it was left
serves them. -/
theorem exception_drains_of_reaches {timing : Timing} {machine : Machine} {u : Computer}
    (hu : Reaches (initial timing machine) u) (m : Machine) {saved : SavedState}
    (htrap : saved.trapCode = 0) {line : Word} (hline : servedLine? saved = some line.toNat)
    (hl : 3 ≤ line.toNat) : ∃ d t, (u.onMachine m).exception saved = .ok (d, t) ∧
      (Turn.mk (u.onMachine m) (.exception saved) d t).Drains line ∧
      (line = Bus.terminalLine → ∀ u' m' saved', Reaches (initial timing machine) u' →
        Machine.AgreesOn line t.machine m' → saved'.trapCode = 0 →
          servedLine? saved' = some line.toNat →
          ∃ d' t', (u'.onMachine m').exception saved' = .ok (d', t') ∧
            (Turn.mk (u'.onMachine m') (.exception saved') d' t').DrainsReceivers m) := by
  have hserves : ∀ {u' : Computer} (m' : Machine) {saved' : SavedState},
    Reaches (initial timing machine) u' →
      saved'.trapCode = 0 → servedLine? saved' = some line.toNat →
        ∃ d t, (u'.onMachine m').exception saved' = .ok (d, t) ∧
          (Turn.mk (u'.onMachine m') (.exception saved') d t).Drains line := by
    intro u' m' saved' hu' htrap' hline'
    obtain ⟨v, hv⟩ := reaches_sound hu' (Kernel.sound_initial timing)
    have hs : (u'.onMachine m').kernel.Sound v := hv
    obtain ⟨d, t, w, he, ht, heffect⟩ := exception_effect_of_sound hs saved'
    exact ⟨d, t, he, Turn.drains_of_effect hs ht heffect
      (SavedState.matter_of_servedLine htrap' hline' hl)⟩
  obtain ⟨d, t, he, hdrains⟩ := hserves m hu htrap hline
  refine ⟨d, t, he, hdrains, fun hterminal u' m' saved' hu' ha htrap' hline' => ?_⟩
  obtain ⟨d', t', he', hdrains'⟩ := hserves m' hu' htrap' hline'
  subst hterminal
  exact ⟨d', t', he', hdrains'.drainsReceivers hdrains.machine ha⟩

/-- A process waits for the transmitter of the first terminal, and its child for the receiver. -/
def bothSides : Computer :=
  (initial {} .initial).after [(.initial, .start {}), (.initial, .exception (asking 1 0x2000)),
    (.initial, .exception (asking 5 7)), (.initial, .exception ((asking 5 7).setRegister .a3 1))]

/-- Both sides of the first terminal have finished. -/
def bothFinished : Machine := (Machine.initial.raise 7 0 6).raiseTransmit 0 5

/-- The first interrupt of the line wakes the parent, the second one the child. -/
theorem exception_drains_bothSides : Reaches (initial {} .initial) bothSides ∧
    servedLine? { cause := 0x8000 } = some (7 : Word).toNat ∧
    ∃ d t d' t', (bothSides.onMachine bothFinished).exception { cause := 0x8000 } = .ok (d, t) ∧
      (Turn.mk (bothSides.onMachine bothFinished) (.exception { cause := 0x8000 }) d t).Drains 7 ∧
      (Turn.mk (bothSides.onMachine bothFinished) (.exception { cause := 0x8000 }) d t).signalled =
        [⟨0, 1⟩] ∧
      t.exception { cause := 0x8000 } = .ok (d', t') ∧
      (Turn.mk t (.exception { cause := 0x8000 }) d' t').DrainsReceivers bothFinished ∧
      (Turn.mk t (.exception { cause := 0x8000 }) d' t').signalled = [⟨1, 1⟩] := by
  have hreaches : Reaches (initial {} .initial) bothSides := reaches_after _ _
  have htrap : SavedState.trapCode { cause := 0x8000 } = 0 := by decide
  have hline : servedLine? { cause := 0x8000 } = some (7 : Word).toNat := by decide
  obtain ⟨d, t, he, hdrains, hnext⟩ :=
    exception_drains_of_reaches hreaches bothFinished htrap hline (by decide)
  have ht : Reaches (initial {} .initial) t :=
    .step bothFinished (.exception { cause := 0x8000 }) hreaches he
  obtain ⟨d', t', he', hreceivers⟩ :=
    hnext rfl t t.machine { cause := 0x8000 } ht ⟨rfl, fun _ _ => rfl⟩ htrap hline
  have hparent : (Turn.mk (bothSides.onMachine bothFinished) (.exception { cause := 0x8000 }) .wait
      bothSides).signalled = [⟨0, 1⟩] := by decide +kernel
  have hchild : ((bothSides.onMachine bothFinished).exception { cause := 0x8000 }).toOption.all
      fun r => (Turn.mk r.2 (.exception { cause := 0x8000 }) r.1 r.2).signalled = [⟨1, 1⟩] := by
    decide +kernel
  rw [he] at hchild
  exact ⟨hreaches, hline, d, t, d', t', he, hdrains, hparent, he', hreceivers,
    of_decide_eq_true hchild⟩

end Computer

end Nucleus
