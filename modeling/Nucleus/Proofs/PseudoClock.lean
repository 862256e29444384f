import Nucleus.Proofs.Computer.Metering
import Nucleus.Proofs.DeviceWaits
import Nucleus.Proofs.Isolation

/-!
# The pseudo-clock

A tick makes everybody ready who waits for the pseudo-clock, in the order in which they came, and
sets the integer of its semaphore to zero. The integer only counts the waits since the last tick: a
waiter that ended leaves it as it is, so it says that nobody waits when it is zero, but not how many
wait when it is not.
-/
namespace Nucleus

open scoped BigOperators in
theorem View.softBlocked_of_emptied {v w : View} {c : Channel} (h : ∀ c' : Channel,
    w.queue (.semaphore c'.key) = if c' = c then [] else v.queue (.semaphore c'.key)) :
    w.softBlocked + (v.queue (.semaphore c.key)).length = v.softBlocked := by
  have hsum : (∑ c' : Channel, if c' = c then (v.queue (.semaphore c'.key)).length else 0) =
      (v.queue (.semaphore c.key)).length := by simp
  rw [softBlocked, softBlocked, ← hsum, ← Finset.sum_add_distrib]
  refine Finset.sum_congr rfl fun c' _ => ?_
  rw [h c']
  split <;> simp

namespace Scene
variable {σ τ : Scene} {p : Handle} {d : Dispatch} {saved : SavedState} {rest : List Handle}

theorem channels_tick : σ.tick.channels.get Channel.clock = 0 :=
  Vector.getElem_set_self Channel.clock.isLt

/-- The integer of the pseudo-clock changes with its waits and ticks alone. -/
theorem Effect.clock (h : σ.Effect saved d τ) (hm : saved.matter ≠ .tick)
    (hs : ∀ p, saved.served? σ.current ≠ some (p, .waitClock)) :
    τ.channels.get Channel.clock = σ.channels.get Channel.clock := by
  refine h.channels (fun p r hserved hr => ?_) (fun hc => ?_) fun hm' => (hm hm').elim
  · rcases Request.channel?_eq_some hr with ⟨line, device, receive, rfl, hd⟩ | ⟨rfl, _⟩
    · exact absurd (Channel.val_ofDevice? hd).2.2 (by decide)
    · exact hs p hserved
  · obtain ⟨c, hmem, hclock⟩ := List.mem_map.mp hc
    exact SavedState.ne_clock_of_mem_completions hmem hclock

theorem Continued.dispatches (hn : (σ.view.queue .ready).Nodup) (h : σ.Continued saved d τ)
    (hc : σ.current = none) (hq : σ.view.queue .ready = p :: rest) :
    τ.current = some p ∧ τ.view.queue .ready = rest ∧ ∃ x, σ.state? p = some x ∧ d = .load x := by
  cases h with
  | resumed hc' => cases hc.symm.trans hc'
  | scheduled _ h =>
    have hline := h.line_eq hn
    cases h with
    | @dispatched p' rest' x hq' hx =>
      cases hq'.symm.trans hq
      rw [hq] at hline
      exact ⟨rfl, (List.cons.inj hline).2, x.state, by rw [state?, hx]; rfl, rfl⟩
    | idle hq' => cases hq'.symm.trans hq

end Scene

namespace Turn

theorem serves_eq_true {turn : Turn} {r : Request} :
    turn.serves (· = r) ↔ ∃ p, turn.served? = some (p, r) := by
  unfold serves
  cases turn.served? with
  | none => simp
  | some pr => simp [Prod.ext_iff]

theorem ticks_exception {s t : Computer} {saved : SavedState} {d : Dispatch} :
    (Turn.mk s (.exception saved) d t).Ticks ↔ saved.matter = .tick :=
  ⟨fun ⟨_, he, hm⟩ => by cases he; exact hm, fun hm => ⟨saved, rfl, hm⟩⟩

theorem not_ticks {s t : Computer} {e : Entry} {d : Dispatch} (he : ∀ saved, e ≠ .exception saved) :
    ¬(Turn.mk s e d t).Ticks := fun ⟨saved, he', _⟩ => he saved he'

instance : DecidablePred Ticks
  | ⟨_, .exception _, _, _⟩ => decidable_of_iff _ ticks_exception.symm
  | ⟨_, .start _, _, _⟩ | ⟨_, .schedule, _, _⟩ => .isFalse (not_ticks nofun)

end Turn

/-- How many waits for the pseudo-clock have been served since its last tick. -/
def clockWaits (history : List Turn) : Nat :=
  (history.takeWhile fun turn => ¬turn.Ticks).countP (·.serves (· = .waitClock))

theorem clockWaits_cons (turn : Turn) (past : List Turn) : clockWaits (turn :: past) =
    if turn.Ticks then 0 else clockWaits past + if turn.serves (· = .waitClock) then 1 else 0 := by
  by_cases ht : turn.Ticks
  · simp [clockWaits, ht]
  · simp [clockWaits, ht, List.countP_cons]

/-- What a tick does to the processes and the clock: `woken` are those who waited for it, `ready`
and `ready'` the ready queue before and after it. -/
structure Turn.Strikes (turn : Turn) (timing : Timing) (past : List Turn) (saved : SavedState)
    (woken ready ready' : List Handle) : Prop where
  waiting : turn.before.kernel.store.waiters Channel.clock.key = .ok woken
  all : ∀ p, p ∈ woken ↔ turn.before.kernel.table.waitsOn Channel.clock.key p
  oldest_first : woken.Pairwise fun p q => waited past Channel.clock.key q <
    waited past Channel.clock.key p
  ready_before : turn.before.kernel.readyList = .ok ready
  ready_after : turn.after.kernel.readyList = .ok ready'
  resumes : ∀ p, turn.before.kernel.current = some p →
    turn.dispatch = .load saved ∧ turn.after.kernel.current = some p ∧ ready' = ready ++ woken
  dispatches : turn.before.kernel.current = none → ∀ p rest, ready ++ woken = p :: rest →
    turn.after.kernel.current = some p ∧ ready' = rest ∧
      ∃ d, turn.before.kernel.table.find? p = some d ∧ turn.dispatch = .load d.state
  idles : turn.before.kernel.current = none → ready ++ woken = [] →
    turn.after.kernel.current = none ∧ ready' = []
  /-- Nobody waits for the pseudo-clock any more, and everybody else who waited waits on. -/
  waiters : ∀ key, turn.after.kernel.store.waiters key =
    if key = Channel.clock.key then .ok [] else turn.before.kernel.store.waiters key
  inactive : turn.after.kernel.store.directory.isActive Channel.clock.key = .ok false
  states : ∀ p, (turn.after.kernel.table.find? p).map (·.state) =
    (turn.before.kernel.table.find? p).map (·.state)
  softBlocks : turn.after.kernel.softBlockCount + woken.length = turn.before.kernel.softBlockCount
  value : turn.after.kernel.channels.get Channel.clock = 0
  timer : turn.after.machine.intervalTimer.toNat =
    min (timing.tick.toNat * turn.before.machine.timeScale.toNat) (UInt32.size - 1)

/-- What a turn does to the pseudo-clock and to those who wait for it. -/
structure Turn.KeepsTime (turn : Turn) (timing : Timing) (past : List Turn) : Prop where
  value : (turn.after.kernel.channels.get Channel.clock).toInt = -(clockWaits (turn :: past) : Int)
  blocks : ∀ p, turn.served? = some (p, .waitClock) →
    turn.after.kernel.table.waitsOn Channel.clock.key p ∧ turn.after.kernel.current ≠ some p
  strikes : ∀ saved, turn.entry = .exception saved → saved.matter = .tick →
    ∃ woken ready ready', turn.Strikes timing past saved woken ready ready'

namespace History
variable {timing : Timing} {machine : Machine} {first : SavedState} {history past : List Turn}
  {turn : Turn}
variable {s t : Computer} {v w : View} {m : Machine} {saved : SavedState} {d : Dispatch}
  {p : Handle}

theorem timing_eq (h : History timing machine first history s v) : s.kernel.timing = timing := by
  induction h with
  | start _ _ hboot => exact congrArg Scene.timing hboot
  | @next _ s t v w m saved d h _ _ heffect ih =>
    obtain ⟨ρ, hρ, hp⟩ := heffect.handled
    have htiming : t.kernel.timing = s.kernel.timing :=
      hp.timing.trans (hρ.queued (h.sceneSound m)).timing
    exact htiming.trans ih

theorem clockWaits_lt (h : History timing machine first history s v) :
    clockWaits history < history.length := by
  induction h with
  | start => simp [clockWaits, Turn.Ticks, Turn.serves, Turn.served?]
  | next _ _ _ _ ih =>
    rw [clockWaits_cons, List.length_cons]
    split
    · omega
    · split <;> omega

/-- The integer of the pseudo-clock, while there have been fewer exceptions than it can count. -/
theorem clock_value (h : History timing machine first history s v)
    (hlength : history.length ≤ 2147483648) :
    (s.kernel.channels.get Channel.clock).toInt = -(clockWaits history : Int) := by
  induction h with
  | @start t w p _ _ hboot =>
    have hzero : t.kernel.channels = .replicate channelCount 0 := congrArg Scene.channels hboot
    have hnone : clockWaits [⟨.initial timing machine, .start first, .load first, t⟩] = 0 := by
      simp [clockWaits, Turn.Ticks, Turn.serves, Turn.served?]
    rw [hzero, hnone]
    decide
  | @next past s t v w m saved d h _ _ heffect ih =>
    rw [List.length_cons] at hlength
    have hbefore := ih (by omega)
    have hlt := h.clockWaits_lt
    generalize hturn : Turn.mk (s.onMachine m) (.exception saved) d t = turn
    have hticks : turn.Ticks ↔ saved.matter = .tick := hturn ▸ Turn.ticks_exception
    have hserves : turn.serves (· = .waitClock) ↔
        ∃ p, saved.served? s.kernel.current = some (p, .waitClock) :=
      hturn ▸ Turn.serves_eq_true
    rw [clockWaits_cons]
    by_cases hm : saved.matter = .tick
    · have hafter : t.kernel.channels.get Channel.clock = 0 :=
        (congrArg (·.get Channel.clock) (heffect.of_tick hm).channels).trans Scene.channels_tick
      rw [if_pos (hticks.mpr hm), hafter]
      rfl
    rw [if_neg (hticks.not.mpr hm)]
    by_cases hs : turn.serves (· = .waitClock)
    · obtain ⟨p, hserved⟩ := hserves.mp hs
      have hafter : t.kernel.channels.get Channel.clock = s.kernel.channels.get Channel.clock - 1 :=
        ((heffect.of_served hserved).waits rfl).1
      rw [if_pos hs, hafter, Semaphore.toInt_sub_one (by omega), hbefore]
      omega
    · have hafter : t.kernel.channels.get Channel.clock = s.kernel.channels.get Channel.clock :=
        heffect.clock hm fun p hserved => hs (hserves.mpr ⟨p, hserved⟩)
      rw [if_neg hs, hafter, hbefore]
      rfl

theorem blocks_on_clock (h : History timing machine first history s v)
    (hlength : history.length ≤ 2147483648) (ht : t.kernel.Sound w)
    (heffect : ((s.onMachine m).scene v).Effect saved d (t.scene w))
    (hserved : saved.served? s.kernel.current = some (p, .waitClock)) :
    t.kernel.table.waitsOn Channel.clock.key p ∧ t.kernel.current ≠ some p := by
  have hbefore := h.clock_value hlength
  have hlt := h.clockWaits_lt
  have hwaits := (h.waitsOn_iff_nonpos ht heffect hserved rfl (by omega)).mpr (by omega)
  exact ⟨hwaits, fun hc => ht.scene.notMem_queue hc _ (ht.waitsOn_iff_mem.mp hwaits)⟩

theorem strikes (h : History timing machine first past s v) (ht : t.kernel.Sound w)
    (heffect : ((s.onMachine m).scene v).Effect saved d (t.scene w)) (hm : saved.matter = .tick) :
    Turn.Strikes ⟨s.onMachine m, .exception saved, d, t⟩ timing past saved
      (v.queue (.semaphore Channel.clock.key))
      (v.queue .ready) (w.queue .ready) := by
  have hσ := h.sceneSound m
  have hcont := heffect.of_tick hm
  have hready : ((s.onMachine m).scene v).tick.view.queue .ready =
      v.queue .ready ++ v.queue (.semaphore Channel.clock.key) := Scene.ready_tick hσ
  have hwaiters : ∀ key, w.queue (.semaphore key) =
      if key = Channel.clock.key then [] else v.queue (.semaphore key) :=
        heffect.waiters_of_tick hσ hm
  have hstate : ∀ q, (w.process q).map (·.state) = (v.process q).map (·.state) := fun q =>
    (hcont.state?_eq q).trans (Scene.state?_tick q)
  refine {
    waiting := h.sound.arranged.waiters_eq _
    all := fun p => h.sound.waitsOn_iff_mem.symm
    oldest_first := h.pairwise_waited _
    ready_before := h.sound.readyList_eq
    ready_after := ht.readyList_eq
    resumes := fun p hc => ?_
    dispatches := fun hc p rest hq => ?_
    idles := fun hc hq => ?_
    waiters := fun key => ?_
    inactive := ?_
    states := fun p => (ht.state_eq p).symm.trans ((hstate p).trans (h.sound.state_eq p))
    softBlocks := ?_
    value := (congrArg (·.get Channel.clock) hcont.channels).trans Scene.channels_tick
    timer := ?_ }
  · obtain ⟨hτ, hd⟩ := hcont.eq_of_some (p := p) hc
    exact ⟨hd, (congrArg Scene.current hτ).trans hc,
      (congrArg (·.view.queue .ready) hτ).trans hready⟩
  · obtain ⟨hcurrent, hrest, x, hx, hd⟩ :=
      hcont.dispatches (hσ.orderly.tick.nodup _) hc (hready.trans hq)
    rw [Scene.state?_tick] at hx
    have hfind := (h.sound.state_eq p).symm.trans hx
    obtain ⟨e, he, rfl⟩ := Option.map_eq_some_iff.mp hfind
    exact ⟨hcurrent, hrest, e, he, hd⟩
  · have hline := hcont.line_eq hσ.orderly.tick
    rw [hready] at hline
    have hnone : ((s.onMachine m).scene v).tick.current = none := hc
    rw [hq, hnone, List.append_nil, Option.toList_none] at hline
    obtain ⟨hcurrent, hempty⟩ := List.append_eq_nil_iff.mp hline
    exact ⟨Option.toList_eq_nil_iff.mp hcurrent, hempty⟩
  · have hafter : t.kernel.store.waiters key = .ok (w.queue (.semaphore key)) :=
      ht.arranged.waiters_eq key
    rw [hwaiters] at hafter
    refine hafter.trans ?_
    split
    · rfl
    · exact (h.sound.arranged.waiters_eq key).symm
  · have hactive := ht.isActive_eq Channel.clock.key
    rwa [hwaiters, if_pos rfl] at hactive
  · have hchannels : ∀ c : Channel, w.queue (.semaphore c.key) =
        if c = .clock then [] else v.queue (.semaphore c.key) := fun c =>
      (hwaiters c.key).trans (if_congr ⟨fun e => Channel.key_inj e, congrArg _⟩ rfl rfl)
    have hsoft := View.softBlocked_of_emptied hchannels
    rw [← ht.softBlocks, ← h.sound.softBlocks] at hsoft
    exact hsoft
  · have hmemory : t.machine.intervalTimer =
        (m.loadIntervalTimer s.kernel.timing.tick).intervalTimer :=
      Machine.read_congr hcont.proceeds.memory_eq Bus.intervalTimer
    have htimer := toNat_saturatingMul timing.tick m.timeScale
    rw [hmemory, Machine.intervalTimer_loadIntervalTimer, h.timing_eq]
    exact htimer

theorem keepsTime (h : History timing machine first (turn :: past) s v)
    (hlength : past.length < 2147483648) : turn.KeepsTime timing past := by
  refine ⟨h.last ▸ h.clock_value (by rw [List.length_cons]; omega), fun p hserved => ?_,
    fun saved he hm => ?_⟩
  · cases h with
    | start => cases hserved
    | next h ht _ heffect => exact h.blocks_on_clock (Nat.le_of_lt hlength) ht heffect hserved
  · cases h with
    | start => cases he
    | next h ht _ heffect =>
      cases he
      exact ⟨_, _, _, h.strikes ht heffect hm⟩

end History

/-- The pseudo-clock keeps time in every run of one start and fewer exceptions than its integer can
count, whoever ends while waiting for it. -/
theorem Computer.turns_keepTime (timing : Timing) (machine : Machine) (first : SavedState)
    (calls : List (Machine × SavedState)) (hcalls : calls.length < 2147483648) :
    ∃ turns, (initial timing machine).turns
        ((machine, .start first) :: calls.map fun call => (call.1, .exception call.2)) = .ok turns ∧
      ∀ turn past, turn :: past <:+ turns.reverse → turn.KeepsTime timing past := by
  obtain ⟨turns, hrun, hhistory⟩ := turns_history timing machine first calls
  refine ⟨turns, hrun, fun turn past hsuffix => ?_⟩
  obtain ⟨hlength, w, hw⟩ := hhistory turn past hsuffix
  exact hw.keepsTime (by omega)

/-- A process has two children, which both come to wait for the pseudo-clock. It ends the first of
them before the tick. -/
def clockRun : List (Machine × SavedState) :=
  [(.initial, Computer.asking 1 0x2000), (.initial, Computer.asking 1 0x2000),
    (.initial, { cause := 0x200 }),
    (.initial, Computer.asking 7 0), (.initial, Computer.asking 7 0),
    (.initial, Computer.asking 2 (Handle.toWord ⟨1, 1⟩)), (.initial, { cause := 0x400 })]

/-- At the tick the integer says two, and one process waits. -/
theorem Computer.clockRun_keepsTime : clockRun.length < 2147483648 ∧
    ∃ turns, (initial {} .initial).turns
        ((.initial, .start {}) :: clockRun.map fun call => (call.1, .exception call.2)) =
          .ok turns ∧
      (∃ turn ∈ turns, turn.Ticks ∧ (turn.before.kernel.channels.get Channel.clock).toInt = -2 ∧
        turn.before.kernel.table.blockedOn Channel.clock.key = [⟨2, 1⟩]) ∧
      ∀ turn past, turn :: past <:+ turns.reverse → turn.KeepsTime {} past := by
  obtain ⟨turns, hrun, h⟩ := turns_keepTime {} .initial {} clockRun (by decide)
  refine ⟨by decide, turns, hrun, ?_, h⟩
  rw [turns_eq_getD hrun]
  decide +kernel

end Nucleus
