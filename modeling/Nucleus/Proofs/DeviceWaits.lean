import Nucleus.Proofs.Computer.Waking
import Nucleus.Proofs.History

/-!
# Waiting for devices

The integer of a device's semaphore is the completions served less the waits served, whoever else
ended in its queue. So a completion that finds somebody waiting finds the integer negative, and
wakes the process that has waited longest.
-/
namespace Nucleus

theorem Channel.ne_clock_of_lt {c : Channel} (hc : c.val < 48) : c ≠ .clock := by
  rintro rfl
  exact absurd hc (by decide)

namespace Turn
variable {turn : Turn} {history : List Turn}

theorem key_injective : Function.Injective Channel.key := fun _ _ => Channel.key_inj

theorem taken_channel (turn : Turn) (c : Channel) :
    turn.taken c.key = if turn.serves (·.channel? = some c) then 1 else 0 := by
  rw [taken, serves_congr fun r hr => ?_]
  have hmap : ∀ o : Option Channel, o.map Channel.key = some c.key ↔ o = some c := fun o =>
    (Option.map_injective key_injective).eq_iff' rfl
  cases r with
  | passeren k =>
    have hk : k ≠ c.key := by
      rintro rfl
      simp [Request.isWellFormed, Request.isUserKey] at hr
    simp [Request.taken?, Request.channel?, hk]
  | waitDevice | waitClock => simp [Request.taken?, hmap]
  | createProcess | terminateProcess | verhogen | cpuTime | supportArea =>
    simp [Request.taken?, Request.channel?]

theorem given_channel (turn : Turn) (c : Channel) :
    turn.given c.key = turn.completions.countP (·.1 = c) := by
  have hserves : turn.serves (·.given? = some c.key) = turn.serves fun _ => false := by
    refine serves_congr fun r hr => ?_
    cases r with
    | verhogen k =>
      have hk : k ≠ c.key := by
        rintro rfl
        simp [Request.isWellFormed, Request.isUserKey] at hr
      simp [Request.given?, hk]
    | _ => simp [Request.given?]
  have hnone : turn.serves (fun _ => false) = false := by simp [serves]
  rw [given, hserves, hnone, if_neg (by simp), Nat.zero_add]
  exact List.countP_congr fun c' _ => by simp [key_injective.eq_iff]

theorem sum_taken_channel (c : Channel) :
    (history.map (·.taken c.key)).sum = history.countP (·.serves (·.channel? = some c)) :=
  sum_map_eq_countP fun turn => turn.taken_channel c

theorem sum_given_channel (c : Channel) :
    (history.map (·.given c.key)).sum = (history.flatMap (·.completions)).countP (·.1 = c) := by
  rw [List.countP_flatMap]
  exact congrArg List.sum (List.map_congr_left fun turn _ => turn.given_channel c)

theorem completions_eq_nil {p : Handle} {r : Request} (h : turn.served? = some (p, r)) :
    turn.completions = [] := by
  unfold served? at h
  unfold completions
  split at h
  · have hm := (SavedState.served?_eq_some.mp h).1
    simp [SavedState.completions, hm]
  all_goals cases h

/-- One turn serves one wait or one completion of a channel, not both. -/
theorem taken_add_given_le (turn : Turn) (c : Channel) :
    turn.taken c.key + turn.given c.key ≤ 1 := by
  rw [taken_channel, given_channel]
  cases hs : turn.served? with
  | none =>
    have hcount := List.nodup_iff_count_le_one.mp turn.nodup_completions c
    rw [List.count, List.countP_map] at hcount
    have hsame : turn.completions.countP (·.1 = c) = turn.completions.countP ((· == c) ∘ (·.1)) :=
      List.countP_congr fun c' _ => by simp
    simp only [serves, hs, Option.any_none, Bool.false_eq_true, if_false, hsame, Nat.zero_add]
    exact hcount
  | some pr =>
    rw [completions_eq_nil (p := pr.1) (r := pr.2) hs]
    split <;> simp

end Turn

/-- For how many turns, back from the last one, a process has been waiting on a semaphore. -/
def waited (history : List Turn) (key : SemKey) (p : Handle) : Nat :=
  (history.takeWhile fun turn => turn.after.kernel.table.waitsOn key p).length

theorem waited_cons (turn : Turn) (past : List Turn) (key : SemKey) (p : Handle) :
    waited (turn :: past) key p = if turn.after.kernel.table.waitsOn key p then
      waited past key p + 1 else 0 := by
  rw [waited, List.takeWhile_cons]
  split <;> rfl

namespace History
variable {timing : Timing} {machine : Machine} {first : SavedState} {history past : List Turn}
  {turn : Turn}
variable {s : Computer} {v : View} {c : Channel} {p : Handle}

theorem units_lt (h : History timing machine first history s v) (c : Channel) :
    (history.map (·.taken c.key)).sum + (history.map (·.given c.key)).sum < history.length := by
  induction h with
  | start =>
    simp [Turn.taken, Turn.given, Turn.serves, Turn.served?, Turn.completions]
  | @next past s t v w m saved d h ht hs heffect ih =>
    have hturn := (Turn.mk (s.onMachine m) (.exception saved) d t).taken_add_given_le c
    simp only [List.map_cons, List.sum_cons, List.length_cons]
    omega

/-- The account of a device, while there have been fewer exceptions than its integer can count. -/
theorem channel_account (h : History timing machine first history s v) (hc : c ≠ .clock)
    (hlength : history.length ≤ 2147483648) :
    Semaphore.Account false 0 (history.countP (·.serves (·.channel? = some c)))
      ((history.flatMap (·.completions)).countP (·.1 = c)) (history.map (·.lost c.key)).sum
      ⟨s.kernel.channels.get c, v.queue (.semaphore c.key)⟩ := by
  have hunits := h.units_lt c
  have hvalue : NucleusCells.value ⟨.replicate channelCount 0, machine⟩ c.key = 0 := by
    simp [NucleusCells.value]
  have haccount := h.account (Scene.isQuiet_key hc) (Int.le_refl 0) (congrArg Int32.toInt hvalue)
    (fun hn => by simp at hn) (.inr (by omega)) (by omega)
  rw [Turn.sum_taken_channel, Turn.sum_given_channel, Channel.slot?_key,
    Option.isNone_some] at haccount
  rwa [s.semaphore_channel] at haccount

theorem waited_pos_iff (h : History timing machine first history s v) {key : SemKey} :
    0 < waited history key p ↔ p ∈ v.queue (.semaphore key) := by
  have hmem : s.kernel.table.waitsOn key p ↔ _ := h.sound.waitsOn_iff_mem
  obtain ⟨turn, past, rfl, rfl⟩ := h.exists_last
  rw [waited_cons, ← hmem]
  split
  · next hw => simp [hw]
  · next hw => simp [hw]

/-- Whoever stands further ahead has waited longer. -/
theorem pairwise_waited (h : History timing machine first history s v) (c : Channel) :
    (v.queue (.semaphore c.key)).Pairwise fun p q =>
      waited history c.key q < waited history c.key p := by
  induction h with
  | @start t w p ht hs hboot =>
    have hq : w.queue (.semaphore c.key) = [] :=
      (congrArg (Scene.waiters · c.key) hboot).trans (waiters_boot p)
    rw [hq]
    exact .nil
  | @next past s t v w m saved d h ht hs heffect ih =>
    generalize hturn : Turn.mk (s.onMachine m) (.exception saved) d t = turn
    have hage : ∀ q ∈ w.queue (.semaphore c.key),
        waited (turn :: past) c.key q = waited past c.key q + 1 := by
      intro q hq
      rw [waited_cons, ← hturn, if_pos (ht.waitsOn_iff_mem.mpr hq)]
    have hcases : (w.queue (.semaphore c.key)).Sublist (v.queue (.semaphore c.key)) ∨
        ∃ p, w.queue (.semaphore c.key) = v.queue (.semaphore c.key) ++ [p] :=
      heffect.waiters_cases (h.sceneSound m) c
    rcases hcases with hsub | ⟨p, hjoin⟩
    · refine (ih.sublist hsub).imp_of_mem fun {a b} ha hb hlt => ?_
      rw [hage a ha, hage b hb]
      omega
    · -- the newcomer has waited for one turn, all others for longer
      have hn := ht.arranged.shows.nodup_queue (.semaphore c.key)
      rw [hjoin] at hn hage ⊢
      have hp : p ∉ v.queue (.semaphore c.key) := fun hm =>
        (List.disjoint_of_nodup_append hn) hm (by simp)
      have hzero : waited past c.key p = 0 := by
        have hpos := h.waited_pos_iff.not.mpr hp
        omega
      refine List.pairwise_append.mpr ⟨?_, List.pairwise_singleton _ _, fun a ha b hb => ?_⟩
      · refine ih.imp_of_mem fun {a b} ha hb hlt => ?_
        rw [hage a (by simp [ha]), hage b (by simp [hb])]
        omega
      · obtain rfl := List.mem_singleton.mp hb
        have hpos := h.waited_pos_iff.mpr ha
        rw [hage a (by simp [ha]), hage b (by simp)]
        omega

theorem woken?_eq (h : History timing machine first history s v) (hc : c ≠ .clock)
    (hlength : history.length ≤ 2147483648) (m : Machine) :
    ((s.onMachine m).scene v).woken? c.key = (v.queue (.semaphore c.key)).head? := by
  have haccount := h.channel_account hc hlength
  have hvalue : ((s.onMachine m).scene v).value c.key = s.kernel.channels.get c :=
    Scene.value_channel _ c
  have hwaiters : ((s.onMachine m).scene v).waiters c.key = v.queue (.semaphore c.key) := rfl
  rw [Scene.woken?, hvalue, hwaiters]
  by_cases hq : v.queue (.semaphore c.key) = []
  · simp [hq]
  · exact if_pos (haccount.add_one_nonpos hq)

end History

def Turn.woken (turn : Turn) : List Handle :=
  turn.completions.filterMap fun c => (turn.before.kernel.store.firstWaiter c.1.key).toOption.join

/-- What the integer and the queue of a channel are after a history. -/
structure Kernel.Awaits (k : Kernel) (c : Channel) (history : List Turn) : Prop where
  value : (k.channels.get c).toInt = (history.flatMap (·.completions)).countP (·.1 = c) -
    history.countP (·.serves (·.channel? = some c))
  length_le : ((k.table.blockedOn c.key).length : Int) ≤ max 0 (-(k.channels.get c).toInt)
  length_eq : (∀ turn ∈ history, turn.lost c.key = 0) →
    ((k.table.blockedOn c.key).length : Int) = max 0 (-(k.channels.get c).toInt)

/-- What a turn does to the queue of a channel. -/
structure Turn.Attends (turn : Turn) (c : Channel) (past : List Turn) : Prop where
  blocks : ∀ p r, turn.served? = some (p, r) → r.channel? = some c →
    (turn.after.kernel.table.waitsOn c.key p ↔ (turn.before.kernel.channels.get c).toInt ≤ 0)
  wakes : ∀ status, (c, status) ∈ turn.completions → turn.before.kernel.table.blockedOn c.key ≠ [] →
    ∃ p rest d, turn.before.kernel.store.waiters c.key = .ok (p :: rest) ∧
      turn.after.kernel.store.waiters c.key = .ok rest ∧
      (∀ q ∈ rest, waited past c.key q < waited past c.key p) ∧ p ∈ turn.woken ∧
      turn.before.kernel.table.find? p = some d ∧
      (turn.after.kernel.table.find? p).map (·.state) = some (d.state.setV0 status)
  line : turn.completions ≠ [] → ∃ ready ready', turn.before.kernel.readyList = .ok ready ∧
    turn.after.kernel.readyList = .ok ready' ∧
    turn.after.kernel.current.toList ++ ready' = turn.before.kernel.current.toList ++
      ready ++ turn.woken
  softBlocks : turn.completions ≠ [] →
    turn.after.kernel.softBlockCount + turn.woken.length = turn.before.kernel.softBlockCount

namespace History
variable {timing : Timing} {machine : Machine} {first : SavedState} {history past : List Turn}
  {turn : Turn}
variable {s : Computer} {v : View} {c : Channel} {p : Handle}

theorem woken_eq (h : History timing machine first history s v)
    (hlength : history.length ≤ 2147483648) (m : Machine) (saved : SavedState) (d : Dispatch)
    (t : Computer) : (Turn.mk (s.onMachine m) (.exception saved) d t).woken =
      ((s.onMachine m).scene v).wokenAll (saved.completions m) := by
  refine List.filterMap_congr fun c hc => ?_
  have hclock := SavedState.ne_clock_of_mem_completions hc
  have hfirst : (s.onMachine m).kernel.store.firstWaiter c.1.key =
      .ok (v.queue (.semaphore c.1.key)).head? :=
    h.sound.arranged.firstWaiter_eq c.1.key
  rw [hfirst, h.woken?_eq hclock hlength m]
  rfl

section
variable {t : Computer} {w : View} {m : Machine} {saved : SavedState} {d : Dispatch} {status : Word}
  {rest : List Handle}

/-- A wait blocks its caller unless it finds a unit, while the integer can be lowered. -/
theorem waitsOn_iff_nonpos (h : History timing machine first history s v) (ht : t.kernel.Sound w)
    (heffect : ((s.onMachine m).scene v).Effect saved d (t.scene w)) {r : Request}
    (hserved : saved.served? s.kernel.current = some (p, r)) (hr : r.channel? = some c)
    (hlow : -2147483648 < (s.kernel.channels.get c).toInt) :
    t.kernel.table.waitsOn c.key p ↔ (s.kernel.channels.get c).toInt ≤ 0 := by
  have hiff := (heffect.of_served hserved).mem_waiters_iff ((h.sceneSound m).setState _)
    (SavedState.served?_eq_some.mp hserved).2 hr
  have hvalue : (((s.onMachine m).scene v).setState p fun _ => saved.pastInstruction).value c.key =
      s.kernel.channels.get c := Scene.value_channel _ c
  have hsub := Semaphore.toInt_sub_one hlow
  rw [ht.waitsOn_iff_mem]
  refine hiff.trans ?_
  rw [hvalue, Int32.le_iff_toInt_le, hsub, Int32.toInt_zero]
  omega

theorem waitsOn_iff_channel_nonpos (h : History timing machine first history s v) (hc : c ≠ .clock)
    (hlength : history.length ≤ 2147483648) (ht : t.kernel.Sound w)
    (heffect : ((s.onMachine m).scene v).Effect saved d (t.scene w)) {r : Request}
    (hserved : saved.served? s.kernel.current = some (p, r)) (hr : r.channel? = some c) :
    t.kernel.table.waitsOn c.key p ↔ (s.kernel.channels.get c).toInt ≤ 0 := by
  have hlow := (h.channel_account hc hlength).neg_le_taken (Int.le_refl 0)
  have hunits := h.units_lt c
  rw [Turn.sum_taken_channel] at hunits
  exact h.waitsOn_iff_nonpos ht heffect hserved hr (by simp only at hlow; omega)

theorem queue_of_completion (h : History timing machine first history s v) (hc : c ≠ .clock)
    (hlength : history.length ≤ 2147483648)
    (heffect : ((s.onMachine m).scene v).Effect saved d (t.scene w))
    (hm : (c, status) ∈ saved.completions m) :
    w.queue (.semaphore c.key) = (v.queue (.semaphore c.key)).tail := by
  have hσ := h.sceneSound m
  have hgive := heffect.semaphore_of_completion hσ hm
  have hsemaphore : ((s.onMachine m).scene v).semaphore c.key =
      ⟨s.kernel.channels.get c, v.queue (.semaphore c.key)⟩ := (s.onMachine m).semaphore_channel v c
  rw [hsemaphore] at hgive
  have hqueue : w.queue (.semaphore c.key) = if s.kernel.channels.get c + 1 ≤ 0 then
      (v.queue (.semaphore c.key)).tail else v.queue (.semaphore c.key) :=
        congrArg Semaphore.waiters hgive
  by_cases hq : v.queue (.semaphore c.key) = []
  · simpa [hq] using hqueue
  · rw [hqueue, if_pos ((h.channel_account hc hlength).add_one_nonpos hq)]

theorem state_of_completion (h : History timing machine first history s v) (hc : c ≠ .clock)
    (hlength : history.length ≤ 2147483648)
    (heffect : ((s.onMachine m).scene v).Effect saved d (t.scene w))
    (hm : (c, status) ∈ saved.completions m) (hq : v.queue (.semaphore c.key) = p :: rest) :
    (w.process p).map (·.state) = (v.process p).map (·.state.setV0 status) := by
  have hσ := h.sceneSound m
  obtain ⟨_, _, hstate⟩ := heffect.wakes hσ rfl (List.ne_nil_of_mem hm)
  have hwoken := hstate c status p hm (by rw [h.woken?_eq hc hlength, hq]; rfl)
  rw [Scene.state?, Scene.state?, Option.map_map] at hwoken
  exact hwoken

end

theorem awaits (h : History timing machine first history s v) (hc : c ≠ .clock)
    (hlength : history.length ≤ 2147483648) : s.kernel.Awaits c history := by
  obtain ⟨hvalue, hle, hge, -⟩ := h.channel_account hc hlength
  have hcount := (h.sound.blockedOn_perm c.key).length_eq
  simp only [Bool.false_eq_true, if_false] at hvalue hge hle
  refine ⟨by omega, by omega, fun hnone => ?_⟩
  have hlost : (history.map (·.lost c.key)).sum = 0 := by
    refine List.sum_eq_zero fun n hn => ?_
    obtain ⟨t, ht, rfl⟩ := List.mem_map.mp hn
    exact hnone t ht
  omega

theorem attends (h : History timing machine first (turn :: past) s v) (hc : c ≠ .clock)
    (hlength : past.length < 2147483648) : turn.Attends c past := by
  cases h with
  | start =>
    refine ⟨fun _ _ hn => ?_, fun _ hm => ?_, fun hn => (hn rfl).elim, fun hn => (hn rfl).elim⟩
    · cases hn
    · cases hm
  | @next _ s t v w m saved d h ht hs heffect =>
    have hσ := h.sceneSound m
    have hl := Nat.le_of_lt hlength
    refine ⟨fun p r hserved hr => ?_, fun status hm hne => ?_, fun hne => ?_, fun hne => ?_⟩
    · exact h.waitsOn_iff_channel_nonpos hc hl ht heffect hserved hr
    · obtain ⟨p, rest, hq⟩ : ∃ p rest, v.queue (.semaphore c.key) = p :: rest := by
        refine List.exists_cons_of_ne_nil fun hq => hne ?_
        have hperm := h.sound.blockedOn_perm c.key
        rw [hq] at hperm
        exact hperm.eq_nil
      have hrest := h.queue_of_completion hc hl heffect hm
      rw [hq, List.tail_cons] at hrest
      have hstate := h.state_of_completion hc hl heffect hm hq
      have hwaiters := h.sound.arranged.waiters_eq c.key
      have hwaiters' := ht.arranged.waiters_eq c.key
      have hpairwise := h.pairwise_waited c
      rw [hq] at hwaiters hpairwise
      rw [hrest] at hwaiters'
      obtain ⟨e, he, _⟩ := h.sound.mem_semaphore_iff.mp
        (by simp [hq] : p ∈ v.queue (.semaphore c.key))
      refine ⟨p, rest, e, hwaiters, hwaiters', (List.pairwise_cons.mp hpairwise).1, ?_, he, ?_⟩
      · rw [h.woken_eq hl]
        exact List.mem_filterMap.mpr ⟨(c, status), hm, by rw [h.woken?_eq hc hl, hq]; rfl⟩
      · have hbefore := congrArg (Option.map (·.setV0 status)) (h.sound.state_eq p)
        rw [Option.map_map, he] at hbefore
        exact ((ht.state_eq p).symm.trans hstate).trans hbefore
    · obtain ⟨hline, _⟩ := heffect.wakes hσ rfl hne
      refine ⟨_, _, h.sound.readyList_eq, ht.readyList_eq, ?_⟩
      rw [h.woken_eq hl]
      exact hline
    · obtain ⟨_, hsoft, _⟩ := heffect.wakes hσ rfl hne
      have hbefore := h.sound.softBlocks
      have hafter := ht.softBlocks
      rw [h.woken_eq hl, hafter]
      exact hsoft.trans hbefore.symm

end History

/-- No completion of a device is lost on those who wait for it, in a run of one start and fewer
exceptions than its integer can count. -/
theorem Computer.turns_attend (timing : Timing) (machine : Machine) (first : SavedState)
    (calls : List (Machine × SavedState)) (hcalls : calls.length < 2147483648) {c : Channel}
    (hc : c.val < 48) :
    ∃ turns, (initial timing machine).turns
        ((machine, .start first) :: calls.map fun call => (call.1, .exception call.2)) = .ok turns ∧
      ∀ turn past, turn :: past <:+ turns.reverse →
        turn.after.kernel.Awaits c (turn :: past) ∧ turn.Attends c past := by
  obtain ⟨turns, hrun, hhistory⟩ := turns_history timing machine first calls
  refine ⟨turns, hrun, fun turn past hsuffix => ?_⟩
  obtain ⟨hlength, w, hw⟩ := hhistory turn past hsuffix
  have hclock := Channel.ne_clock_of_lt hc
  exact ⟨hw.awaits hclock (by rw [List.length_cons]; omega), hw.attends hclock (by omega)⟩

/-- A process waits for the first disk, which then reports. -/
def diskRun : List (Machine × SavedState) :=
  [(.initial, Computer.asking 5 3), (Machine.initial.raise 3 0 7, { cause := 0x800 })]

/-- The completion finds somebody waiting. -/
theorem Computer.diskRun_attends : diskRun.length < 2147483648 ∧ (0 : Channel).val < 48 ∧
    ∃ turns, (initial {} .initial).turns
        ((.initial, .start {}) :: diskRun.map fun call => (call.1, .exception call.2)) = .ok turns ∧
      (∃ turn ∈ turns, (0, 7) ∈ turn.completions ∧
        turn.before.kernel.table.blockedOn (0 : Channel).key ≠ []) ∧
      ∀ turn past, turn :: past <:+ turns.reverse →
        turn.after.kernel.Awaits 0 (turn :: past) ∧ turn.Attends 0 past := by
  obtain ⟨turns, hrun, h⟩ := turns_attend {} .initial {} diskRun (by decide) (c := 0) (by decide)
  refine ⟨by decide, by decide, turns, hrun, ?_, h⟩
  rw [turns_eq_getD hrun]
  decide +kernel

end Nucleus
