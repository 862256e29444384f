import Nucleus.Proofs.History

/-!
# Units of ordinary semaphores

A semaphore in memory that nobody but the nucleus writes shows, after any exception, the units it
started with, those given by V, less those taken by P, and those handed back for processes that
ended in its queue. As many processes wait there as units are missing.
-/
namespace Nucleus

namespace Turn
variable {turn : Turn} {history : List Turn} {a : Word}

theorem slot?_eq_none_of_isUserKey {key : SemKey} (h : Request.isUserKey key) :
    Channel.slot? key = none := by
  unfold Request.isUserKey at h
  rw [Bool.and_eq_true] at h
  exact Option.isNone_iff_eq_none.mp h.2

theorem sum_taken_eq {key : SemKey} (h : Channel.slot? key = none) :
    (history.map (·.taken key)).sum = history.countP (·.serves (· = .passeren key)) := by
  refine sum_map_eq_countP fun turn => ?_
  rw [taken, serves_congr fun r _ => ?_]
  have hchannel : r.channel?.map Channel.key ≠ some key := by
    intro hc
    obtain ⟨c, _, rfl⟩ := Option.map_eq_some_iff.mp hc
    simp at h
  cases r with
  | passeren k => simp [Request.taken?]
  | waitDevice | waitClock => simpa [Request.taken?] using hchannel
  | createProcess | terminateProcess | verhogen | cpuTime | supportArea =>
    simp [Request.taken?, Request.channel?]

theorem given_eq {key : SemKey} (h : Channel.slot? key = none) :
    turn.given key = if turn.serves (· = .verhogen key) then 1 else 0 := by
  have hnone : turn.completions.countP (·.1.key = key) = 0 := by
    rw [List.countP_eq_zero]
    intro c _ hc
    rw [← of_decide_eq_true hc] at h
    simp at h
  rw [given, hnone, Nat.add_zero, serves_congr fun r _ => ?_]
  cases r <;> simp [Request.given?]

theorem sum_given_eq {key : SemKey} (h : Channel.slot? key = none) :
    (history.map (·.given key)).sum = history.countP (·.serves (· = .verhogen key)) :=
  sum_map_eq_countP fun _ => given_eq h

end Turn

/-- What a semaphore in memory shows after a history. -/
structure Balanced (a : Word) (start : Int) (history : List Turn) (s : Computer) : Prop where
  value : (s.machine.read a).toInt32.toInt = start + history.countP (·.serves (· = .verhogen ⟨a⟩)) -
    history.countP (·.serves (· = .passeren ⟨a⟩)) + (history.map (·.lost ⟨a⟩)).sum
  blocked : ((s.kernel.table.blockedOn ⟨a⟩).length : Int) =
    max 0 (-(s.machine.read a).toInt32.toInt)
  active : s.kernel.store.directory.isActive ⟨a⟩ =
    .ok (decide ((s.machine.read a).toInt32.toInt < 0))

namespace History
variable {timing : Timing} {machine : Machine} {first : SavedState} {history : List Turn}
variable {s : Computer} {v : View} {a : Word}

theorem balanced (h : History timing machine first history s v) (hk : Channel.slot? ⟨a⟩ = none)
    (hout : Bus.IsOutside a) (hstart : 0 ≤ (machine.read a).toInt32.toInt)
    (hunshared : Unshared a history)
    (hhigh : (machine.read a).toInt32.toInt + history.countP
      (·.serves (· = .verhogen ⟨a⟩)) < 2147483648) :
    Balanced a (machine.read a).toInt32.toInt history s := by
  have hquiet : SemKey.IsQuiet ⟨a⟩ := by simpa [SemKey.IsQuiet, hk] using hout
  have hvalue : NucleusCells.value ⟨.replicate channelCount 0, machine⟩ ⟨a⟩ =
      (machine.read a).toInt32 := by
    simp [NucleusCells.value, hk]
  have haccount := h.account hquiet hstart (congrArg Int32.toInt hvalue)
    (fun _ => hunshared) (.inl hk)
    (by rwa [Turn.sum_given_eq hk])
  rw [Turn.sum_taken_eq hk, Turn.sum_given_eq hk, hk, Option.isNone_none] at haccount
  obtain ⟨hv, hle, hge, _⟩ := haccount
  have hword : ((s.scene v).semaphore ⟨a⟩).value = (s.machine.read a).toInt32 := by
    simp [Scene.semaphore, Scene.value, Scene.cells, NucleusCells.value, hk, Computer.scene]
  have hwaiters : ((s.scene v).semaphore ⟨a⟩).waiters = v.queue (.semaphore ⟨a⟩) := rfl
  rw [hword, hwaiters] at hle hge
  rw [hword] at hv
  have hlength := (h.sound.blockedOn_perm ⟨a⟩).length_eq
  simp only [if_true] at hv hge
  refine ⟨hv, ?_, ?_⟩
  · rw [hlength]
    omega
  · have hsome : (!(v.queue (.semaphore ⟨a⟩)).isEmpty) ↔ 0 < (v.queue (.semaphore ⟨a⟩)).length := by
      simp [List.length_pos_iff]
    rw [h.sound.isActive_eq]
    refine congrArg Except.ok (Bool.eq_iff_iff.mpr (hsome.trans ?_))
    rw [decide_eq_true_eq]
    omega

end History

/-- In a run of one start and any exceptions the balance of a semaphore in memory is right after
every entry, as long as its integer has room for the units that are given. -/
theorem Computer.turns_balanced (timing : Timing) (machine : Machine) (first : SavedState)
    (calls : List (Machine × SavedState)) {a : Word} (ha : Request.isUserKey ⟨a⟩)
    (hout : Bus.IsOutside a) (hstart : 0 ≤ (machine.read a).toInt32.toInt) :
    ∃ turns, (initial timing machine).turns
        ((machine, .start first) :: calls.map fun call => (call.1, .exception call.2)) = .ok turns ∧
      (Unshared a turns.reverse →
        (machine.read a).toInt32.toInt + turns.countP (·.serves (· = .verhogen ⟨a⟩)) < 2147483648 →
        ∀ turn past, turn :: past <:+ turns.reverse →
          Balanced a (machine.read a).toInt32.toInt (turn :: past) turn.after) := by
  obtain ⟨turns, hrun, hhistory⟩ := turns_history timing machine first calls
  refine ⟨turns, hrun, fun hunshared hhigh turn past hsuffix => ?_⟩
  obtain ⟨_, w, hw⟩ := hhistory turn past hsuffix
  have hcount : (turn :: past).countP (·.serves (· = .verhogen ⟨a⟩)) ≤
      turns.countP (·.serves (· = .verhogen ⟨a⟩)) := by
    rw [← List.countP_reverse (l := turns)]
    exact hsuffix.sublist.countP_le
  exact hw.balanced (Turn.slot?_eq_none_of_isUserKey ha) hout hstart
    (hunshared.of_suffix hsuffix) (by omega)

/-- Two processes: the older one waits on a semaphore and the younger one gives it a unit. -/
def meeting : List (Machine × SavedState) :=
  [(.initial, Computer.asking 1 0x2000), (.initial, Computer.asking 3 0x3000),
    (Machine.initial.write 0x3000 0xFFFFFFFF, Computer.asking 4 0x3000)]

/-- The turns of a run, if it comes to its end. -/
def Computer.meetingTurns : List Turn :=
  ((initial {} .initial).turns ((.initial, .start {}) :: meeting.map fun call =>
    (call.1, .exception call.2))).toOption.getD []

theorem Computer.meeting_balanced : ∃ turns, (initial {} .initial).turns
        ((.initial, .start {}) :: meeting.map fun call => (call.1, .exception call.2)) = .ok turns ∧
      Unshared 0x3000 turns.reverse ∧
      (Machine.initial.read 0x3000).toInt32.toInt +
        turns.countP (·.serves (· = .verhogen ⟨0x3000⟩)) <
        2147483648 ∧
      ∀ turn past, turn :: past <:+ turns.reverse →
        Balanced 0x3000 (Machine.initial.read 0x3000).toInt32.toInt (turn :: past) turn.after := by
  obtain ⟨turns, hrun, h⟩ := turns_balanced {} .initial {} meeting (a := 0x3000) (by decide)
    (.inl (by decide))
    (by decide)
  have hturns : turns = meetingTurns := turns_eq_getD hrun
  have hunshared : Unshared 0x3000 turns.reverse := by
    rw [hturns]
    refine ⟨by decide +kernel, fun turn ht base hb => ?_⟩
    have hall : ∀ turn ∈ meetingTurns.reverse, turn.slot? = none := by decide +kernel
    rw [hall turn ht] at hb
    cases hb
  have hroom : (Machine.initial.read 0x3000).toInt32.toInt +
      turns.countP (·.serves (· = .verhogen ⟨0x3000⟩)) < 2147483648 := by
    rw [hturns]
    decide +kernel
  exact ⟨turns, hrun, hunshared, hroom, h hunshared hroom⟩

end Nucleus
