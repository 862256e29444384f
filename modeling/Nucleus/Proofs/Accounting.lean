import Nucleus.Proofs.Checkpoint
import Nucleus.Proofs.Computer.Metering
import Nucleus.Proofs.Fairness

/-!
# Whose time it was

A stint of a process begins when the scheduler gives it the processor, and ends when its time slice
is over or it has to wait. The stints of a process are told here from what can be seen of the turns
alone. The nucleus has charged every process with the time of its completed stints, modulo the size
of a word, and tells whoever asks what the current stint adds to that.
-/
namespace Nucleus

/-- The ticks at which a stint begins and ends, and the ticks per microsecond at its end. -/
structure Stint where
  start : Word
  stop : Word
  scale : Word

/-- Whole microseconds of a stint. Ticks wrap around, and a scale of zero counts as one. -/
def Stint.micros (x : Stint) : Nat :=
  (2 ^ 32 + x.stop.toNat - x.start.toNat) % 2 ^ 32 / max x.scale.toNat 1

def Machine.stint (m : Machine) (start : Word) : Stint := ⟨start, m.ticks, m.read Bus.timeScale⟩

/-- When `p` was given the processor last. -/
def dispatchedAt? (p : Handle) : List Turn → Option Word
  | [] => none
  | turn :: past =>
    if turn.dispatched? = some p then some turn.after.machine.ticks else dispatchedAt? p past

/-- The completed stints of `p`, the latest first. The machine shows at the end of a turn what it
showed when the clock was read: only the local timer is loaded after that. -/
def stints (p : Handle) : List Turn → List Stint
  | [] => []
  | turn :: past =>
    if turn.bears p then []
    else
      match turn.left? p, dispatchedAt? p past with
      | some _, some start => turn.after.machine.stint start :: stints p past
      | _, _ => stints p past

/-- The microseconds of all completed stints of `p`. -/
def usedTime (p : Handle) (history : List Turn) : Nat := ((stints p history).map Stint.micros).sum

/-- What a turn makes of the time used. -/
structure Turn.Timed (turn : Turn) (past : List Turn) : Prop where
  charged : ∀ p e, turn.after.kernel.table.find? p = some e →
    e.cpuTime = UInt32.ofNat (usedTime p (turn :: past))
  others : ∀ p e e', turn.before.kernel.current ≠ some p →
    turn.before.kernel.table.find? p = some e →
    turn.after.kernel.table.find? p = some e' → e'.cpuTime = e.cpuTime
  stamped : ∀ p, turn.after.kernel.current = some p →
    dispatchedAt? p (turn :: past) = some turn.after.kernel.stopwatch.start
  stayed : ∀ p, turn.before.kernel.current = some p → turn.after.kernel.table.isLive p →
    (turn.left? p = none ↔ turn.after.kernel.current = some p ∧ ¬turn.IsTimer)
  unbroken : ∀ p, turn.before.kernel.current = some p →
    turn.after.kernel.current = some p → ¬turn.IsTimer →
    turn.dispatched? = none ∧ turn.after.kernel.stopwatch = turn.before.kernel.stopwatch ∧
      stints p (turn :: past) = stints p past
  told : ∀ saved p, turn.entry = .exception saved → turn.served? = some (p, .cpuTime) →
    turn.after.kernel.current = some p ∧
      turn.after.kernel.stopwatch = turn.before.kernel.stopwatch ∧
      ∃ start, dispatchedAt? p past = some start ∧
        turn.dispatch = .load (saved.pastInstruction.setV0
        (UInt32.ofNat (usedTime p past + (turn.before.machine.stint start).micros)))

theorem Word.toNat_max (a b : Word) : (max a b).toNat = max a.toNat b.toNat := by
  have h : max a b = if a ≤ b then b else a := rfl
  rw [h, Nat.max_def, apply_ite UInt32.toNat]
  exact if_congr UInt32.le_iff_toNat_le rfl rfl

/-- The stopwatch shows the time of the stint since it was started. -/
theorem Machine.ofNat_micros_stint (m : Machine) (w : Stopwatch) :
    UInt32.ofNat (m.stint w.start).micros = w.elapsed m := by
  have hticks : 2 ^ 32 - w.start.toNat + m.ticks.toNat =
      2 ^ 32 + m.ticks.toNat - w.start.toNat := by
    have hlt := w.start.toNat_lt
    omega
  have hmicros : (w.elapsed m).toNat = (m.stint w.start).micros := by
    rw [Stopwatch.elapsed, UInt32.toNat_div, UInt32.toNat_sub, hticks, timeScale, Word.toNat_max]
    rfl
  rw [← hmicros, UInt32.ofNat_toNat]

section
variable {turn : Turn} {past : List Turn} {p : Handle} {x : SavedState} {start : Word}

theorem usedTime_of_bears (h : turn.bears p) : usedTime p (turn :: past) = 0 := by
  rw [usedTime, stints, if_pos h]
  rfl

theorem stints_of_stayed (hb : ¬turn.bears p) (hl : turn.left? p = none) :
    stints p (turn :: past) = stints p past := by
  rw [stints, if_neg hb, hl]

theorem usedTime_of_stayed (hb : ¬turn.bears p) (hl : turn.left? p = none) :
    usedTime p (turn :: past) = usedTime p past := by
  rw [usedTime, stints_of_stayed hb hl, usedTime]

theorem usedTime_of_left (hb : ¬turn.bears p) (hl : turn.left? p = some x)
    (hd : dispatchedAt? p past = some start) :
    usedTime p (turn :: past) = (turn.after.machine.stint start).micros + usedTime p past := by
  rw [usedTime, stints, if_neg hb, hl, hd]
  rfl

end

theorem Kernel.Sound.cpuTimes_eq {s : Computer} {v : View} (h : s.kernel.Sound v) (p : Handle) :
    (s.scene v).cpuTimes p = (s.kernel.table.find? p).map (·.cpuTime) := by
  rw [Scene.cpuTimes, Computer.scene, ← h.registers.process p, Option.map_map]
  rfl

theorem Kernel.Sound.isLive_cpuTimes {s : Computer} {v : View} (h : s.kernel.Sound v) (p : Handle) :
    s.kernel.table.isLive p = ((s.scene v).cpuTimes p).isSome := by
  rw [h.cpuTimes_eq, Option.isSome_map]
  rfl

theorem Kernel.Sound.isLive_of_current {k : Kernel} {v : View} {p : Handle} (h : k.Sound v)
    (hc : k.current = some p) : k.table.isLive p := by
  obtain ⟨x, hx, _⟩ := h.running p hc
  exact (h.isLive_iff p).mpr ⟨x, hx⟩

/-- What the nucleus keeps of the time used. -/
structure Scene.Clocked (σ : Scene) (history : List Turn) : Prop where
  charged : ∀ p n, σ.cpuTimes p = some n → n = UInt32.ofNat (usedTime p history)
  stamped : ∀ p, σ.current = some p → dispatchedAt? p history = some σ.stopwatch.start

theorem Scene.Clocked.cpuTime_eq {s : Computer} {v : View} {history : List Turn} {p : Handle}
    {e : Descriptor} (hclocked : (s.scene v).Clocked history) (h : s.kernel.Sound v)
    (he : s.kernel.table.find? p = some e) : e.cpuTime = UInt32.ofNat (usedTime p history) := by
  apply hclocked.charged p
  rw [h.cpuTimes_eq, he]
  rfl

namespace Turn
variable {s t : Computer} {v w : View} {saved : SavedState} {d : Dispatch} {p : Handle}
  {past : List Turn}

theorem left?_of_ne (hc : s.kernel.current ≠ some p) :
    (Turn.mk s (.exception saved) d t).left? p = none :=
  if_pos hc

section
variable {n : Word} (h : s.kernel.Sound v) (ht : t.kernel.Sound w)
  (hn : (t.scene w).cpuTimes p = some n)
include h ht hn

theorem bears_iff_cpuTimes {e : Entry} :
    (Turn.mk s e d t).bears p ↔ (s.scene v).cpuTimes p = none := by
  have hlive : t.kernel.table.isLive p := by simp [ht.isLive_cpuTimes, hn]
  simp [bears, hlive, h.isLive_cpuTimes]

variable (hpast : (s.scene v).Clocked past)
include hpast

theorem charged_of_stayed {e : Entry} (hl : (Turn.mk s e d t).left? p = none)
    (htime : (s.scene v).cpuTimes p = some n ∨ ((s.scene v).cpuTimes p = none ∧ n = 0)) :
    n = UInt32.ofNat (usedTime p (⟨s, e, d, t⟩ :: past)) := by
  rcases htime with htime | ⟨hnone, rfl⟩
  · have hb : ¬(Turn.mk s e d t).bears p := by simp [bears_iff_cpuTimes h ht hn, htime]
    rw [usedTime_of_stayed hb hl]
    exact hpast.charged p n htime
  · rw [usedTime_of_bears ((bears_iff_cpuTimes h ht hn).mpr hnone)]
    rfl

theorem charged_of_left {e : Entry} {x : SavedState} (hc : s.kernel.current = some p)
    (hl : (Turn.mk s e d t).left? p = some x) (htime : (t.scene w).cpuTimes p =
      ((s.scene v).cpuTimes p).map (· + s.kernel.stopwatch.elapsed t.machine)) :
    n = UInt32.ofNat (usedTime p (⟨s, e, d, t⟩ :: past)) := by
  obtain ⟨n', hn', rfl⟩ := Option.map_eq_some_iff.mp (htime.symm.trans hn)
  have hb : ¬(Turn.mk s e d t).bears p := by simp [bears_iff_cpuTimes h ht hn, hn']
  have hstart : dispatchedAt? p past = some s.kernel.stopwatch.start := hpast.stamped p hc
  rw [usedTime_of_left hb hl hstart, Nat.add_comm, UInt32.ofNat_add, Machine.ofNat_micros_stint,
    ← hpast.charged p n' hn']

end

section
variable (h : s.kernel.Sound v) (ht : t.kernel.Sound w)
  (heffect : (s.scene v).Effect saved d (t.scene w))
include h ht heffect

theorem left?_eq_none_iff (hc : s.kernel.current = some p) (hp : t.kernel.table.isLive p) :
    (Turn.mk s (.exception saved) d t).left? p = none ↔
      t.kernel.current = some p ∧ saved.matter ≠ .sliceEnd := by
  constructor
  · intro hl
    rw [ht.isLive_scene] at hp
    obtain ⟨x, hx⟩ := Option.isSome_iff_exists.mp hp
    by_contra hout
    have hout' := (not_and_or.mp hout).imp_right not_not.mp
    cases hl.symm.trans (History.left?_eq_some h ht heffect hc hx hout')
  · intro ⟨hstays, hm⟩
    have hwaits : ∀ key, t.kernel.table.waitsOn key p = false := by
      intro key
      rw [← Bool.not_eq_true, ht.waitsOn_iff_mem]
      exact ht.scene.notMem_queue hstays _
    cases hmatter : saved.matter with
    | sliceEnd => exact (hm hmatter).elim
    | request r => simp [left?, hc, hmatter, hwaits]
    | spurious | tick | devices | passUp => simp [left?, hc, hmatter]

theorem unbroken (hc : s.kernel.current = some p) (hc' : t.kernel.current = some p)
    (hm : saved.matter ≠ .sliceEnd) : (Turn.mk s (.exception saved) d t).dispatched? = none ∧
      t.kernel.stopwatch = s.kernel.stopwatch ∧
        stints p (⟨s, .exception saved, d, t⟩ :: past) = stints p past := by
  have hnone := ((fair h ht heffect).unrenewed p hc hc' (isTimer_iff.not.mpr hm)).1
  refine ⟨hnone, ?_, stints_of_stayed ?_ ?_⟩
  · rcases heffect.stamped h.scene hc' with ⟨hn, _⟩ | ⟨_, _, hw⟩
    · have hd : (Turn.mk s (.exception saved) d t).dispatched? = t.kernel.current :=
        dispatched?_eq_current hn
      cases hnone.symm.trans (hd.trans hc')
    · exact hw
  · simp [bears, h.isLive_of_current hc]
  · exact (left?_eq_none_iff h ht heffect hc (ht.isLive_of_current hc')).mpr ⟨hc', hm⟩

theorem clocked (hpast : (s.scene v).Clocked past) :
    (t.scene w).Clocked (⟨s, .exception saved, d, t⟩ :: past) := by
  constructor
  · intro q n hn
    have hlive : t.kernel.table.isLive q := by simp [ht.isLive_cpuTimes, hn]
    cases heffect.metered h.scene with
    | spared hgoes htimes =>
      refine charged_of_stayed h ht hn hpast ?_ (htimes q n hn)
      by_cases hc : s.kernel.current = some q
      · exact (left?_eq_none_iff h ht heffect hc hlive).mpr (hgoes q hc (by simp [hn]))
      · exact left?_of_ne hc
    | @charged p hc hl htimes =>
      by_cases hq : q = p
      · subst hq
        have hleft : (Turn.mk s (.exception saved) d t).left? q ≠ none := by
          intro hnone
          obtain ⟨hstays, hm⟩ := (left?_eq_none_iff h ht heffect hc hlive).mp hnone
          exact hm (hl hstays)
        obtain ⟨x, hx⟩ := Option.ne_none_iff_exists'.mp hleft
        exact charged_of_left h ht hn hpast hc hx ((htimes q).trans (if_pos rfl))
      · have hne : s.kernel.current ≠ some q := fun hc' => hq (Option.some.inj (hc'.symm.trans hc))
        have htime := (htimes q).trans (if_neg hq)
        exact charged_of_stayed h ht hn hpast (left?_of_ne hne) (.inl (htime.symm.trans hn))
  · intro p hp
    rcases heffect.stamped h.scene hp with ⟨hn, hw⟩ | ⟨hn, hc, hw⟩
    · have hd : (Turn.mk s (.exception saved) d t).dispatched? = some p :=
        (dispatched?_eq_current hn).trans hp
      rw [dispatchedAt?, if_pos hd, hw]
      rfl
    · have hd : (Turn.mk s (.exception saved) d t).dispatched? = none := dispatched?_eq_none hn
      rw [dispatchedAt?, hd, if_neg (by simp), hw]
      exact hpast.stamped p hc

theorem others {e e' : Descriptor} (hc : s.kernel.current ≠ some p)
    (he : s.kernel.table.find? p = some e) (he' : t.kernel.table.find? p = some e') :
    e'.cpuTime = e.cpuTime := by
  have hbefore : (s.scene v).cpuTimes p = some e.cpuTime := by rw [h.cpuTimes_eq, he]; rfl
  have hafter : (t.scene w).cpuTimes p = some e'.cpuTime := by rw [ht.cpuTimes_eq, he']; rfl
  cases heffect.metered h.scene with
  | spared _ htimes =>
    rcases htimes p _ hafter with htime | ⟨hnone, _⟩
    · exact Option.some.inj (htime.symm.trans hbefore)
    · cases hnone.symm.trans hbefore
  | @charged c hc' _ htimes =>
    have hne : p ≠ c := fun he => hc (he ▸ hc')
    have htime := htimes p
    rw [if_neg hne, hafter, hbefore] at htime
    exact Option.some.inj htime

theorem timed (hpast : (s.scene v).Clocked past) :
    (Turn.mk s (.exception saved) d t).Timed past := by
  have hnext := clocked h ht heffect hpast
  constructor
  · exact fun p e he => hnext.cpuTime_eq ht he
  · exact fun p e e' hc he he' => others h ht heffect hc he he'
  · exact hnext.stamped
  · intro p hc hp
    rw [isTimer_iff]
    exact left?_eq_none_iff h ht heffect hc hp
  · exact fun p hc hc' hout => unbroken h ht heffect hc hc' (isTimer_iff.not.mp hout)
  · intro saved' p hentry hs
    cases hentry
    obtain ⟨n, hn, hc, hw, hd⟩ := heffect.told_cpuTime h.scene hs
    have hbefore := hpast.stamped p (SavedState.served?_eq_some.mp hs).2
    refine ⟨hc, hw, _, hbefore, ?_⟩
    rw [UInt32.ofNat_add, Machine.ofNat_micros_stint, ← hpast.charged p n hn]
    exact hd

end

end Turn

namespace History
variable {timing : Timing} {machine : Machine} {first : SavedState} {history past : List Turn}
  {turn : Turn}
variable {s t : Computer} {v w : View}

theorem cpuTimes_boot (p q : Handle) :
    (Scene.boot timing machine p first).cpuTimes q = if q = p then some 0 else none := by
  rw [Scene.boot, Scene.cpuTimes_dispatch]
  by_cases hq : q = p <;> simp [Scene.cpuTimes, View.join, View.create, View.alter, View.empty, hq]

theorem usedTime_start (q : Handle) (d : Dispatch) :
    usedTime q [⟨.initial timing machine, .start first, d, t⟩] = 0 := by
  by_cases hb : (Turn.mk (.initial timing machine) (.start first) d t).bears q
  · exact usedTime_of_bears hb
  · exact usedTime_of_stayed hb rfl

theorem clocked_start {p : Handle} (hboot : t.scene w = .boot timing machine p first) :
    (t.scene w).Clocked [⟨.initial timing machine, .start first, .load first, t⟩] := by
  constructor
  · intro q n hn
    rw [hboot, cpuTimes_boot] at hn
    obtain ⟨-, rfl⟩ : q = p ∧ 0 = n := by simpa using hn
    rw [usedTime_start]
    rfl
  · intro q hq
    have hd := Turn.dispatched?_start (d := .load first) hboot
    have hcurrent : t.kernel.current = some p := congrArg Scene.current hboot
    obtain rfl : p = q := Option.some.inj (hcurrent.symm.trans hq)
    have hticks : t.machine.ticks = (Scene.boot timing machine p first).machine.ticks :=
      congrArg (·.machine.ticks) hboot
    rw [dispatchedAt?, if_pos hd, hticks, hboot]
    rfl

theorem clocked (h : History timing machine first history s v) : (s.scene v).Clocked history := by
  induction h with
  | start _ _ hboot => exact clocked_start hboot
  | @next past s t v w m saved d h ht hs heffect ih =>
    have hpast : ((s.onMachine m).scene v).Clocked past := ⟨ih.charged, ih.stamped⟩
    exact Turn.clocked (s := s.onMachine m) h.sound ht heffect hpast

theorem timed (h : History timing machine first (turn :: past) t w) : turn.Timed past := by
  cases h with
  | @start _ _ p ht hs hboot =>
    have hclocked := clocked_start hboot
    constructor
    · exact fun q e he => hclocked.cpuTime_eq ht he
    · intro q e e' _ he
      have hlive : (Computer.initial timing machine).kernel.table.isLive q = false :=
        isLive_initial q
      cases (congrArg Option.isSome he).symm.trans hlive
    · exact hclocked.stamped
    · exact fun q hc => nomatch hc
    · exact fun q hc => nomatch hc
    · exact fun saved q hentry => nomatch hentry
  | @next _ s _ v _ m saved d h ht hs heffect =>
    have hpast : ((s.onMachine m).scene v).Clocked past := ⟨h.clocked.charged, h.clocked.stamped⟩
    exact Turn.timed (s := s.onMachine m) h.sound ht heffect hpast

end History

/-- In a run of one start and any exceptions the time charged after every turn is the time used. -/
theorem Computer.turns_timed (timing : Timing) (machine : Machine) (first : SavedState)
    (calls : List (Machine × SavedState)) :
    ∃ turns, (initial timing machine).turns
        ((machine, .start first) :: calls.map fun call => (call.1, .exception call.2)) = .ok turns ∧
      ∀ turn past, turn :: past <:+ turns.reverse → turn.Timed past := by
  obtain ⟨turns, hrun, hhistory⟩ := turns_history timing machine first calls
  refine ⟨turns, hrun, fun turn past hsuffix => ?_⟩
  obtain ⟨_, w, hw⟩ := hhistory turn past hsuffix
  exact hw.timed

end Nucleus
