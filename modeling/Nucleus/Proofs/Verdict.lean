import Nucleus.Proofs.Computer.Reading
import Nucleus.Proofs.Run

/-!
# What an entry decides

In a run that starts once, every process but the running one stands in a queue, and nobody is ready
while nobody runs. So the two counts decide as a look at the processes would: the machine halts when
there are none, idles when one of them waits for a device or the clock, and is stuck when all wait
for each other.
-/
namespace Nucleus

/-- What one entry answers and leaves behind, in terms of the processes that are live. -/
structure Turn.Exact (turn : Turn) : Prop where
  unqueued : ∀ d ∈ turn.after.kernel.table.live,
    d.location = .unqueued ↔ turn.after.kernel.current = some d.handle
  busy : turn.after.kernel.current = none → turn.after.kernel.readyList = .ok []
  loads : turn.dispatch.isLoad ↔ turn.after.kernel.current.isSome
  unasked : ∀ code, turn.dispatch = .panic (.noCurrentProcess code) ↔
    turn.before.kernel.current = none ∧ ∃ saved, turn.entry = .exception saved ∧
      saved.trapCode = code ∧ code ≠ 0
  unchanged : ∀ code, turn.dispatch = .panic (.noCurrentProcess code) → turn.after = turn.before
  halts : turn.after.kernel.current = none →
    (∀ code, turn.dispatch ≠ .panic (.noCurrentProcess code)) →
    (turn.dispatch = .halt ↔ turn.after.kernel.table.live = [])
  waits : turn.after.kernel.current = none →
    (∀ code, turn.dispatch ≠ .panic (.noCurrentProcess code)) →
    (turn.dispatch = .wait ↔ ∃ d ∈ turn.after.kernel.table.live, d.WaitsSoft)
  stuck : turn.after.kernel.current = none →
    (∀ code, turn.dispatch ≠ .panic (.noCurrentProcess code)) →
    ∀ n, turn.dispatch = .panic (.deadlock n) ↔ n = turn.after.kernel.table.live.length ∧
      turn.after.kernel.table.live ≠ [] ∧ ∀ d ∈ turn.after.kernel.table.live, d.WaitsOrdinary

namespace Kernel
variable {k : Kernel} {v : View} {d : Descriptor} {p : Handle}

theorem unqueued_iff (h : k.Sound v) (ha : k.Attended v) (hd : d ∈ k.table.live) :
    d.location = .unqueued ↔ k.current = some d.handle := by
  have hl : d.location = .unqueued ↔ v.Loose d.handle := by
    rw [h.loose_iff, h.mem_live_iff.mp hd]
    simp
  exact hl.trans ⟨ha d.handle, h.running d.handle⟩

theorem Settled.blocked (hs : k.Settled v) (h : k.Sound v) (hc : k.current = none)
    (hd : d ∈ k.table.live) : d.location = .blocked := by
  have hf := h.mem_live_iff.mp hd
  cases hl : d.location with
  | free => exact (Table.location_of_find? hf hl).elim
  | unqueued =>
    have hr := (unqueued_iff h hs.attended hd).mp hl
    rw [hc] at hr
    cases hr
  | ready =>
    have hm := h.mem_ready_iff.mpr ⟨d, hf, hl⟩
    rw [hs.busy hc] at hm
    cases hm
  | blocked => rfl

theorem Settled.waitsOrdinary_iff (hs : k.Settled v) (h : k.Sound v) (hc : k.current = none)
    (hd : d ∈ k.table.live) : d.WaitsOrdinary ↔ ¬d.WaitsSoft := by
  have hl := hs.blocked h hc hd
  obtain ⟨key, hk, _⟩ := h.blocked (h.mem_live_iff.mp hd) hl
  exact Descriptor.waitsOrdinary_iff hl hk

theorem softBlockCount_pos_iff (h : k.Sound v) :
    0 < k.softBlockCount ↔ ∃ d ∈ k.table.live, d.WaitsSoft := by
  simp [h.softBlocked_eq, List.countP_pos_iff]

theorem verdict_eq_halt_iff (h : k.Sound v) : k.verdict = .halt ↔ k.table.live = [] := by
  rw [← List.length_eq_zero_iff, ← h.length_live, verdict]
  split
  · next hz => simp [hz]
  · next hz => split <;> simp [hz]

theorem verdict_eq_wait_iff (h : k.Sound v) :
    k.verdict = .wait ↔ ∃ d ∈ k.table.live, d.WaitsSoft := by
  rw [← softBlockCount_pos_iff h, verdict]
  split
  · next hz =>
    have hle : k.softBlockCount ≤ k.processCount := by
      rw [h.softBlocked_eq, h.length_live]
      exact List.countP_le_length
    simp only [reduceCtorEq, false_iff]
    omega
  · split
    · next hs => simp [hs]
    · next hs => simp [hs]

theorem Settled.verdict_eq_deadlock_iff (hs : k.Settled v) (h : k.Sound v) (hc : k.current = none)
    (n : Nat) : k.verdict = .panic (.deadlock n) ↔
      n = k.table.live.length ∧ k.table.live ≠ [] ∧ ∀ d ∈ k.table.live, d.WaitsOrdinary := by
  have hall : (∀ d ∈ k.table.live, d.WaitsOrdinary) ↔ ¬0 < k.softBlockCount := by
    rw [softBlockCount_pos_iff h]
    push Not
    exact forall₂_congr fun d hd => hs.waitsOrdinary_iff h hc hd
  rw [hall, ne_eq, ← List.length_eq_zero_iff, ← h.length_live, verdict]
  split
  · next hz => simp [hz]
  · next hz =>
    split
    · next hp => simp [hp]
    · next hp => simp [hz, hp, eq_comm]

theorem verdict_ne_unasked (code : Word) : k.verdict ≠ .panic (.noCurrentProcess code) := by
  unfold verdict
  split
  · simp
  · split <;> simp

theorem isLoad_verdict : k.verdict.isLoad = false := by
  unfold verdict
  split
  · rfl
  · split <;> rfl

end Kernel

namespace Turn
variable {turn : Turn} {v : View}

theorem exact_of_fits (h : turn.after.kernel.Sound v) (hs : turn.after.kernel.Settled v)
    (hf : turn.dispatch.Fits turn.after.kernel)
    (hn : ∀ saved, turn.entry = .exception saved → turn.before.kernel.current = none →
      saved.trapCode = 0) : turn.Exact := by
  have hunasked : ∀ code, turn.dispatch ≠ .panic (.noCurrentProcess code) := by
    intro code hd
    unfold Dispatch.Fits at hf
    split at hf
    · rw [hd] at hf
      cases hf
    · exact Kernel.verdict_ne_unasked code (hf.symm.trans hd)
  have hverdict : turn.after.kernel.current = none → turn.dispatch = turn.after.kernel.verdict := by
    intro hc
    simpa [Dispatch.Fits, hc] using hf
  refine ⟨fun d hd => Kernel.unqueued_iff h hs.attended hd, fun hc => ?_, ?_, fun code => ?_,
    fun code hd => (hunasked code hd).elim, fun hc _ => ?_, fun hc _ => ?_, fun hc _ n => ?_⟩
  · rw [h.readyList_eq, hs.busy hc]
  · cases hc : turn.after.kernel.current with
    | none => simp [hverdict hc, Kernel.isLoad_verdict]
    | some p => simpa [Dispatch.Fits, hc] using hf
  · refine iff_of_false (hunasked code) ?_
    rintro ⟨hc, saved, he, rfl, hz⟩
    exact hz (hn saved he hc)
  · rw [hverdict hc]
    exact Kernel.verdict_eq_halt_iff h
  · rw [hverdict hc]
    exact Kernel.verdict_eq_wait_iff h
  · rw [hverdict hc]
    exact hs.verdict_eq_deadlock_iff h hc n

/-- An exception that nobody can have caused. -/
theorem exact_of_unasked {s : Computer} {saved : SavedState} (h : s.kernel.Sound v)
    (hs : s.kernel.Settled v) (hc : s.kernel.current = none) (hz : saved.trapCode ≠ 0) :
    Exact ⟨s, .exception saved, .panic (.noCurrentProcess saved.trapCode), s⟩ where
  unqueued _ hd := Kernel.unqueued_iff h hs.attended hd
  busy hc := by rw [h.readyList_eq, hs.busy hc]
  loads := by simp [Dispatch.isLoad, hc]
  unasked code := by
    constructor
    · intro hd
      cases hd
      exact ⟨hc, saved, rfl, rfl, hz⟩
    · rintro ⟨_, saved', he, rfl, _⟩
      cases he
      rfl
  unchanged _ _ := rfl
  halts _ hn := (hn _ rfl).elim
  waits _ hn := (hn _ rfl).elim
  stuck _ hn := (hn _ rfl).elim

end Turn

namespace Computer
variable {s : Computer} {v : View}

theorem exception_exact (h : s.kernel.Sound v) (hs : s.kernel.Settled v) (saved : SavedState) :
    ∃ d t, s.exception saved = .ok (d, t) ∧ (∃ w, t.kernel.Sound w ∧ t.kernel.Settled w) ∧
      Turn.Exact ⟨s, .exception saved, d, t⟩ := by
  rcases exception_answers h saved with ⟨hc, hz, he⟩ | ⟨hn, d, t, w, he, hw, _, hf, hsettled⟩
  · exact ⟨_, s, he, ⟨v, h, hs⟩, Turn.exact_of_unasked h hs hc hz⟩
  · have hws := hsettled hs.attended
    refine ⟨d, t, he, ⟨w, hw, hws⟩, Turn.exact_of_fits hw hws hf fun saved' hsaved => ?_⟩
    cases hsaved
    exact hn

theorem start_exact (h : s.kernel.Sound v) (hl : ∀ p, ¬v.Loose p) (first : SavedState) :
    ∃ d t, s.start first = .ok (d, t) ∧ (∃ w, t.kernel.Sound w ∧ t.kernel.Settled w) ∧
      Turn.Exact ⟨s, .start first, d, t⟩ := by
  obtain ⟨d, t, w, he, hw, _, hf, hsettled⟩ := start_answers h first
  have hws := hsettled hl
  refine ⟨d, t, he, ⟨w, hw, hws⟩, Turn.exact_of_fits hw hws hf fun saved hsaved => ?_⟩
  cases hsaved

/-- In a run of one start and any exceptions, every entry decides exactly. -/
theorem turns_exact (timing : Timing) (machine : Machine) (first : SavedState)
    (calls : List (Machine × SavedState)) :
    ∃ turns, (initial timing machine).turns
        ((machine, .start first) :: calls.map fun call => (call.1, .exception call.2)) = .ok turns ∧
      ∀ turn ∈ turns, turn.Exact := by
  have h := Kernel.sound_initial timing
  obtain ⟨d, t, hst, ht, hexact⟩ := start_exact (s := initial timing machine) h
    (fun p ⟨_, hx, _⟩ => by cases hx) first
  have hcalls : ∀ call ∈ calls.map fun call => (call.1, Entry.exception call.2),
      ∃ saved, call.2 = .exception saved := by
    intro call hc
    obtain ⟨⟨machine, saved⟩, _, rfl⟩ := List.mem_map.mp hc
    exact ⟨saved, rfl⟩
  obtain ⟨rest, hrest, hall⟩ := turns_of_enter
    (I := fun s => ∃ v, s.kernel.Sound v ∧ s.kernel.Settled v)
    (E := fun e => ∃ saved, e = .exception saved) (Q := Turn.Exact) ht hcalls
    fun s machine e ⟨v, hv, hs⟩ ⟨saved, he⟩ => he ▸
      exception_exact (s := s.onMachine machine) hv hs saved
  exact ⟨_, turns_cons hst hrest, List.forall_mem_cons.mpr ⟨hexact, hall⟩⟩

end Computer
end Nucleus
