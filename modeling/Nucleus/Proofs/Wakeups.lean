import Nucleus.Proofs.Computer.Leaving
import Nucleus.Proofs.History

/-!
# Why a process wakes

A process that has waited on a semaphore and lives on without waiting there is ready or runs, and it
was woken for one reason: the semaphore was given the unit it owed, or its device reported a
completion, and the process was the first to wait there; or the clock ticked. No other exception
frees anybody.
-/
namespace Nucleus

/-- What can wake a process: a request, a completion on a channel with its status, or the clock. -/
inductive Waker
  | signal (caller : Handle)
  | completion (c : Channel) (status : Word)
  | tick

namespace Turn

/-- Does `p` wait on the semaphore before this turn, and live on without waiting there? -/
def frees (turn : Turn) (key : SemKey) (p : Handle) : Bool :=
  turn.before.kernel.table.waitsOn key p && turn.after.kernel.table.isLive p &&
    !turn.after.kernel.table.waitsOn key p

/-- Nobody waits on the semaphore for longer than `p`. -/
def IsFirst (turn : Turn) (key : SemKey) (p : Handle) : Prop :=
  turn.before.kernel.store.firstWaiter key = .ok (some p)

/-- Why `p`, which has waited on the semaphore `key`, is woken. -/
def WokenBy (turn : Turn) (key : SemKey) (p : Handle) : Waker → Prop
  | .signal caller => (∀ c : Channel, key ≠ c.key) ∧ turn.served? = some (caller, .verhogen key) ∧
      turn.before.cells.value key + 1 ≤ 0 ∧ turn.IsFirst key p ∧ ∀ k q, turn.frees k q → q = p
  | .completion c status =>
      c ≠ .clock ∧ key = c.key ∧ (c, status) ∈ turn.completions ∧ turn.IsFirst key p
  | .tick => key = Channel.clock.key ∧ ∃ saved, turn.entry = .exception saved ∧ saved.matter = .tick

def Awake (turn : Turn) (p : Handle) : Prop :=
  turn.after.kernel.current = some p ∨
    ∃ e, turn.after.kernel.table.find? p = some e ∧ e.location = .ready

variable {turn : Turn} {key : SemKey} {p : Handle} {a b : Waker}

theorem WokenBy.unique (ha : turn.WokenBy key p a) (hb : turn.WokenBy key p b) : a = b := by
  cases a with
  | signal caller =>
    obtain ⟨hkey, hserved, _⟩ := ha
    cases b with
    | signal caller' =>
      have hpair := Option.some.inj (hserved.symm.trans hb.2.1)
      exact congrArg Waker.signal (congrArg Prod.fst hpair)
    | completion c => exact (hkey c hb.2.1).elim
    | tick => exact (hkey .clock hb.1).elim
  | completion c status =>
    obtain ⟨hc, rfl, hmem, _⟩ := ha
    cases b with
    | signal => exact (hb.1 c rfl).elim
    | completion c' status' =>
      obtain ⟨_, hkey, hmem', _⟩ := hb
      obtain rfl := Channel.key_inj hkey
      have hpair := List.inj_on_of_nodup_map turn.nodup_completions hmem hmem' rfl
      exact congrArg (Waker.completion c) (congrArg Prod.snd hpair)
    | tick => exact (hc (Channel.key_inj hb.1)).elim
  | tick =>
    obtain ⟨rfl, _⟩ := ha
    cases b with
    | signal => exact (hb.1 .clock rfl).elim
    | completion c => exact (hb.1 (Channel.key_inj hb.2.1).symm).elim
    | tick => rfl

section
variable {s t : Computer} {v w : View} {saved : SavedState} {d : Dispatch}

theorem isFirst_of_woken? (h : s.kernel.Sound v) (hwoken : (s.scene v).woken? key = some p) :
    (Turn.mk s (.exception saved) d t).IsFirst key p := by
  obtain ⟨_, rest, hq⟩ := Scene.woken?_eq_some hwoken
  have hfirst := h.arranged.firstWaiter_eq key
  have hqueue : v.queue (.semaphore key) = p :: rest := hq
  rwa [hqueue] at hfirst

theorem frees_iff (h : s.kernel.Sound v) (ht : t.kernel.Sound w) :
    (Turn.mk s (.exception saved) d t).frees key p ↔ p ∈ (s.scene v).waiters key ∧
      (t.scene w).state? p ≠ none ∧ p ∉ (t.scene w).waiters key := by
  unfold frees
  rw [Bool.and_eq_true, Bool.and_eq_true, Bool.not_eq_true', ← Bool.not_eq_true, h.waitsOn_iff_mem,
    ht.waitsOn_iff_mem, ht.isLive_scene, ← Option.ne_none_iff_isSome, and_assoc]
  rfl

theorem wokenBy_of_frees (h : s.kernel.Sound v) (ht : t.kernel.Sound w)
    (heffect : (s.scene v).Effect saved d (t.scene w))
    (hfrees : (Turn.mk s (.exception saved) d t).frees key p) :
    (Turn.mk s (.exception saved) d t).Awake p ∧
      ∃ waker, (Turn.mk s (.exception saved) d t).WokenBy key p waker := by
  obtain ⟨hq, hlive, hleft⟩ := (frees_iff h ht).mp hfrees
  obtain ⟨hline, hwhy⟩ := heffect.leaves h.scene hq hlive hleft
  constructor
  · rcases List.mem_append.mp hline with hcurrent | hready
    · exact .inl (Option.mem_toList.mp hcurrent)
    · exact .inr (ht.mem_ready_iff.mp hready)
  · rcases hwhy with ⟨caller, hserved, hsignals⟩ | ⟨c, status, hc, hkey, hwoken⟩ | ⟨hm, hkey⟩
    · have hfirst : (Turn.mk s (.exception saved) d t).IsFirst key p :=
        isFirst_of_woken? h hsignals.woken
      refine ⟨.signal caller, fun c hc => ?_, hserved, ?_, hfirst, fun k q hf => ?_⟩
      · have hform := SavedState.isWellFormed_of_served? hserved
        simp [hc, Request.isWellFormed, Request.isUserKey] at hform
      · exact (Scene.woken?_eq_some hsignals.woken).1
      · obtain ⟨hwait, _, hgone⟩ := (frees_iff h ht).mp hf
        by_contra hne
        exact hgone (hsignals.others k q hwait hne)
    · exact ⟨.completion c status, SavedState.ne_clock_of_mem_completions hc, hkey, hc,
        isFirst_of_woken? h hwoken⟩
    · exact ⟨.tick, hkey, saved, rfl, hm⟩

end

end Turn

namespace Computer

/-- No exception wakes anybody for nothing, whatever state a run has left
and whatever machine it finds. -/
theorem exception_wakes_of_reaches {timing : Timing} {machine : Machine} {u : Computer}
    (hu : Reaches (initial timing machine) u) (m : Machine) (saved : SavedState) :
    ∃ d t, (u.onMachine m).exception saved = .ok (d, t) ∧
      ∀ key p, (Turn.mk (u.onMachine m) (.exception saved) d t).frees key p →
        (Turn.mk (u.onMachine m) (.exception saved) d t).Awake p ∧
          ∃! waker, (Turn.mk (u.onMachine m) (.exception saved) d t).WokenBy key p waker := by
  obtain ⟨v, hv⟩ := reaches_sound hu (Kernel.sound_initial timing)
  have hs : (u.onMachine m).kernel.Sound v := hv
  obtain ⟨d, t, w, he, ht, heffect⟩ := exception_effect_of_sound hs saved
  refine ⟨d, t, he, fun key p hfrees => ?_⟩
  obtain ⟨hawake, waker, hwaker⟩ := Turn.wokenBy_of_frees hs ht heffect hfrees
  exact ⟨hawake, waker, hwaker, fun _ hother => hother.unique hwaker⟩

/-- The older child gives the unit that its parent waits for. -/
theorem exception_wakes_smallFamily : ∃ d t, smallFamily.exception (asking 4 0x3000) = .ok (d, t) ∧
      (Turn.mk smallFamily (.exception (asking 4 0x3000)) d t).frees ⟨0x3000⟩ ⟨0, 1⟩ ∧
      (Turn.mk smallFamily (.exception (asking 4 0x3000)) d t).Awake ⟨0, 1⟩ ∧
      ∃! waker, (Turn.mk smallFamily (.exception (asking 4 0x3000)) d t).WokenBy
        ⟨0x3000⟩ ⟨0, 1⟩ waker := by
  have hreaches : Reaches (initial {} .initial) smallFamily := reaches_after _ _
  obtain ⟨d, t, he, hwakes⟩ :=
    exception_wakes_of_reaches hreaches smallFamily.machine (asking 4 0x3000)
  have he' : smallFamily.exception (asking 4 0x3000) = .ok (d, t) := he
  have hfrees : (smallFamily.exception (asking 4 0x3000)).toOption.all
      fun r => (Turn.mk smallFamily (.exception (asking 4 0x3000)) r.1 r.2).frees
        ⟨0x3000⟩ ⟨0, 1⟩ := by
    decide +kernel
  rw [he'] at hfrees
  exact ⟨d, t, he', hfrees, hwakes _ _ hfrees⟩

end Computer

end Nucleus
