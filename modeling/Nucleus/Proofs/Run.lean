import Nucleus.Proofs.Computer.Entry

/-!
# Runs

A run is a list of entries, each on a machine of its own: between two entries the machine may become
any other. A turn is one entry of a run, with what it found and what it left. What every entry keeps
holds after every turn.
-/
namespace Nucleus

structure Turn where
  before : Computer
  entry : Entry
  dispatch : Dispatch
  after : Computer

namespace Computer
variable {s t : Computer} {v : View}

def turns (s : Computer) : List (Machine × Entry) → Except Fault (List Turn)
  | [] => return []
  | (machine, e) :: calls => do
    let (d, t) ← (s.onMachine machine).enter e
    return ⟨s.onMachine machine, e, d, t⟩ :: (← t.turns calls)

theorem turns_cons {machine : Machine} {e : Entry} {d : Dispatch} {calls : List (Machine × Entry)}
    {rest : List Turn} (he : (s.onMachine machine).enter e = .ok (d, t))
    (hr : t.turns calls = .ok rest) :
    s.turns ((machine, e) :: calls) = .ok (⟨s.onMachine machine, e, d, t⟩ :: rest) := by
  simp only [turns, he, ok_bind, hr, pure_eq_ok]

theorem turns_eq_getD {calls : List (Machine × Entry)} {turns : List Turn}
    (h : s.turns calls = .ok turns) : turns = (s.turns calls).toOption.getD [] := by
  rw [h]
  rfl

/-- What one entry keeps and achieves, every turn of a run achieves,
and the run comes to its end. -/
theorem turns_of_enter {I : Computer → Prop} {E : Entry → Prop} {Q : Turn → Prop}
    {calls : List (Machine × Entry)} (hs : I s) (hcalls : ∀ call ∈ calls, E call.2)
    (henter : ∀ s machine e, I s → E e → ∃ d t, (s.onMachine machine).enter e = .ok (d, t) ∧ I t ∧
      Q ⟨s.onMachine machine, e, d, t⟩) :
    ∃ turns, s.turns calls = .ok turns ∧ ∀ turn ∈ turns, Q turn := by
  induction calls generalizing s with
  | nil => exact ⟨[], rfl, by simp⟩
  | cons call calls ih =>
    obtain ⟨machine, e⟩ := call
    obtain ⟨d, t, he, ht, hq⟩ := henter s machine e hs (hcalls (machine, e) (by simp))
    obtain ⟨rest, hrest, hall⟩ := ih ht fun call hc => hcalls call (by simp [hc])
    exact ⟨_, turns_cons he hrest, List.forall_mem_cons.mpr ⟨hq, hall⟩⟩

/-- The same where what is kept depends on the number of entries so far. -/
theorem turns_of_count {I : Nat → Computer → Prop} {Q : Turn → Prop} {n : Nat}
    {calls : List (Machine × Entry)} (hs : I n s)
    (henter : ∀ k s machine e, k < n + calls.length → I k s → ∃ d t,
      (s.onMachine machine).enter e = .ok (d, t) ∧ I (k + 1) t ∧ Q ⟨s.onMachine machine, e, d, t⟩) :
    ∃ turns, s.turns calls = .ok turns ∧ ∀ turn ∈ turns, Q turn := by
  induction calls generalizing s n with
  | nil => exact ⟨[], rfl, by simp⟩
  | cons call calls ih =>
    obtain ⟨machine, e⟩ := call
    obtain ⟨d, t, he, ht, hq⟩ := henter n s machine e (by simp) hs
    obtain ⟨rest, hrest, hall⟩ := ih ht fun k s machine e hk =>
      henter k s machine e (by simp; omega)
    exact ⟨_, turns_cons he hrest, List.forall_mem_cons.mpr ⟨hq, hall⟩⟩

/-- The same of runs in which every entry is an exception. -/
theorem turns_of_exceptions {I : Computer → Prop} {Q : Turn → Prop} (hs : I s)
    (hexception : ∀ s machine saved, I s →
      ∃ d t, (s.onMachine machine).exception saved = .ok (d, t) ∧ I t ∧
      Q ⟨s.onMachine machine, .exception saved, d, t⟩)
    (calls : List (Machine × SavedState)) :
    ∃ turns, s.turns (calls.map fun call => (call.1, .exception call.2)) = .ok turns ∧
      ∀ turn ∈ turns, Q turn := by
  refine turns_of_enter (E := fun e => ∃ saved, e = .exception saved) hs (fun call hc => ?_)
    fun s machine e hi ⟨saved, he⟩ => he ▸ hexception s machine saved hi
  obtain ⟨⟨machine, saved⟩, _, rfl⟩ := List.mem_map.mp hc
  exact ⟨saved, rfl⟩

def after (s : Computer) (calls : List (Machine × Entry)) : Computer :=
  match s.turns calls with
  | .ok turns => (turns.getLast?.map (·.after)).getD s
  | .error _ => s

theorem Reaches.head {machine : Machine} {e : Entry} {d : Dispatch}
    (he : (s.onMachine machine).enter e = .ok (d, t)) {u : Computer} (h : Reaches t u) :
    Reaches s u := by
  induction h with
  | refl => exact .step machine e (.refl s) he
  | step machine' e' _ he' ih => exact .step machine' e' ih he'

theorem turns_cons_eq_ok {machine : Machine} {e : Entry} {calls : List (Machine × Entry)}
    {turns : List Turn} (h : s.turns ((machine, e) :: calls) = .ok turns) :
    ∃ d t rest, (s.onMachine machine).enter e = .ok (d, t) ∧ t.turns calls = .ok rest ∧
      turns = ⟨s.onMachine machine, e, d, t⟩ :: rest := by
  cases he : (s.onMachine machine).enter e with
  | error f =>
    simp only [Computer.turns, he] at h
    cases h
  | ok r =>
    obtain ⟨d, t⟩ := r
    cases hr : t.turns calls with
    | error f =>
      simp only [Computer.turns, he, ok_bind, hr] at h
      cases h
    | ok rest =>
      rw [turns_cons he hr] at h
      cases h
      exact ⟨d, t, rest, rfl, hr, rfl⟩

theorem reaches_of_turns {calls : List (Machine × Entry)} {turns : List Turn}
    (h : s.turns calls = .ok turns) : ∀ turn ∈ turns, Reaches s turn.after := by
  induction calls generalizing s turns with
  | nil =>
    cases h
    simp
  | cons call calls ih =>
    obtain ⟨machine, e⟩ := call
    obtain ⟨d, t, rest, he, hr, rfl⟩ := turns_cons_eq_ok h
    refine List.forall_mem_cons.mpr ⟨.step machine e (.refl s) he, fun turn ht => ?_⟩
    exact .head he (ih hr turn ht)

/-- Every turn finds the kernel that the turn before left. -/
theorem isChain_turns {calls : List (Machine × Entry)} {turns : List Turn}
    (h : s.turns calls = .ok turns) :
    turns.IsChain fun turn next => next.before.kernel = turn.after.kernel := by
  induction calls generalizing s turns with
  | nil =>
    cases h
    exact .nil
  | cons call calls ih =>
    obtain ⟨machine, e⟩ := call
    obtain ⟨d, t, rest, he, hr, rfl⟩ := turns_cons_eq_ok h
    have hrest := ih hr
    cases calls with
    | nil =>
      cases hr
      exact .singleton _
    | cons call calls =>
      obtain ⟨machine', e'⟩ := call
      obtain ⟨d', t', rest', _, _, rfl⟩ := turns_cons_eq_ok hr
      exact .cons_cons rfl hrest

theorem enter_of_mem_turns {calls : List (Machine × Entry)} {turns : List Turn}
    (h : s.turns calls = .ok turns) :
    ∀ turn ∈ turns, turn.before.enter turn.entry = .ok (turn.dispatch, turn.after) := by
  induction calls generalizing s turns with
  | nil =>
    cases h
    simp
  | cons call calls ih =>
    obtain ⟨machine, e⟩ := call
    obtain ⟨d, t, rest, he, hr, rfl⟩ := turns_cons_eq_ok h
    exact List.forall_mem_cons.mpr ⟨he, ih hr⟩

theorem reaches_after (s : Computer) (calls : List (Machine × Entry)) :
    Reaches s (s.after calls) := by
  unfold after
  split
  · next turns h =>
    cases hl : turns.getLast? with
    | none => exact .refl s
    | some turn => exact reaches_of_turns h turn (List.mem_of_getLast? hl)
  · exact .refl s

theorem enter_sound (h : s.kernel.Sound v) (e : Entry) :
    ∃ d t w, s.enter e = .ok (d, t) ∧ t.kernel.Sound w ∧ t.balance = s.balance := by
  have hanswers : ∀ {quiet r}, Answers s.balance quiet r →
      ∃ d t w, r = .ok (d, t) ∧ t.kernel.Sound w ∧ t.balance = s.balance :=
    fun ⟨d, t, w, hr, hw, hb, _⟩ => ⟨d, t, w, hr, hw, hb⟩
  cases e with
  | start first => exact hanswers (start_answers h first)
  | schedule => exact hanswers (schedule_answers h)
  | exception saved =>
    rcases exception_answers h saved with ⟨_, _, he⟩ | ⟨_, ha⟩
    · exact ⟨_, s, v, he, h, rfl⟩
    · exact hanswers ha

theorem sound_onMachine (h : s.kernel.Sound v) (machine : Machine) :
    (s.onMachine machine).kernel.Sound v := h

theorem reaches_sound (hr : Reaches s t) (h : s.kernel.Sound v) : ∃ w, t.kernel.Sound w := by
  induction hr with
  | refl => exact ⟨v, h⟩
  | step machine e _ he ih =>
    obtain ⟨w, hw⟩ := ih
    obtain ⟨d, u, z, hu, hz, _⟩ := enter_sound (sound_onMachine hw machine) e
    rw [he] at hu
    cases hu
    exact ⟨z, hz⟩

/-- Soundness and the balance along a run. -/
theorem turns_of_sound {Q : Computer → Prop} {b : Word} (h : s.kernel.Sound v) (hb : s.balance = b)
    (hq : ∀ t w, t.kernel.Sound w → t.balance = b → Q t) (calls : List (Machine × Entry)) :
    ∃ turns, s.turns calls = .ok turns ∧ ∀ turn ∈ turns, Q turn.after := by
  refine turns_of_enter (I := fun s => (∃ v, s.kernel.Sound v) ∧ s.balance = b) (E := fun _ => True)
    ⟨⟨v, h⟩, hb⟩ (fun _ _ => trivial) fun s machine e hs _ => ?_
  obtain ⟨⟨v, hv⟩, hb⟩ := hs
  obtain ⟨d, t, w, he, hw, hbt⟩ := enter_sound (sound_onMachine hv machine) e
  have hbt' : t.balance = b := hbt.trans hb
  exact ⟨d, t, he, ⟨⟨w, hw⟩, hbt'⟩, hq t w hw hbt'⟩

end Computer
end Nucleus
