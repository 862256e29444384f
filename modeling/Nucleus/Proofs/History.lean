import Mathlib.Algebra.GroupWithZero.Nat
import Nucleus.Proofs.Computer.Effect
import Nucleus.Proofs.Computer.Passage
import Nucleus.Proofs.Ending

/-!
# Histories

A history lists the turns of a run so far, the latest first. In a history of one start and any
exceptions every turn has its effect on the scene that the turn before left, on whatever machine it
found. So a semaphore keeps its account along the history: its integer and its queue are what the
units taken, given and lost make them.
-/
namespace Nucleus

/-- The live processes that wait on a semaphore. -/
def Table.blockedOn (t : Table) (key : SemKey) : List Handle :=
  (t.live.map (·.handle)).filter (t.waitsOn key)

namespace Turn

def served? (turn : Turn) : Option (Handle × Request) :=
  match turn.entry with
  | .exception saved => saved.served? turn.before.kernel.current
  | .start _ | .schedule => none

def completions (turn : Turn) : List (Channel × Word) :=
  match turn.entry with
  | .exception saved => saved.completions turn.before.machine
  | .start _ | .schedule => []

def slot? (turn : Turn) : Option Word :=
  match turn.entry with
  | .exception saved =>
    match saved.matter, turn.before.kernel.current with
    | .passUp c _, some p =>
      ((turn.before.kernel.table.find? p).bind (·.support)).map (·.stateAddress c)
    | _, _ => none
  | .start _ | .schedule => none

def serves (turn : Turn) (kind : Request → Bool) : Bool := turn.served?.any (kind ·.2)

def taken (turn : Turn) (key : SemKey) : Nat := if turn.serves (·.taken? = some key) then 1 else 0

def given (turn : Turn) (key : SemKey) : Nat :=
  (if turn.serves (·.given? = some key) then 1 else 0) + turn.completions.countP (·.1.key = key)

/-- How many processes end while they wait on a semaphore. -/
def lost (turn : Turn) (key : SemKey) : Nat :=
  (turn.before.kernel.table.blockedOn key).countP fun p => !turn.after.kernel.table.isLive p

end Turn

theorem SavedState.isWellFormed_of_served? {saved : SavedState} {current : Option Handle}
    {p : Handle} {r : Request} (h : saved.served? current = some (p, r)) : r.isWellFormed :=
  (matter_eq_request (served?_eq_some.mp h).1).2.2.2

namespace Turn
variable {turn : Turn} {history : List Turn} {p : Handle} {r : Request}

theorem isWellFormed_of_served? (h : turn.served? = some (p, r)) : r.isWellFormed := by
  unfold served? at h
  split at h
  · exact SavedState.isWellFormed_of_served? h
  all_goals cases h

theorem nodup_completions (turn : Turn) : (turn.completions.map (·.1)).Nodup := by
  unfold completions
  split
  · exact SavedState.nodup_completions
  all_goals exact List.nodup_nil

theorem serves_congr {kind kind' : Request → Bool} (h : ∀ r, r.isWellFormed → kind r = kind' r) :
    turn.serves kind = turn.serves kind' := by
  unfold serves
  cases hs : turn.served? with
  | none => rfl
  | some pr => exact h pr.2 (isWellFormed_of_served? (p := pr.1) hs)

theorem sum_map_eq_countP {f : Turn → Nat} {b : Turn → Bool}
    (h : ∀ turn, f turn = if b turn then 1 else 0) : (history.map f).sum = history.countP b := by
  induction history with
  | nil => rfl
  | cons turn history ih =>
    rw [List.map_cons, List.sum_cons, ih, h, List.countP_cons, Nat.add_comm]

end Turn

/-- Nobody but the nucleus writes the word, and no state is passed up there. -/
structure Unshared (a : Word) (history : List Turn) : Prop where
  kept : history.IsChain fun later earlier => later.before.machine.read a =
    earlier.after.machine.read a
  spared : ∀ turn ∈ history, ∀ base, turn.slot? = some base → ∀ i < stateWords, a ≠ wordAt base i

theorem Unshared.of_suffix {a : Word} {history past : List Turn} (h : Unshared a history)
    (hs : past <:+ history) : Unshared a past :=
  ⟨h.kept.suffix hs, fun turn ht => h.spared turn (hs.subset ht)⟩

namespace Kernel.Sound
variable {k : Kernel} {v : View} {p : Handle} {key : SemKey}

theorem waitsOn_iff_mem (h : k.Sound v) : k.table.waitsOn key p ↔ p ∈ v.queue (.semaphore key) := by
  rw [h.waitsOn_iff, h.arranged.wf.mem_queue]

theorem mem_blockedOn (h : k.Sound v) :
    p ∈ k.table.blockedOn key ↔ p ∈ v.queue (.semaphore key) := by
  rw [Table.blockedOn, List.mem_filter, h.waitsOn_iff_mem, and_iff_right_iff_imp]
  intro hp
  obtain ⟨d, hd, _⟩ := h.mem_semaphore_iff.mp hp
  exact List.mem_map.mpr ⟨d, Table.mem_live_of_find? hd, (Table.find?_eq_some_iff.mp hd).2.2.1⟩

theorem blockedOn_perm (h : k.Sound v) (key : SemKey) :
    (k.table.blockedOn key).Perm (v.queue (.semaphore key)) := by
  refine (List.perm_ext_iff_of_nodup ?_ (h.arranged.shows.nodup_queue _)).mpr fun p =>
    h.mem_blockedOn
  exact h.registers.pool.nodup_live.filter _

theorem length_blockedOn_le (h : k.Sound v) (key : SemKey) :
    (k.table.blockedOn key).length ≤ maxProcesses := by
  have hfilter := List.length_filter_le (k.table.waitsOn key) (k.table.live.map (·.handle))
  have hlive := h.length_live
  have hcount := h.processes
  rw [List.length_map] at hfilter
  rw [Table.blockedOn]
  omega

theorem state_eq (h : k.Sound v) (p : Handle) :
    (v.process p).map (·.state) = (k.table.find? p).map (·.state) := by
  rw [← h.registers.process p, Option.map_map]
  rfl

theorem isLive_eq (h : k.Sound v) (p : Handle) : k.table.isLive p = (v.process p).isSome := by
  rw [← h.registers.process p, Option.isSome_map]
  rfl

end Kernel.Sound

theorem Kernel.Sound.scene {s : Computer} {v : View} (h : s.kernel.Sound v) : (s.scene v).Sound :=
  ⟨h.arranged.wf, h.arranged.shows.nodup_queue, h.running⟩

theorem Kernel.Sound.isLive_scene {s : Computer} {v : View} (h : s.kernel.Sound v) (p : Handle) :
    s.kernel.table.isLive p = ((s.scene v).state? p).isSome := by
  rw [h.isLive_eq, Scene.state?, Option.isSome_map]
  rfl

theorem Computer.semaphore_channel (s : Computer) (v : View) (c : Channel) :
    (s.scene v).semaphore c.key = ⟨s.kernel.channels.get c, v.queue (.semaphore c.key)⟩ := by
  rw [Scene.semaphore, Scene.value_channel]
  rfl

/-- The turns of a run of one start and some exceptions, the latest first, with what they leave. -/
inductive History (timing : Timing) (machine : Machine) (first : SavedState) :
    List Turn → Computer → View → Prop
  | start {t : Computer} {w : View} {p : Handle} (ht : t.kernel.Sound w) (hs : t.kernel.Settled w)
      (hboot : t.scene w = .boot timing machine p first) :
      History timing machine first [⟨.initial timing machine, .start first, .load first, t⟩] t w
  | next {past : List Turn} {s t : Computer} {v w : View} {m : Machine}
      {saved : SavedState} {d : Dispatch} (h : History timing machine first past s v)
      (ht : t.kernel.Sound w) (hs : t.kernel.Settled w)
      (heffect : ((s.onMachine m).scene v).Effect saved d (t.scene w)) :
      History timing machine first (⟨s.onMachine m, .exception saved, d, t⟩ :: past) t w

namespace History
variable {timing : Timing} {machine : Machine} {first : SavedState} {history past : List Turn}
  {turn : Turn}
variable {s t : Computer} {v w : View} {key : SemKey}

theorem sound (h : History timing machine first history s v) : s.kernel.Sound v := by
  cases h <;> assumption

theorem sceneSound (h : History timing machine first history s v) (m : Machine) :
    ((s.onMachine m).scene v).Sound :=
  Kernel.Sound.scene (s := s.onMachine m) h.sound

theorem settled (h : History timing machine first history s v) : s.kernel.Settled v := by
  cases h <;> assumption

theorem tail (h : History timing machine first (turn :: past) s v) :
    past = [] ∨ ∃ t w, History timing machine first past t w := by
  cases h with
  | start => exact .inl rfl
  | next h => exact .inr ⟨_, _, h⟩

theorem last (h : History timing machine first (turn :: past) s v) : s = turn.after := by
  cases h <;> rfl

theorem exists_last (h : History timing machine first history s v) :
    ∃ turn past, history = turn :: past ∧ s = turn.after := by
  cases h <;> exact ⟨_, _, rfl, rfl⟩

theorem of_suffix (h : History timing machine first history s v) (hs : turn :: past <:+ history) :
    ∃ w, History timing machine first (turn :: past) turn.after w := by
  induction history generalizing s v with
  | nil => exact (List.cons_ne_nil _ _ (List.suffix_nil.mp hs)).elim
  | cons latest history ih =>
    rcases List.suffix_cons_iff.mp hs with he | hs
    · cases he
      exact ⟨v, h.last ▸ h⟩
    · rcases h.tail with rfl | ⟨t, w, h⟩
      · exact (List.cons_ne_nil _ _ (List.suffix_nil.mp hs)).elim
      · exact ih h hs

theorem extend (h : History timing machine first history s v)
    (calls : List (Machine × SavedState)) :
    ∃ turns t w, s.turns (calls.map fun call => (call.1, .exception call.2)) = .ok turns ∧
      turns.length = calls.length ∧
      History timing machine first (turns.reverse ++ history) t w := by
  induction calls generalizing history s v with
  | nil => exact ⟨[], s, v, rfl, rfl, h⟩
  | cons call calls ih =>
    obtain ⟨m, saved⟩ := call
    obtain ⟨d, t, w, he, ht, hs, heffect⟩ :=
      Computer.exception_effect (s := s.onMachine m) (v := v) h.sound h.settled saved
    obtain ⟨turns, u, z, hrun, hlength, hz⟩ := ih (.next h ht hs heffect)
    refine ⟨_, u, z, Computer.turns_cons he hrun, ?_, ?_⟩
    · rw [List.length_cons, List.length_cons, hlength]
    · rw [List.reverse_cons, List.append_assoc]
      exact hz

end History

/-- A run of one start and any exceptions comes to its end, and its turns so far are a history at
any time. -/
theorem Computer.turns_history (timing : Timing) (machine : Machine) (first : SavedState)
    (calls : List (Machine × SavedState)) : ∃ turns, (initial timing machine).turns
        ((machine, .start first) :: calls.map fun call => (call.1, .exception call.2)) = .ok turns ∧
      ∀ turn past, turn :: past <:+ turns.reverse →
        past.length ≤ calls.length ∧ ∃ w,
          History timing machine first (turn :: past) turn.after w := by
  obtain ⟨t, w, p, he, ht, hs, hboot⟩ := start_effect timing machine first
  obtain ⟨turns, u, z, hrun, hlength, hz⟩ := (History.start ht hs hboot).extend calls
  have hstart : ((initial timing machine).onMachine machine).enter (.start first) =
      .ok (.load first, t) := he
  refine ⟨_, turns_cons hstart hrun, fun turn past hsuffix => ?_⟩
  rw [List.reverse_cons] at hsuffix
  have hle := hsuffix.length_le
  rw [List.length_append, List.length_reverse, hlength, List.length_cons,
    List.length_singleton] at hle
  exact ⟨Nat.le_of_succ_le_succ hle, hz.of_suffix hsuffix⟩

namespace History
variable {timing : Timing} {machine : Machine} {first : SavedState} {history past : List Turn}
  {turn : Turn}
variable {s t : Computer} {v w : View} {key : SemKey}

theorem waiters_boot (p : Handle) : (Scene.boot timing machine p first).waiters key = [] := by
  simp [Scene.boot, Scene.waiters, Scene.dispatch, View.leave, View.join, View.create,
    View.alter, View.empty]

theorem semaphore_boot (hk : key.IsQuiet) (p : Handle) :
    (Scene.boot timing machine p first).semaphore key =
    ⟨NucleusCells.value ⟨.replicate channelCount 0, machine⟩ key, []⟩ := by
  have hvalue : (Scene.boot timing machine p first).value key =
      (Scene.boot timing machine p first |>.onMachine machine).value key := by
    refine (Scene.value_machine_of_outside hk.isOutside fun a ha => ?_).symm
    exact (Machine.read_loadIntervalTimer ha).symm
  rw [Scene.semaphore, waiters_boot, hvalue]
  rfl

theorem slot?_eq (h : s.kernel.Sound v) (saved : SavedState) (d : Dispatch) (t : Computer) :
    (Turn.mk s (.exception saved) d t).slot? = (s.scene v).slot? saved := by
  have hcurrent : (s.scene v).current = s.kernel.current := rfl
  have hprocess : (s.scene v).view.process = v.process := rfl
  unfold Turn.slot? Scene.slot?
  rw [hcurrent, hprocess]
  cases hm : saved.matter with
  | passUp c state =>
    cases hc : s.kernel.current with
    | none => simp only [hm]
    | some p =>
      simp only [hm, ← h.registers.process p, Option.bind_map]
      rfl
  | spurious | sliceEnd | tick | devices | request => simp only [hm]

theorem lost_eq (h : s.kernel.Sound v) (ht : t.kernel.Sound w) (e : Entry) (d : Dispatch)
    (key : SemKey) : (Turn.mk s e d t).lost key = (s.scene v).lost (t.scene w) key := by
  rw [Turn.lost, (h.blockedOn_perm key).countP_eq, Scene.lost]
  refine List.countP_congr fun p _ => ?_
  rw [ht.isLive_scene]
  simp

theorem lost_start (t : Computer) (d : Dispatch) :
    (Turn.mk (.initial timing machine) (.start first) d t).lost key = 0 := by
  have hperm := (Kernel.sound_initial timing).blockedOn_perm key
  exact (hperm.countP_eq _).trans rfl

/-- As few processes as there are cannot take a semaphore below the least integer. -/
theorem neg_lt_value (h : s.kernel.Sound v) {start : Int} {taken given lost : Nat}
    (hstart : 0 ≤ start)
    (ha : Semaphore.Account (Channel.slot? key).isNone start taken given lost
      ((s.scene v).semaphore key)) (hlow : Channel.slot? key = none ∨ taken < 2147483648) :
    -2147483648 < ((s.scene v).semaphore key).value.toInt := by
  cases hs : Channel.slot? key with
  | none =>
    rw [hs] at ha
    have hneg := ha.neg_le_length
    have hlength := (h.blockedOn_perm key).length_eq
    have hmax := h.length_blockedOn_le key
    have hwaiters : ((s.scene v).semaphore key).waiters = v.queue (.semaphore key) := rfl
    rw [hwaiters, ← hlength] at hneg
    simp only [maxProcesses] at hmax
    omega
  | some c =>
    rw [hs] at ha hlow
    have hneg := ha.neg_le_taken hstart
    have htaken := hlow.resolve_left (by simp)
    omega

/-- A semaphore that only the nucleus touches keeps its account. -/
theorem account (h : History timing machine first history s v) (hk : key.IsQuiet) {start : Int}
    (hstart : 0 ≤ start)
    (hvalue : (NucleusCells.value ⟨.replicate channelCount 0, machine⟩ key).toInt = start)
    (hunshared : Channel.slot? key = none → Unshared key.address history)
    (hlow : Channel.slot? key = none ∨ (history.map (·.taken key)).sum ≤ 2147483648)
    (hhigh : start + (history.map (·.given key)).sum < 2147483648) :
    Semaphore.Account (Channel.slot? key).isNone start (history.map (·.taken key)).sum
      (history.map (·.given key)).sum (history.map (·.lost key)).sum
        ((s.scene v).semaphore key) := by
  induction h with
  | start ht hs hboot =>
    rw [hboot, semaphore_boot hk]
    simp only [List.map_cons, List.map_nil, List.sum_cons, List.sum_nil, lost_start]
    refine ⟨?_, ?_, ?_, ?_⟩
    · simpa [Turn.taken, Turn.given, Turn.serves, Turn.served?, Turn.completions] using hvalue
    · simp
    · simp [hvalue, hstart]
    · simp
  | @next past s t v w m saved d h ht hs heffect ih =>
    have hσ : (s.onMachine m).kernel.Sound v := h.sound
    simp only [List.map_cons, List.sum_cons] at hlow hhigh ⊢
    have ha := ih (fun hn => (hunshared hn).of_suffix (List.suffix_cons _ _))
      (hlow.imp_right fun _ => by omega) (by omega)
    have hsame : ((s.onMachine m).scene v).semaphore key = (s.scene v).semaphore key := by
      refine congrArg (Semaphore.mk · _) (Scene.value_machine (σ := s.scene v) fun hn => ?_)
      obtain ⟨latest, rest, rfl, rfl⟩ := h.exists_last
      exact (hunshared hn).kept.rel
    have hslot : Channel.slot? key = none →
      ∀ base, ((s.onMachine m).scene v).slot? saved = some base →
        ∀ i < stateWords, key.address ≠ wordAt base i := by
      intro hn base hb
      exact (hunshared hn).spared _ (by simp) base ((slot?_eq hσ saved d t).trans hb)
    have hstep := heffect.step hσ.scene hk hslot
    have hlost := lost_eq hσ ht (.exception saved) d key
    rw [hsame, ← hlost] at hstep
    have htaken : ((s.onMachine m).scene v).taken saved key =
      (Turn.mk (s.onMachine m) (.exception saved) d t).taken key := rfl
    have hgiven : ((s.onMachine m).scene v).given saved key =
      (Turn.mk (s.onMachine m) (.exception saved) d t).given key := rfl
    rw [htaken, hgiven] at hstep
    have hcount : (Turn.mk (s.onMachine m) (.exception saved) d t).lost key ≤
        ((s.scene v).semaphore key).waiters.length := by
      rw [hlost]
      exact List.countP_le_length
    have hbound := ha.value_add_le hcount
    have hroom := ha.step hstep ?_ (by omega)
    · rwa [Nat.add_comm _ (List.sum _), Nat.add_comm _ (List.sum _), Nat.add_comm _ (List.sum _)]
    · by_cases ht : (Turn.mk (s.onMachine m) (.exception saved) d t).taken key = 0
      · exact .inl ht
      · exact .inr (neg_lt_value h.sound hstart ha (hlow.imp_right fun _ => by omega))

end History

end Nucleus
