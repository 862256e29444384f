import Nucleus.Proofs.Computer.Reports
import Nucleus.Proofs.Semaphore.Account

/-!
# One exception and one semaphore

What an exception does to a single semaphore, whatever else it does: a unit is taken for the caller
of a request, a unit is given by a request or a completion, or processes that wait there end.
-/
namespace Nucleus

/-- Neither the pseudo-clock nor a device register touches the semaphore. -/
def SemKey.IsQuiet (key : SemKey) : Prop :=
  match Channel.slot? key with
  | some c => c ≠ .clock
  | none => Bus.IsOutside key.address

/-- No device register lies where the integer of the semaphore is kept. -/
def SemKey.IsOutside (key : SemKey) : Prop := Channel.slot? key = none → Bus.IsOutside key.address

theorem SemKey.IsQuiet.isOutside {key : SemKey} (hk : key.IsQuiet) : key.IsOutside := fun hs => by
  unfold IsQuiet at hk
  simpa only [hs] using hk

theorem SemKey.IsQuiet.ne_clock {key : SemKey} (hk : key.IsQuiet) : key ≠ Channel.clock.key := by
  rintro rfl
  simp [IsQuiet] at hk

theorem Channel.isOutside_key (c : Channel) : c.key.IsOutside := fun hs => by simp at hs

namespace Scene
variable {σ τ : Scene} {p q child : Handle} {key k : SemKey} {l : List Handle} {d : Dispatch}
variable {saved : SavedState} {r : Request} {c : Channel} {status : Word}

theorem value_assign (hk : key.IsOutside) (n : Int32) :
    (σ.assign k n).value key = if key = k then n else σ.value key := by
  cases hs : Channel.slot? key with
  | some c =>
    obtain rfl := Channel.slot?_eq_some_iff.mp hs
    cases hsk : Channel.slot? k with
    | some c' =>
      obtain rfl := Channel.slot?_eq_some_iff.mp hsk
      rw [assign_channel, value_channel, value_channel]
      by_cases hc : c = c'
      · rw [hc, if_pos rfl]
        exact Vector.getElem_set_self c'.isLt
      · have hne : c'.val ≠ c.val := fun e => hc (Fin.ext e.symm)
        have hkey : c.key ≠ c'.key := fun e => hc (Channel.key_inj e)
        rw [if_neg hkey]
        exact Vector.getElem_set_ne c'.isLt c.isLt hne
    | none =>
      have hne : c.key ≠ k := by
        rintro rfl
        rw [hs] at hsk
        cases hsk
      rw [if_neg hne, value_channel, value_channel]
      simp [assign, NucleusCells.assign, hsk, cells]
  | none =>
    replace hk := hk hs
    cases hsk : Channel.slot? k with
    | some c' =>
      have hne : key ≠ k := by
        rintro rfl
        rw [hs] at hsk
        cases hsk
      simp [value, assign, NucleusCells.value, NucleusCells.assign, hs, hsk, cells, hne]
    | none =>
      have hread := Machine.read_write (m := σ.machine) (b := k.address) (x := n.toUInt32) hk
      obtain ⟨a⟩ := key
      obtain ⟨b⟩ := k
      simp only [value, assign, NucleusCells.value, NucleusCells.assign, hs, hsk, cells, hread,
        SemKey.mk.injEq]
      split <;> simp

theorem value_machine {m : Machine}
    (hm : Channel.slot? key = none → m.read key.address = σ.machine.read key.address) :
    (σ.onMachine m).value key = σ.value key := by
  cases hs : Channel.slot? key with
  | some c => simp [value, cells, NucleusCells.value, hs, onMachine]
  | none => simp [value, cells, NucleusCells.value, hs, hm hs, onMachine]

theorem value_machine_of_outside (hk : key.IsOutside) {m : Machine}
    (hm : ∀ a, Bus.IsOutside a → m.read a = σ.machine.read a) :
    (σ.onMachine m).value key = σ.value key :=
  value_machine fun hs => hm _ (hk hs)

theorem read_credit {a : Word} (ha : Bus.IsOutside a) (m : Machine) (o : Option SemKey) :
    (m.credit o).read a = m.read a + if o = some ⟨a⟩ then 1 else 0 := by
  cases o with
  | none => simp [Machine.credit]
  | some key =>
    obtain ⟨b⟩ := key
    rw [Machine.credit, Machine.read_write ha]
    by_cases hb : a = b
    · simp [hb]
    · simp [hb, Ne.symm hb]

/-- Away from the bus registers a word grows by the units that were owed
there, whatever else is repaid. -/
theorem read_repay {a : Word} (ha : Bus.IsOutside a) (v : View) (l : List Handle) (m : Machine) :
    (v.repay l m).read a = m.read a + UInt32.ofNat (l.countP fun p => v.debt p = some ⟨a⟩) := by
  induction l generalizing m with
  | nil => simp [View.repay]
  | cons p l ih =>
    have hstep : v.repay (p :: l) m = v.repay l (m.credit (v.debt p)) := rfl
    rw [hstep, ih, read_credit ha, List.countP_cons, UInt32.ofNat_add, UInt32.add_assoc,
      UInt32.add_comm (ite _ _ _)]
    split <;> simp_all

theorem debt_eq_some_iff (hσ : σ.Sound) (hs : Channel.slot? key = none) :
    σ.view.debt p = some key ↔ p ∈ σ.waiters key := by
  rw [waiters, hσ.wf.mem_queue, View.debt, Option.bind_eq_some_iff]
  refine exists_congr fun x => and_congr_right fun _ => ?_
  rw [Option.bind_eq_some_iff]
  constructor
  · rintro ⟨station, hx, ho⟩
    cases station with
    | ready => cases ho
    | semaphore k =>
      simp only [Station.ordinary?, Option.ite_none_left_eq_some, Option.some.injEq] at ho
      rw [hx, ho.2]
  · intro hx
    exact ⟨_, hx, by simp [Station.ordinary?, hs]⟩

/-- As many of those who end are owed a unit of the semaphore as of those who wait there end. -/
theorem countP_debt (hσ : σ.Sound) (hs : Channel.slot? key = none) (hl : l.Nodup) :
    l.countP (fun p => σ.view.debt p = some key) = (σ.waiters key).countP (· ∈ l) := by
  rw [List.countP_eq_length_filter, List.countP_eq_length_filter]
  refine List.Perm.length_eq ((List.perm_ext_iff_of_nodup (hl.filter _) ((hσ.nodup _).filter _)).mpr
    fun q => ?_)
  simp only [List.mem_filter, decide_eq_true_eq, debt_eq_some_iff hσ hs]
  exact and_comm

def semaphore (σ : Scene) (key : SemKey) : Semaphore := ⟨σ.value key, σ.waiters key⟩

theorem semaphore_finish (hσ : σ.Sound) (hk : key.IsOutside) (hl : l.Nodup) :
    (σ.finish l).semaphore key =
      (σ.semaphore key).lose (Channel.slot? key).isNone (· ∈ l) := by
  have hwaiters : (σ.finish l).waiters key = (σ.waiters key).filter fun q => !decide (q ∈ l) := by
    rw [waiters_finish]
    exact List.filter_congr fun q _ => by simp
  rw [semaphore, hwaiters, Semaphore.lose, Semaphore.mk.injEq]
  refine ⟨?_, rfl⟩
  cases hs : Channel.slot? key with
  | some c =>
    obtain rfl := Channel.slot?_eq_some_iff.mp hs
    simp only [semaphore, value_channel]
    rfl
  | none =>
    replace hk := hk hs
    have hread := read_repay hk σ.view l σ.machine
    rw [countP_debt hσ hs hl] at hread
    simp [semaphore, finish, value, cells, NucleusCells.value, hs, hread]

theorem semaphore_setState {f : SavedState → SavedState} :
    (σ.setState p f).semaphore key = σ.semaphore key := rfl

theorem semaphore_join_ready : (σ.join p .ready).semaphore key = σ.semaphore key := by
  rw [semaphore, waiters_join, if_neg (by simp)]
  rfl

theorem semaphore_enrol {address : Word} {support : Option SupportArea} :
    (σ.enrol p child address support).semaphore key = σ.semaphore key := by
  rw [semaphore, waiters_enrol]
  rfl

theorem semaphore_take (hk : key.IsOutside) (hv : 0 ≤ σ.value k - 1) (p : Handle) :
    (σ.take k).semaphore key = if key = k then (σ.semaphore key).take p else σ.semaphore key := by
  rw [semaphore, take, value_assign hk, waiters_assign]
  by_cases he : key = k
  · subst he
    simp [semaphore, Semaphore.take, hv]
  · simp [semaphore, he]

theorem semaphore_block (hk : key.IsOutside) (hv : ¬0 ≤ σ.value k - 1) (p : Handle) :
    (σ.block p k).semaphore key = if key = k then (σ.semaphore key).take p
      else σ.semaphore key := by
  have hvalue : (σ.block p k).value key = (σ.take k).value key := rfl
  rw [semaphore, hvalue, take, value_assign hk]
  by_cases he : key = k
  · subst he
    simp [semaphore, Semaphore.take, hv, block, take]
  · simp [semaphore, he, Ne.symm he, block, take]

theorem waiters_wake_head (ho : σ.view.Orderly) {rest : List Handle}
    (hq : σ.waiters k = q :: rest) :
    (σ.wake q).waiters key = if key = k then rest else σ.waiters key := by
  rw [waiters_wake]
  by_cases he : key = k
  · subst he
    have hn := ho.nodup (.semaphore key)
    have hq' : σ.view.queue (.semaphore key) = q :: rest := hq
    rw [hq'] at hn
    rw [if_pos rfl, hq, List.filter_cons_of_neg (by simp)]
    exact View.filter_ne_of_notMem (List.nodup_cons.mp hn).1
  · rw [if_neg he]
    refine View.filter_ne_of_notMem fun hm => he ?_
    have hm' : q ∈ σ.view.queue (.semaphore k) := by
      have hq' : σ.view.queue (.semaphore k) = q :: rest := hq
      simp [hq']
    exact Station.semaphore.inj (ho.apart hm hm')

theorem semaphore_give_of_none (hk : key.IsOutside) (h : σ.woken? k = none) :
    (σ.give k).semaphore key = if key = k then (σ.semaphore key).give else σ.semaphore key := by
  rw [semaphore, give, value_assign hk, waiters_assign]
  by_cases he : key = k
  · subst he
    simp only [if_true, semaphore, Semaphore.give, Semaphore.mk.injEq, true_and]
    by_cases hv : σ.value key + 1 ≤ 0
    · have hnil : σ.waiters key = [] := by simpa [woken?, hv] using h
      simp [hnil]
    · simp [hv]
  · simp [semaphore, he]

theorem semaphore_wake_give (hk : key.IsOutside) (ho : σ.view.Orderly) (h : σ.woken? k = some q) :
    ((σ.give k).wake q).semaphore key = if key = k then (σ.semaphore key).give
      else σ.semaphore key := by
  obtain ⟨hv, rest, hq⟩ := woken?_eq_some h
  have hvalue : ((σ.give k).wake q).value key = (σ.give k).value key := rfl
  have hwaiters : ((σ.give k).wake q).waiters key = (σ.wake q).waiters key := by
    rw [waiters_wake, waiters_wake]
    rfl
  rw [semaphore, hvalue, hwaiters, give, value_assign hk, waiters_wake_head ho hq]
  by_cases he : key = k
  · subst he
    simp [semaphore, Semaphore.give, hv, hq]
  · simp [semaphore, he]

theorem semaphore_signal (hk : key.IsOutside) (ho : σ.view.Orderly) :
    (σ.signal k).semaphore key = if key = k then (σ.semaphore key).give else σ.semaphore key := by
  unfold signal
  cases h : σ.woken? k with
  | none => exact semaphore_give_of_none hk h
  | some q => exact semaphore_wake_give hk ho h

theorem semaphore_complete (hk : key.IsOutside) (ho : σ.view.Orderly) :
    (σ.complete c status).semaphore key =
      if key = c.key then (σ.semaphore key).give else σ.semaphore key := by
  unfold complete
  cases h : σ.woken? c.key with
  | none =>
    simp only
    split
    · exact semaphore_give_of_none hk h
    · exact semaphore_give_of_none hk h
  | some q => exact semaphore_wake_give hk ho h

theorem semaphore_completeAll (hk : key.IsOutside) (hσ : σ.Sound) {cs : List (Channel × Word)}
    (hn : (cs.map (·.1)).Nodup) : (σ.completeAll cs).semaphore key =
      if key ∈ cs.map (·.1.key) then (σ.semaphore key).give else σ.semaphore key := by
  induction cs generalizing σ with
  | nil => simp [completeAll]
  | cons c cs ih =>
    obtain ⟨hc, hn⟩ := List.nodup_cons.mp hn
    have hstep : σ.completeAll (c :: cs) = (σ.complete c.1 c.2).completeAll cs := rfl
    rw [hstep, ih (hσ.complete _ _) hn, semaphore_complete hk hσ.orderly]
    by_cases hkey : key = c.1.key
    · subst hkey
      have hrest : c.1.key ∉ cs.map (·.1.key) := by
        intro hm
        obtain ⟨c', hm, he⟩ := List.mem_map.mp hm
        exact hc (List.mem_map.mpr ⟨c', hm, Channel.key_inj he⟩)
      simp [hrest]
    · have hrest : key ∈ (c :: cs).map (·.1.key) ↔ key ∈ cs.map (·.1.key) := by
        rw [List.map_cons, List.mem_cons, or_iff_right hkey]
      rw [if_neg hkey, if_congr hrest rfl rfl]

theorem waiters_tick (ho : σ.view.Orderly) (hne : key ≠ Channel.clock.key) :
    σ.tick.waiters key = σ.waiters key := by
  rw [tick, waiters, View.queue_joinAll, if_neg (by simp), View.queue_leaveAll]
  refine List.filter_eq_self.mpr fun q hq => ?_
  have hclock : q ∉ σ.waiters Channel.clock.key :=
    fun hm => hne (Station.semaphore.inj (ho.apart hq hm))
  simpa using hclock

theorem waiters_tick_clock : σ.tick.waiters Channel.clock.key = [] := by
  rw [tick, waiters, View.queue_joinAll, if_neg (by simp), View.queue_leaveAll,
    List.filter_eq_nil_iff]
  intro q hq
  have hq' : q ∈ σ.waiters Channel.clock.key := hq
  simpa using hq'

theorem semaphore_tick (hσ : σ.Sound) (hk : key.IsOutside) (hne : key ≠ Channel.clock.key) :
    σ.tick.semaphore key = σ.semaphore key := by
  have hwaiters := waiters_tick hσ.orderly hne
  have hvalue : σ.tick.value key = σ.value key := by
    have hmachine : σ.tick.value key =
        ({ σ with channels := σ.channels.set Channel.clock 0 Channel.clock.isLt } :
          Scene).value key :=
      value_machine_of_outside (σ := { σ with
        channels := σ.channels.set Channel.clock 0 Channel.clock.isLt }) hk
          fun a ha => Machine.read_loadIntervalTimer ha
    have hassign := value_assign (σ := σ) (k := Channel.clock.key) hk 0
    rw [assign_channel, if_neg hne] at hassign
    exact hmachine.trans hassign
  rw [semaphore, hwaiters, hvalue]
  rfl

theorem semaphore_dispatch (ho : σ.view.Orderly) {rest : List Handle}
    (hq : σ.view.queue .ready = p :: rest) : (σ.dispatch p).semaphore key = σ.semaphore key := by
  have hp : p ∉ σ.waiters key := fun hm => by
    have hs := ho.apart (s := .ready) (by simp [hq]) hm
    cases hs
  have hvalue : (σ.dispatch p).value key = σ.value key := rfl
  rw [semaphore, waiters_dispatch, View.filter_ne_of_notMem hp, hvalue]
  rfl

theorem Scheduled.semaphore (ho : σ.view.Orderly) (h : σ.Scheduled d τ) :
    τ.semaphore key = σ.semaphore key := by
  cases h with
  | dispatched hq => exact semaphore_dispatch ho hq
  | @idle d machine _ hm =>
    have hvalue : (σ.onMachine machine).value key = σ.value key :=
      value_machine fun _ => by rw [Machine.read, hm, Machine.read]
    exact congrArg (Semaphore.mk · (σ.waiters key)) hvalue

theorem Continued.semaphore (ho : σ.view.Orderly) (h : σ.Continued saved d τ) :
    τ.semaphore key = σ.semaphore key := by
  cases h with
  | resumed => rfl
  | scheduled _ h => exact h.semaphore ho

/-- How many of those who wait on the semaphore end. -/
def lost (σ τ : Scene) (key : SemKey) : Nat := (σ.waiters key).countP fun q => (τ.state? q).isNone

theorem lost_eq_zero (hσ : σ.Sound) (h : ∀ q, τ.state? q = none → σ.state? q = none) :
    σ.lost τ key = 0 := by
  rw [lost, List.countP_eq_zero]
  intro q hq hn
  have hs := hσ.isSome_of_mem_waiters hq
  rw [h q (by simpa using hn)] at hs
  cases hs

theorem step_kept (hσ : σ.Sound) (h : ∀ q, τ.state? q = none → σ.state? q = none)
    (hs : τ.semaphore key = σ.semaphore key) (owed : Bool) :
    Semaphore.Step owed 0 0 (σ.lost τ key) (σ.semaphore key) (τ.semaphore key) := by
  have hstep : Semaphore.Step owed 0 0 _ _ _ := .lose (σ.semaphore key) fun _ => false
  rw [Semaphore.lose_none, List.countP_false] at hstep
  rw [lost_eq_zero hσ h, hs]
  exact hstep

theorem step_finish (hσ : σ.Sound) (hk : key.IsOutside) (hl : l.Nodup)
    (h : ∀ q, τ.state? q = none ↔ (σ.finish l).state? q = none)
    (hs : τ.semaphore key = (σ.finish l).semaphore key) :
    Semaphore.Step (Channel.slot? key).isNone 0 0 (σ.lost τ key) (σ.semaphore key)
      (τ.semaphore key) := by
  have hdead : ∀ q ∈ σ.waiters key, decide (q ∈ l) = (τ.state? q).isNone := by
    intro q hq
    obtain ⟨x, hx⟩ := Option.isSome_iff_exists.mp (hσ.isSome_of_mem_waiters hq)
    have hq := h q
    rw [state?_finish, hx] at hq
    rw [Bool.eq_iff_iff, decide_eq_true_eq, Option.isNone_iff_eq_none, hq]
    simp
  rw [hs, semaphore_finish hσ hk hl, Semaphore.lose_congr hdead]
  exact Semaphore.Step.lose (σ.semaphore key) fun q => (τ.state? q).isNone

theorem step_taken (hσ : σ.Sound) (h : ∀ q, τ.state? q = none → σ.state? q = none)
    (hs : τ.semaphore key = if key = k then (σ.semaphore key).take p else σ.semaphore key)
    (owed : Bool) :
    Semaphore.Step owed (if some k = some key then 1 else 0) 0 (σ.lost τ key) (σ.semaphore key)
      (τ.semaphore key) := by
  by_cases he : key = k
  · rw [if_pos he] at hs
    rw [if_pos (congrArg some he.symm), lost_eq_zero hσ h, hs]
    exact .take _ p
  · rw [if_neg he] at hs
    rw [if_neg fun e => he (Option.some.inj e).symm]
    exact step_kept hσ h hs owed

theorem step_given (hσ : σ.Sound) (h : ∀ q, τ.state? q = none → σ.state? q = none)
    (hs : τ.semaphore key = if key = k then (σ.semaphore key).give else σ.semaphore key)
    (owed : Bool) :
    Semaphore.Step owed 0 (if some k = some key then 1 else 0) (σ.lost τ key) (σ.semaphore key)
      (τ.semaphore key) := by
  by_cases he : key = k
  · rw [if_pos he] at hs
    rw [if_pos (congrArg some he.symm), lost_eq_zero hσ h, hs]
    exact .give _
  · rw [if_neg he] at hs
    rw [if_neg fun e => he (Option.some.inj e).symm]
    exact step_kept hσ h hs owed

theorem given?_eq_none (h : r.taken? = some k) : r.given? = none := by
  cases r <;> first | rfl | cases h

theorem Served.step (hσ : σ.Sound) (hk : key.IsOutside) (hc : σ.current = some p)
    (h : σ.Served p r d τ) :
    Semaphore.Step (Channel.slot? key).isNone (if r.taken? = some key then 1 else 0)
      (if r.given? = some key then 1 else 0) (σ.lost τ key) (σ.semaphore key)
        (τ.semaphore key) := by
  cases h with
  | @created address support child d τ hn h =>
    cases h
    refine step_kept hσ (fun q hq => ?_) ?_ _
    · rw [state?_setState_eq_none, state?_setState_eq_none, state?_enrol] at hq
      split at hq
      · cases hq
      · exact hq
    · rw [semaphore_setState, semaphore_setState, semaphore_enrol]
  | uncreated h =>
    cases h
    exact step_kept hσ (fun q => state?_setState_eq_none.mp) (semaphore_setState (σ := σ)) _
  | unnamed h =>
    cases h
    exact step_kept hσ (fun q => state?_setState_eq_none.mp) (semaphore_setState (σ := σ)) _
  | outlived hl hp h =>
    cases h
    exact step_finish hσ hk hl (fun q => state?_setState_eq_none)
      (semaphore_setState (σ := σ.finish _))
  | ended hl hp h =>
    exact step_finish hσ hk hl (fun q => by rw [h.state?_eq]) (h.semaphore (orderly_finish hσ _))
  | passed hv h =>
    cases h
    refine step_taken (p := p) hσ (fun _ => ?_) ?_ _
    · exact id
    · exact semaphore_take hk hv p
  | @consumed _ c _ _ hr hv h =>
    cases h
    have htaken := Request.taken?_of_channel? hr
    rw [htaken, given?_eq_none htaken]
    refine step_taken (p := p) hσ (fun q => ?_) ?_ _
    · intro hq
      have hq' : ((σ.take c.key).setState p (·.setV0 (σ.banked.get c))).state? q = none := hq
      rwa [state?_setState_eq_none] at hq'
    · exact semaphore_take hk hv p
  | blocked hr hv h =>
    rw [hr, given?_eq_none hr]
    have hs : τ.semaphore key = _ := h.semaphore (orderly_block hσ hc _)
    refine step_taken hσ (fun q hq => ?_) (hs.trans (semaphore_block hk hv p)) _
    rw [h.state?_eq] at hq
    simpa [block, take] using hq
  | signalled h =>
    cases h
    refine step_given hσ (fun q hq => ?_) (semaphore_signal hk hσ.orderly) _
    rwa [state?_signal] at hq
  | told hr h =>
    cases h
    rcases hr with rfl | rfl
    · exact step_kept hσ (fun q => state?_setState_eq_none.mp) (semaphore_setState (σ := σ)) _
    · exact step_kept hσ (fun q => state?_setState_eq_none.mp) (semaphore_setState (σ := σ)) _

theorem Effect.of_served (h : σ.Effect saved d τ) (hs : saved.served? σ.current = some (p, r)) :
    (σ.setState p fun _ => saved.pastInstruction).Served p r d τ := by
  obtain ⟨hr, hp⟩ := SavedState.served?_eq_some.mp hs
  have hother : ∀ {m}, saved.matter = m → m = .request r := fun h => h.symm.trans hr
  cases h with
  | unasked hc => simp [hc] at hp
  | served hm hc h =>
    cases hother hm
    cases hc.symm.trans hp
    exact h
  | spurious hm | sliceEnded hm | sliceIdle hm | ticked hm | drained hm | passedUp hm | died hm =>
    cases hother hm

theorem mem_waiters_of_block (hσ : σ.Sound) (hc : σ.current = some p)
    (h : (σ.block p key).Scheduled d τ) : p ∈ τ.waiters key := by
  have hs : τ.semaphore key = _ := h.semaphore (orderly_block hσ hc _)
  have hw : τ.waiters key = (σ.block p key).waiters key := congrArg Semaphore.waiters hs
  rw [hw]
  simp [block, take]

/-- A caller waits on the channel it asks for when there was no unit left. -/
theorem Served.mem_waiters_iff (hσ : σ.Sound) (hc : σ.current = some p) (h : σ.Served p r d τ)
    (hr : r.channel? = some c) : p ∈ τ.waiters c.key ↔ ¬0 ≤ σ.value c.key - 1 := by
  have hp : p ∉ σ.waiters c.key := hσ.notMem_queue hc _
  cases h with
  | created | uncreated | unnamed | outlived | ended | passed | signalled => cases hr
  | told hr' => rcases hr' with rfl | rfl <;> cases hr
  | consumed hr' hv h =>
    cases hr'.symm.trans hr
    cases h
    exact iff_of_false hp fun hn => hn hv
  | blocked hr' hv h =>
    cases hr'.symm.trans (Request.taken?_of_channel? hr)
    exact iff_of_true (mem_waiters_of_block hσ hc h) hv

/-- Where the state goes that is passed up. -/
def slot? (σ : Scene) (saved : SavedState) : Option Word :=
  match saved.matter, σ.current with
  | .passUp c _, some p => ((σ.view.process p).bind (·.support)).map (·.stateAddress c)
  | _, _ => none

/-- Units taken from a semaphore on behalf of the running process. -/
def taken (σ : Scene) (saved : SavedState) (key : SemKey) : Nat :=
  if (saved.served? σ.current).any (·.2.taken? = some key) then 1 else 0

/-- Units given to a semaphore by the running process and by devices. -/
def given (σ : Scene) (saved : SavedState) (key : SemKey) : Nat :=
  (if (saved.served? σ.current).any (·.2.given? = some key) then 1 else 0) +
    (saved.completions σ.machine).countP (·.1.key = key)

theorem taken_given_eq_zero (σ : Scene) (key : SemKey) (hserved : saved.served? σ.current = none)
    (hd : ∀ line, saved.matter ≠ .devices line) :
    σ.taken saved key = 0 ∧ σ.given saved key = 0 := by
  have hcompletions : saved.completions σ.machine = [] := by
    unfold SavedState.completions
    split
    · next line hm => exact (hd line hm).elim
    · rfl
  simp [taken, given, hserved, hcompletions]

theorem taken_given_of_matter (σ : Scene) (key : SemKey) {m : Matter} (hm : saved.matter = m)
    (hr : ∀ r, m ≠ .request r) (hd : ∀ line, m ≠ .devices line) :
    σ.taken saved key = 0 ∧ σ.given saved key = 0 := by
  refine σ.taken_given_eq_zero key ?_ (hm ▸ hd)
  unfold SavedState.served?
  split
  · next r _ hr' _ => exact (hr r (hm.symm.trans hr')).elim
  · rfl

theorem Effect.step_drained {line : Word} (hσ : σ.Sound) (hk : key.IsOutside)
    (h : σ.Effect saved d τ) (hm : saved.matter = .devices line) :
    Semaphore.Step (Channel.slot? key).isNone (σ.taken saved key) (σ.given saved key) (σ.lost τ key)
      (σ.semaphore key) (τ.semaphore key) := by
  have h := h.continued hm
  have hcs : saved.completions σ.machine = σ.machine.completions line := by
    simp [SavedState.completions, hm]
  have hn := Machine.nodup_completions σ.machine line
  rw [hcs] at h
  have hs : τ.semaphore key = (σ.completeAll (σ.machine.completions line)).semaphore key := by
    refine (h.semaphore (σ := (σ.completeAll _).onMachine (σ.machine.drain line))
      (hσ.completeAll _).orderly).trans ?_
    refine congrArg (Semaphore.mk · _) (value_machine_of_outside hk fun a ha => ?_)
    rw [machine_completeAll, Machine.read_drain (matter_eq_devices hm).2 ha]
  have hserved : saved.served? σ.current = none := by simp [SavedState.served?, hm]
  have hlive : ∀ q, τ.state? q = none → σ.state? q = none := fun q hq => by
    rw [h.state?_eq] at hq
    exact state?_completeAll_eq_none.mp hq
  rw [semaphore_completeAll hk hσ hn] at hs
  simp only [taken, given, hserved, hcs, countP_key hn, Option.any_none,
    Bool.false_eq_true, if_false, Nat.zero_add]
  by_cases hmem : key ∈ (σ.machine.completions line).map (·.1.key)
  · rw [if_pos hmem] at hs ⊢
    rw [lost_eq_zero hσ hlive, hs]
    exact .give _
  · rw [if_neg hmem] at hs ⊢
    exact step_kept hσ hlive hs _

/-- What one exception does to one semaphore, unless it is a tick and the
semaphore that of the pseudo-clock. -/
theorem Effect.step_of_outside (hσ : σ.Sound) (hk : key.IsOutside) (h : σ.Effect saved d τ)
    (htick : saved.matter = .tick → key ≠ Channel.clock.key)
    (hslot : Channel.slot? key = none → ∀ base, σ.slot? saved = some base →
      ∀ i < stateWords, key.address ≠ wordAt base i) :
    Semaphore.Step (Channel.slot? key).isNone (σ.taken saved key) (σ.given saved key) (σ.lost τ key)
      (σ.semaphore key) (τ.semaphore key) := by
  cases h with
  | unasked hc hz =>
    obtain ⟨ht, hg⟩ := σ.taken_given_eq_zero key (by simp [SavedState.served?, hc])
      fun line hm => hz (matter_eq_devices hm).1
    rw [ht, hg]
    exact step_kept hσ (fun _ => id) rfl _
  | spurious hm h =>
    obtain ⟨ht, hg⟩ := σ.taken_given_of_matter key hm (by simp) (by simp)
    rw [ht, hg]
    exact step_kept hσ (fun q hq => by rwa [h.state?_eq] at hq) (h.semaphore hσ.orderly) _
  | @sliceEnded p _ _ hm hc h =>
    obtain ⟨ht, hg⟩ := σ.taken_given_of_matter key hm (by simp) (by simp)
    rw [ht, hg]
    refine step_kept hσ (fun q hq => ?_) ?_ _
    · rw [h.state?_eq] at hq
      have hq' : ((σ.charge p).setState p fun _ => saved).state? q = none := by
        simpa [preempt] using hq
      rwa [state?_setState_eq_none, state?_charge] at hq'
    · exact (h.semaphore (orderly_preempt hσ hc saved)).trans (semaphore_join_ready (p := p))
  | sliceIdle hm hc h =>
    obtain ⟨ht, hg⟩ := σ.taken_given_of_matter key hm (by simp) (by simp)
    rw [ht, hg]
    exact step_kept hσ (fun q hq => by rwa [h.state?_eq] at hq) (h.semaphore hσ.orderly) _
  | ticked hm h =>
    obtain ⟨ht, hg⟩ := σ.taken_given_of_matter key hm (by simp) (by simp)
    rw [ht, hg]
    refine step_kept hσ (fun q hq => by rwa [h.state?_eq, state?_tick] at hq) ?_ _
    exact (h.semaphore hσ.orderly.tick).trans (semaphore_tick hσ hk (htick hm))
  | drained hm hdrained =>
    have hall : σ.Effect saved d τ := .drained hm hdrained
    exact hall.step_drained hσ hk hm
  | @served r p _ _ hm hc h =>
    have hserved : saved.served? σ.current = some (p, r) := by simp [SavedState.served?, hm, hc]
    have hcs : saved.completions σ.machine = [] := by simp [SavedState.completions, hm]
    have hstep := Served.step (hσ.setState _) hk hc h
    simp only [taken, given, hserved, hcs, Option.any_some, decide_eq_true_eq,
      List.countP_nil, Nat.add_zero]
    exact hstep
  | passedUp hm hc hx ha =>
    obtain ⟨ht, hg⟩ := σ.taken_given_of_matter key hm (by simp) (by simp)
    rw [ht, hg]
    refine step_kept hσ (fun q hq => ?_) ?_ _
    · exact hq
    refine congrArg (Semaphore.mk · _) (value_machine fun hs => ?_)
    refine Machine.read_writeState (hk hs) (hslot hs _ ?_)
    simp [slot?, hm, hc, hx, ha]
  | died hm hc hl hp h =>
    obtain ⟨ht, hg⟩ := σ.taken_given_of_matter key hm (by simp) (by simp)
    rw [ht, hg]
    exact step_finish hσ hk hl (fun q => by rw [h.state?_eq]) (h.semaphore (orderly_finish hσ _))

/-- What one exception does to a semaphore that neither the pseudo-clock
nor a device register touches. -/
theorem Effect.step (hσ : σ.Sound) (hk : key.IsQuiet) (h : σ.Effect saved d τ)
    (hslot : Channel.slot? key = none → ∀ base, σ.slot? saved = some base →
      ∀ i < stateWords, key.address ≠ wordAt base i) :
    Semaphore.Step (Channel.slot? key).isNone (σ.taken saved key) (σ.given saved key) (σ.lost τ key)
      (σ.semaphore key) (τ.semaphore key) :=
  h.step_of_outside hσ hk.isOutside (fun _ => hk.ne_clock) hslot

theorem Effect.waiters_of_tick (hσ : σ.Sound) (h : σ.Effect saved d τ) (hm : saved.matter = .tick)
    (key : SemKey) : τ.waiters key = if key = Channel.clock.key then [] else σ.waiters key := by
  have hsemaphore : τ.semaphore key = σ.tick.semaphore key :=
    (h.of_tick hm).semaphore hσ.orderly.tick
  refine (congrArg Semaphore.waiters hsemaphore).trans ?_
  split
  · next he => exact he ▸ waiters_tick_clock
  · next hne => exact waiters_tick hσ.orderly hne

/-- Whoever comes to wait for a channel joins the queue at its end, and
those who stay keep their order. -/
theorem Effect.waiters_cases (hσ : σ.Sound) (h : σ.Effect saved d τ) (c : Channel) :
    (τ.waiters c.key).Sublist (σ.waiters c.key) ∨ ∃ p,
      τ.waiters c.key = σ.waiters c.key ++ [p] := by
  by_cases htick : saved.matter = .tick ∧ c = .clock
  · obtain ⟨hm, rfl⟩ := htick
    rw [h.waiters_of_tick hσ hm, if_pos rfl]
    exact .inl (List.nil_sublist _)
  · have hstep := h.step_of_outside hσ c.isOutside_key (fun hm e => htick ⟨hm, Channel.key_inj e⟩)
      fun hn => by simp at hn
    exact hstep.waiters_cases

end Scene

end Nucleus
