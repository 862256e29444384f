import Nucleus.Proofs.Computer.Banking
import Nucleus.Proofs.DeviceWaits

/-!
# Deliveries

A wait for a device is answered with a status: at once, with the one that is kept, or by the
completion that wakes the caller. Each completion answers one wait, the earliest that is open. While
there is never more than one completion ahead of its wait, it is answered with the status of just
that completion. When a second one gets ahead, the status of the first is lost.
-/
namespace Nucleus

/-- What one turn does for those who wait for a device. From the integer, the queue and the status
that is kept it makes, of the waits served and the statuses reported, the answers and the next queue
and status. -/
inductive Handover (value : Int) (queue : List Handle) (kept : Word) :
    List Handle → List Word → List (Handle × Word) → List Handle → Word → Prop
  | block (p : Handle) (kept' : Word) (h : value ≤ 0) :
      Handover value queue kept [p] [] [] (queue ++ [p]) kept'
  | consume (p : Handle) (kept' : Word) (h : 0 < value) (hq : queue = []) :
      Handover value queue kept [p] [] [(p, kept)] [] kept'
  | wake (p : Handle) (rest : List Handle) (status kept' : Word) (hq : queue = p :: rest) :
      Handover value queue kept [] [status] [(p, status)] rest kept'
  | keep (status : Word) (hq : queue = []) : Handover value queue kept [] [status] [] [] status
  | pass : Handover value queue kept [] [] [] queue kept

/-- Nobody is answered out of turn. -/
theorem Handover.callers {value : Int} {queue queue' waiting waits : List Handle}
    {kept kept' : Word} {reports : List Word} {answers pairs : List (Handle × Word)}
    (h : Handover value queue kept waiting reports answers queue' kept')
    (hwaits : waits = pairs.map (·.1) ++ queue) :
    waits ++ waiting = (pairs ++ answers).map (·.1) ++ queue' := by
  cases h with
  | block => simp [hwaits]
  | consume _ _ _ hq => simp [hwaits, hq]
  | wake _ _ _ _ hq => simp [hwaits, hq]
  | keep _ hq => simp [hwaits, hq]
  | pass => simpa using hwaits

theorem Handover.eq_self {value : Int} {queue queue' : List Handle} {kept kept' : Word}
    {answers : List (Handle × Word)} (h : Handover value queue kept [] [] answers queue' kept') :
    answers = [] ∧ queue' = queue := by
  cases h with
  | pass => exact ⟨rfl, rfl⟩

/-- Waits are matched with statuses from the first on. What is over is a
queue of callers or one status. -/
inductive Matched : List Handle → List Word → List Handle → Word → List (Handle × Word) → Prop
  | waiting {served : List Handle} {statuses : List Word} (queue : List Handle) (kept : Word)
      (h : served.length = statuses.length) :
      Matched (served ++ queue) statuses queue kept (served.zip statuses)
  | ahead {served : List Handle} {statuses : List Word} (kept : Word)
      (h : served.length = statuses.length) :
      Matched served (statuses ++ [kept]) [] kept (served.zip statuses)

namespace Matched
variable {waits queue rest : List Handle} {statuses : List Word} {kept kept' status : Word}
  {p : Handle} {pairs : List (Handle × Word)}

theorem idle (queue : List Handle) (kept : Word) : Matched queue [] queue kept [] := by
  have hnone : ([] : List Handle).length = ([] : List Word).length := rfl
  exact .waiting queue kept hnone

theorem eq_zip (h : Matched waits statuses queue kept pairs) : pairs = waits.zip statuses := by
  cases h with
  | @waiting served _ _ _ h =>
    have hzip : (served ++ queue).zip (statuses ++ []) = served.zip statuses ++ queue.zip [] :=
      List.zip_append h
    simpa using hzip.symm
  | @ahead _ statuses _ h =>
    have hzip : (waits ++ []).zip (statuses ++ [kept]) = waits.zip statuses ++ List.zip [] [kept] :=
      List.zip_append h
    simpa using hzip.symm

theorem block (h : Matched waits statuses queue kept pairs) (hle : statuses.length ≤ waits.length)
    (p : Handle) (kept' : Word) : Matched (waits ++ [p]) statuses (queue ++ [p]) kept' pairs := by
  cases h with
  | waiting _ _ h =>
    rw [List.append_assoc]
    exact .waiting _ _ h
  | ahead _ h =>
    simp only [List.length_append, List.length_singleton] at hle
    omega

theorem consume (h : Matched waits statuses queue kept pairs) (hlt : waits.length < statuses.length)
    (p : Handle) (kept' : Word) :
    Matched (waits ++ [p]) statuses queue kept' (pairs ++ [(p, kept)]) := by
  cases h with
  | waiting _ _ h =>
    simp only [List.length_append] at hlt
    omega
  | @ahead _ statuses _ h =>
    have hnext : (waits ++ [p]).length = (statuses ++ [kept]).length := by simp [h]
    have hmatched := Matched.waiting [] kept' hnext
    rwa [List.append_nil, List.zip_append h] at hmatched

theorem wake (h : Matched waits statuses (p :: rest) kept pairs) (status kept' : Word) :
    Matched waits (statuses ++ [status]) rest kept' (pairs ++ [(p, status)]) := by
  cases h with
  | @waiting served _ _ _ h =>
    have hnext : (served ++ [p]).length = (statuses ++ [status]).length := by simp [h]
    have hmatched := Matched.waiting rest kept' hnext
    rwa [List.append_assoc, List.zip_append h] at hmatched

theorem keep (h : Matched waits statuses [] kept pairs) (hle : statuses.length ≤ waits.length)
    (status : Word) : Matched waits (statuses ++ [status]) [] status pairs := by
  cases h with
  | @waiting served _ _ _ h =>
    rw [List.append_nil]
    exact .ahead status h
  | ahead _ h =>
    simp only [List.length_append, List.length_singleton] at hle
    omega

/-- Waits and statuses stay matched unless two statuses get ahead. -/
theorem step (h : Matched waits statuses queue kept pairs) {value : Int}
    {queue' waiting : List Handle} {reports : List Word} {answers : List (Handle × Word)}
    (hstep : Handover value queue kept waiting reports answers queue' kept')
    (hvalue : value = statuses.length - waits.length)
    (hnext : ((statuses ++ reports).length : Int) - (waits ++ waiting).length ≤ 1) :
    Matched (waits ++ waiting) (statuses ++ reports) queue' kept' (pairs ++ answers) := by
  cases hstep with
  | block p _ hle =>
    rw [List.append_nil, List.append_nil]
    exact h.block (by omega) p _
  | consume p _ hlt hq =>
    subst hq
    rw [List.append_nil]
    exact h.consume (by omega) p _
  | wake p rest status _ hq =>
    subst hq
    rw [List.append_nil]
    exact h.wake status _
  | keep _ hq =>
    subst hq
    simp only [List.append_nil, List.length_append, List.length_singleton] at hnext ⊢
    exact h.keep (by omega) _
  | pass =>
    simpa using h

end Matched

namespace Turn

def waiting (turn : Turn) (c : Channel) : List Handle :=
  match turn.served? with
  | some (p, r) => if r.channel? = some c then [p] else []
  | none => []

def statuses (turn : Turn) (c : Channel) : List Word :=
  (turn.completions.filter (·.1 = c)).map (·.2)

/-- Those whose wait is over with this turn, with what they find in their first result register: a
caller that does not have to wait, and a process that has waited until now. -/
def delivered (turn : Turn) (c : Channel) : List (Handle × Word) :=
  ((turn.waiting c).filter fun p => !turn.after.kernel.table.waitsOn c.key p).filterMap
      (fun p => turn.dispatch.state?.map fun x => (p, x.register .v0)) ++
    ((turn.before.kernel.table.blockedOn c.key).filter fun p =>
      !turn.after.kernel.table.waitsOn c.key p).filterMap
      fun p => (turn.after.kernel.table.find? p).map fun d => (p, d.state.register .v0)

end Turn

/-- What the turns of a history bring, the earliest first. -/
def chronicle {α : Type} (f : Turn → List α) (history : List Turn) : List α :=
  history.reverse.flatMap f

/-- How the completions of a device reach those who wait for it. Each one answers the earliest wait
that is open. From any time when no completion is ahead of its wait, each wait is answered with the
status of its own completion, as long as never a second one gets ahead. -/
structure Delivers (c : Channel) (history : List Turn) : Prop where
  callers : (chronicle (·.delivered c) history).map (·.1) =
    (chronicle (·.waiting c) history).take (chronicle (·.statuses c) history).length
  statuses : ∀ recent past, recent ++ past = history →
    (∀ turn ∈ past.head?, (turn.after.kernel.channels.get c).toInt ≤ 0) →
    (∀ turn ∈ recent, (turn.after.kernel.channels.get c).toInt ≤ 1) →
    chronicle (·.delivered c) recent =
      ((chronicle (·.waiting c) history).drop (chronicle (·.statuses c) past).length).zip
        (chronicle (·.statuses c) recent)

theorem chronicle_append {α : Type} (f : Turn → List α) (recent past : List Turn) :
    chronicle f (recent ++ past) = chronicle f past ++ chronicle f recent := by
  rw [chronicle, List.reverse_append, List.flatMap_append]
  rfl

theorem chronicle_cons {α : Type} (f : Turn → List α) (turn : Turn) (past : List Turn) :
    chronicle f (turn :: past) = chronicle f past ++ f turn := by
  simp [chronicle]

namespace Turn
variable {turn : Turn} {c : Channel} {history : List Turn}

theorem length_waiting (turn : Turn) (c : Channel) :
    (turn.waiting c).length = if turn.serves (·.channel? = some c) then 1 else 0 := by
  unfold waiting serves
  cases turn.served? with
  | none => rfl
  | some pr =>
    by_cases hr : pr.2.channel? = some c <;> simp [hr]

theorem length_chronicle_waiting (history : List Turn) (c : Channel) :
    (chronicle (·.waiting c) history).length = history.countP (·.serves (·.channel? = some c)) := by
  induction history with
  | nil => rfl
  | cons turn past ih =>
    rw [chronicle_cons, List.length_append, ih, length_waiting, List.countP_cons]

theorem length_chronicle_statuses (history : List Turn) (c : Channel) :
    (chronicle (·.statuses c) history).length =
      (history.flatMap (·.completions)).countP (·.1 = c) := by
  induction history with
  | nil => rfl
  | cons turn past ih =>
    rw [chronicle_cons, List.length_append, ih, List.flatMap_cons, List.countP_append, statuses,
      List.length_map, ← List.countP_eq_length_filter, Nat.add_comm]

theorem waiting_eq_singleton {p : Handle} {r : Request} (h : turn.served? = some (p, r))
    (hr : r.channel? = some c) : turn.waiting c = [p] := by
  simp [waiting, h, hr]

theorem waiting_eq_nil (h : ∀ p r, turn.served? = some (p, r) → r.channel? ≠ some c) :
    turn.waiting c = [] := by
  unfold waiting
  cases hs : turn.served? with
  | none => rfl
  | some pr => exact if_neg (h pr.1 pr.2 hs)

theorem waiting_eq_nil_of_mem {status : Word} (hc : (c, status) ∈ turn.completions) :
    turn.waiting c = [] := by
  refine waiting_eq_nil fun p r hs => ?_
  rw [completions_eq_nil hs] at hc
  cases hc

theorem statuses_eq_nil (hc : c ∉ turn.completions.map (·.1)) : turn.statuses c = [] := by
  refine List.map_eq_nil_iff.mpr (List.filter_eq_nil_iff.mpr fun c' hm he => hc ?_)
  exact List.mem_map.mpr ⟨c', hm, of_decide_eq_true he⟩

theorem statuses_eq_singleton {status : Word} (hc : (c, status) ∈ turn.completions) :
    turn.statuses c = [status] := by
  have hn := turn.nodup_completions
  unfold statuses
  generalize turn.completions = cs at hc hn
  induction cs with
  | nil => cases hc
  | cons c' cs ih =>
    obtain ⟨hnew, hn⟩ := List.nodup_cons.mp hn
    rcases List.mem_cons.mp hc with rfl | hc
    · have hnone : cs.filter (·.1 = c) = [] :=
        List.filter_eq_nil_iff.mpr fun c' hm he =>
          hnew (List.mem_map.mpr ⟨c', hm, of_decide_eq_true he⟩)
      simp [hnone]
    · have hne : c'.1 ≠ c := fun e => hnew (List.mem_map.mpr ⟨_, hc, e.symm⟩)
      simp [hne, ih hc hn]

section
variable {v w : View} {p : Handle} {rest : List Handle} {x : SavedState}

theorem delivered_eq_nil (h : turn.before.kernel.Sound v) (ht : turn.after.kernel.Sound w)
    (hwaiting : ∀ p ∈ turn.waiting c, p ∈ w.queue (.semaphore c.key))
    (hstay : ∀ p ∈ v.queue (.semaphore c.key), p ∈ w.queue (.semaphore c.key)) :
    turn.delivered c = [] := by
  have hcaller : ((turn.waiting c).filter fun p => !turn.after.kernel.table.waitsOn c.key p) = [] :=
    List.filter_eq_nil_iff.mpr fun p hp hn => by
      simp [ht.waitsOn_iff_mem.mpr (hwaiting p hp)] at hn
  have hothers : ((turn.before.kernel.table.blockedOn c.key).filter
      fun p => !turn.after.kernel.table.waitsOn c.key p) = [] :=
    List.filter_eq_nil_iff.mpr fun p hp hn => by
      simp [ht.waitsOn_iff_mem.mpr (hstay p (h.mem_blockedOn.mp hp))] at hn
  rw [delivered, hcaller, hothers]
  rfl

theorem delivered_of_load (h : turn.before.kernel.Sound v) (ht : turn.after.kernel.Sound w)
    (hwaiting : turn.waiting c = [p]) (hp : p ∉ w.queue (.semaphore c.key))
    (hstay : ∀ p ∈ v.queue (.semaphore c.key), p ∈ w.queue (.semaphore c.key))
    (hd : turn.dispatch = .load x) : turn.delivered c = [(p, x.register .v0)] := by
  have hgoes : turn.after.kernel.table.waitsOn c.key p = false := by
    rwa [← Bool.not_eq_true, ht.waitsOn_iff_mem]
  have hothers : ((turn.before.kernel.table.blockedOn c.key).filter
      fun p => !turn.after.kernel.table.waitsOn c.key p) = [] :=
    List.filter_eq_nil_iff.mpr fun p hp hn => by
      simp [ht.waitsOn_iff_mem.mpr (hstay p (h.mem_blockedOn.mp hp))] at hn
  rw [delivered, hothers, hwaiting, hd]
  simp [hgoes, Dispatch.state?]

theorem delivered_of_wake (h : turn.before.kernel.Sound v) (ht : turn.after.kernel.Sound w)
    (hwaiting : turn.waiting c = []) (hq : v.queue (.semaphore c.key) = p :: rest)
    (hw : w.queue (.semaphore c.key) = rest) (hx : (w.process p).map (·.state) = some x) :
    turn.delivered c = [(p, x.register .v0)] := by
  have hn := h.arranged.shows.nodup_queue (.semaphore c.key)
  rw [hq, List.nodup_cons] at hn
  have hperm := (h.blockedOn_perm c.key).filter fun p => !turn.after.kernel.table.waitsOn c.key p
  have hgone : turn.after.kernel.table.waitsOn c.key p = false := by
    rw [← Bool.not_eq_true, ht.waitsOn_iff_mem, hw]
    exact hn.1
  have hrest : (rest.filter fun p => !turn.after.kernel.table.waitsOn c.key p) = [] :=
    List.filter_eq_nil_iff.mpr fun q hq hn => by
      simp [ht.waitsOn_iff_mem.mpr (hw ▸ hq : q ∈ w.queue (.semaphore c.key))] at hn
  rw [hq, List.filter_cons_of_pos (by simp [hgone]), hrest] at hperm
  rw [ht.state_eq] at hx
  obtain ⟨d, hd, rfl⟩ := Option.map_eq_some_iff.mp hx
  rw [delivered, hwaiting, List.perm_singleton.mp hperm]
  simp [hd]

end

end Turn

namespace History
variable {timing : Timing} {machine : Machine} {first : SavedState} {history past : List Turn}
variable {s t : Computer} {v w : View} {m : Machine} {saved : SavedState} {d : Dispatch}
variable {c : Channel} {p : Handle} {r : Request}

/-- As many wait as units are missing, while nobody is lost. -/
theorem length_queue (h : History timing machine first history s v) (hc : c ≠ .clock)
    (hlength : history.length ≤ 2147483648) (hlost : ∀ turn ∈ history, turn.lost c.key = 0) :
    ((v.queue (.semaphore c.key)).length : Int) = max 0 (-(s.kernel.channels.get c).toInt) := by
  rw [← (h.sound.blockedOn_perm c.key).length_eq]
  exact (h.awaits hc hlength).length_eq hlost

theorem queue_of_wait (h : History timing machine first past s v) (hc : c ≠ .clock)
    (hlength : past.length ≤ 2147483648) (ht : t.kernel.Sound w)
    (heffect : ((s.onMachine m).scene v).Effect saved d (t.scene w))
    (hserved : saved.served? s.kernel.current = some (p, r)) (hr : r.channel? = some c) :
    w.queue (.semaphore c.key) =
      if (s.kernel.channels.get c).toInt ≤ 0 then v.queue (.semaphore c.key) ++ [p]
      else v.queue (.semaphore c.key) := by
  have hσ := h.sceneSound m
  have hiff := h.waitsOn_iff_channel_nonpos hc hlength ht heffect hserved hr
  have hp : p ∉ v.queue (.semaphore c.key) :=
    hσ.notMem_queue (SavedState.served?_eq_some.mp hserved).2 _
  have hstep := heffect.step hσ (Scene.isQuiet_key hc) fun hn => by simp at hn
  have htaken : ((s.onMachine m).scene v).taken saved c.key = 1 := by
    have hany : (saved.served? ((s.onMachine m).scene v).current).any
        (·.2.taken? = some c.key) := by
      have hserved' : saved.served? ((s.onMachine m).scene v).current = some (p, r) := hserved
      simp [hserved', Request.taken?_of_channel? hr]
    exact if_pos hany
  rw [htaken] at hstep
  obtain ⟨p', htake⟩ := hstep.eq_take
  have hsemaphore : ((s.onMachine m).scene v).semaphore c.key =
      ⟨s.kernel.channels.get c, v.queue (.semaphore c.key)⟩ := (s.onMachine m).semaphore_channel v c
  rw [hsemaphore] at htake
  have hqueue : w.queue (.semaphore c.key) =
      if 0 ≤ s.kernel.channels.get c - 1 then v.queue (.semaphore c.key)
      else v.queue (.semaphore c.key) ++ [p'] := congrArg Semaphore.waiters htake
  rw [ht.waitsOn_iff_mem] at hiff
  by_cases hv : (s.kernel.channels.get c).toInt ≤ 0
  · have hmem := hiff.mpr hv
    rw [if_pos hv]
    split at hqueue
    · exact (hp (hqueue ▸ hmem)).elim
    · rw [hqueue, List.mem_append, List.mem_singleton] at hmem
      rw [hqueue, hmem.resolve_left hp]
  · rw [hqueue, if_pos (Semaphore.zero_le_sub_one (by omega)), if_neg hv]

theorem load_of_unit (h : History timing machine first past s v)
    (heffect : ((s.onMachine m).scene v).Effect saved d (t.scene w))
    (hserved : saved.served? s.kernel.current = some (p, r)) (hr : r.channel? = some c)
    (hv : ¬(s.kernel.channels.get c).toInt ≤ 0) :
    ∃ x, d = .load x ∧ x.register .v0 = s.kernel.banked.get c := by
  obtain ⟨y, hy, _⟩ := h.sound.running p (SavedState.served?_eq_some.mp hserved).2
  generalize hcaller : (((s.onMachine m).scene v).setState p fun _ => saved.pastInstruction) = σ
  have hserve : σ.Served p r d (t.scene w) := hcaller ▸ heffect.of_served hserved
  have hstate : (σ.state? p).isSome := by
    rw [← hcaller, Scene.state?_setState, if_pos rfl, Option.isSome_map, Scene.state?,
      Option.isSome_map]
    exact Option.isSome_iff_exists.mpr ⟨y, hy⟩
  have hunit : 0 ≤ σ.value c.key - 1 := by
    rw [Scene.value_channel, ← hcaller]
    exact Semaphore.zero_le_sub_one (Int.not_le.mp hv)
  obtain ⟨x, hd, hx⟩ := hserve.consumes hstate hr hunit
  exact ⟨x, hd, by rw [hx, ← hcaller]; rfl⟩

theorem banked_of_nobody (h : History timing machine first past s v) (hc : c ≠ .clock)
    (hlength : past.length < 2147483648) (hlost : ∀ turn ∈ past, turn.lost c.key = 0)
    (heffect : ((s.onMachine m).scene v).Effect saved d (t.scene w)) {status : Word}
    (hmem : (c, status) ∈ saved.completions m) (hq : v.queue (.semaphore c.key) = []) :
    t.kernel.banked.get c = status := by
  have hzero := h.length_queue hc hlength.le hlost
  rw [hq, List.length_nil] at hzero
  have hvalue := (h.awaits hc hlength.le).value
  have hunits := h.units_lt c
  rw [Turn.sum_given_channel] at hunits
  have hover : ¬((s.onMachine m).scene v).value c.key + 1 ≤ 0 := by
    have hchannel : ((s.onMachine m).scene v).value c.key = s.kernel.channels.get c :=
      Scene.value_channel _ c
    rw [hchannel, Int32.le_iff_toInt_le, Semaphore.toInt_add_one (by omega), Int32.toInt_zero]
    omega
  exact heffect.banked_of_completion (h.sceneSound m) hmem hover

section
variable {turn : Turn} (hturn : Turn.mk (s.onMachine m) (.exception saved) d t = turn)
variable (h : History timing machine first past s v) (hc : c ≠ .clock)
  (hlength : past.length < 2147483648)
variable (hlost : ∀ turn ∈ past, turn.lost c.key = 0) (ht : t.kernel.Sound w)
variable (heffect : ((s.onMachine m).scene v).Effect saved d (t.scene w))
include hturn h hc hlength hlost ht heffect

omit hlost in
theorem blocks (hserved : turn.served? = some (p, r)) (hr : r.channel? = some c)
    (hv : (s.kernel.channels.get c).toInt ≤ 0) :
    w.queue (.semaphore c.key) = v.queue (.semaphore c.key) ++ [p] ∧ turn.delivered c = [] := by
  have hbefore : turn.before.kernel.Sound v := hturn ▸ h.sound
  have hafter : turn.after.kernel.Sound w := hturn ▸ ht
  have hserved' : saved.served? s.kernel.current = some (p, r) := by
    rw [← hturn] at hserved
    exact hserved
  have hjoin : w.queue (.semaphore c.key) = v.queue (.semaphore c.key) ++ [p] :=
    (h.queue_of_wait hc hlength.le ht heffect hserved' hr).trans (if_pos hv)
  refine ⟨hjoin, Turn.delivered_eq_nil hbefore hafter ?_ fun q hq => ?_⟩
  · simp [Turn.waiting_eq_singleton hserved hr, hjoin]
  · simp [hjoin, hq]

omit hlost in
theorem wakes_first {status : Word} (hmem : (c, status) ∈ turn.completions) :
    w.queue (.semaphore c.key) = (v.queue (.semaphore c.key)).tail ∧
      turn.delivered c = (v.queue (.semaphore c.key)).zip [status] := by
  have hbefore : turn.before.kernel.Sound v := hturn ▸ h.sound
  have hafter : turn.after.kernel.Sound w := hturn ▸ ht
  have hmem' : (c, status) ∈ saved.completions m := by
    rw [← hturn] at hmem
    exact hmem
  have hwaiting := Turn.waiting_eq_nil_of_mem hmem
  have hqueue := h.queue_of_completion hc hlength.le heffect hmem'
  refine ⟨hqueue, ?_⟩
  cases hq : v.queue (.semaphore c.key) with
  | nil => exact Turn.delivered_eq_nil hbefore hafter (by simp [hwaiting]) (by simp [hq])
  | cons p rest =>
    rw [hq] at hqueue
    obtain ⟨e, he, _⟩ := (h.sound.arranged.wf.mem_queue _ p).mp (by rw [hq]; simp)
    have hstate := h.state_of_completion hc hlength.le heffect hmem' hq
    rw [he, Option.map_some] at hstate
    rw [Turn.delivered_of_wake hbefore hafter hwaiting hq hqueue hstate, SavedState.setV0,
      SavedState.register_setRegister, if_pos rfl, List.zip_cons_cons, List.zip_nil_right]

theorem handover_wait (hserved : turn.served? = some (p, r)) (hr : r.channel? = some c) :
    Handover (s.kernel.channels.get c).toInt (v.queue (.semaphore c.key))
      (s.kernel.banked.get c) [p] []
      (turn.delivered c) (w.queue (.semaphore c.key)) (t.kernel.banked.get c) := by
  by_cases hv : (s.kernel.channels.get c).toInt ≤ 0
  · obtain ⟨hjoin, hnone⟩ := blocks hturn h hc hlength ht heffect hserved hr hv
    rw [hjoin, hnone]
    exact .block p _ hv
  · have hbefore : turn.before.kernel.Sound v := hturn ▸ h.sound
    have hafter : turn.after.kernel.Sound w := hturn ▸ ht
    have hserved' : saved.served? s.kernel.current = some (p, r) := by
      rw [← hturn] at hserved
      exact hserved
    have hzero := h.length_queue hc hlength.le hlost
    have hempty : v.queue (.semaphore c.key) = [] := List.eq_nil_of_length_eq_zero (by omega)
    have hqueue := h.queue_of_wait hc hlength.le ht heffect hserved' hr
    have hkeep : w.queue (.semaphore c.key) = [] := (hqueue.trans (if_neg hv)).trans hempty
    obtain ⟨x, hd, hx⟩ := h.load_of_unit heffect hserved' hr hv
    have hload : turn.delivered c = [(p, x.register .v0)] :=
      Turn.delivered_of_load hbefore hafter (Turn.waiting_eq_singleton hserved hr) (by simp [hkeep])
        (by simp [hempty]) (hturn ▸ hd)
    rw [hkeep, hload, hx]
    exact .consume p _ (by omega) hempty

theorem handover_completion {status : Word} (hmem : (c, status) ∈ turn.completions) :
    Handover (s.kernel.channels.get c).toInt (v.queue (.semaphore c.key))
      (s.kernel.banked.get c) [] [status]
      (turn.delivered c) (w.queue (.semaphore c.key)) (t.kernel.banked.get c) := by
  have hmem' : (c, status) ∈ saved.completions m := by
    rw [← hturn] at hmem
    exact hmem
  obtain ⟨hqueue, hanswers⟩ := wakes_first hturn h hc hlength ht heffect hmem
  rw [hqueue, hanswers]
  cases hq : v.queue (.semaphore c.key) with
  | cons p rest =>
    rw [List.zip_cons_cons, List.zip_nil_right]
    exact .wake p rest status _ rfl
  | nil =>
    rw [h.banked_of_nobody hc hlength hlost heffect hmem' hq]
    exact .keep status rfl

omit hlength hlost in
theorem handover_other (hnow : turn.lost c.key = 0)
    (hserved : ∀ p r, turn.served? = some (p, r) → r.channel? ≠ some c)
    (hcs : c ∉ turn.completions.map (·.1)) :
    Handover (s.kernel.channels.get c).toInt (v.queue (.semaphore c.key))
      (s.kernel.banked.get c) [] []
      (turn.delivered c) (w.queue (.semaphore c.key)) (t.kernel.banked.get c) := by
  have hbefore : turn.before.kernel.Sound v := hturn ▸ h.sound
  have hafter : turn.after.kernel.Sound w := hturn ▸ ht
  have hwaiting : turn.waiting c = [] := Turn.waiting_eq_nil hserved
  have htaken : turn.taken c.key = 0 := by
    rw [Turn.taken_channel, ← Turn.length_waiting, hwaiting, List.length_nil]
  have hgiven : turn.given c.key = 0 := by
    rw [Turn.given_channel, List.countP_eq_zero]
    exact fun c' hm he => hcs (List.mem_map.mpr ⟨c', hm, of_decide_eq_true he⟩)
  rw [← hturn] at htaken hgiven hserved hcs hnow
  have hstep := heffect.step (h.sceneSound m) (Scene.isQuiet_key hc) fun hn => by simp at hn
  have htaken' : ((s.onMachine m).scene v).taken saved c.key = 0 := htaken
  have hgiven' : ((s.onMachine m).scene v).given saved c.key = 0 := hgiven
  rw [htaken', hgiven'] at hstep
  have hself := hstep.eq_self
    ((lost_eq (s := s.onMachine m) h.sound ht (.exception saved) d c.key).symm.trans hnow)
  have hqueue : w.queue (.semaphore c.key) = v.queue (.semaphore c.key) :=
    congrArg Semaphore.waiters hself
  have hbanked : t.kernel.banked.get c = s.kernel.banked.get c := heffect.banked hserved hcs
  have hnone : turn.delivered c = [] :=
    Turn.delivered_eq_nil hbefore hafter (by simp [hwaiting]) (by simp [hqueue])
  rw [hqueue, hbanked, hnone]
  exact .pass

/-- A turn hands over in one of the ways there are. -/
theorem handover (hnow : turn.lost c.key = 0) :
    Handover (s.kernel.channels.get c).toInt (v.queue (.semaphore c.key)) (s.kernel.banked.get c)
      (turn.waiting c) (turn.statuses c) (turn.delivered c) (w.queue (.semaphore c.key))
      (t.kernel.banked.get c) := by
  by_cases hwait : ∃ p r, turn.served? = some (p, r) ∧ r.channel? = some c
  · obtain ⟨p, r, hserved, hr⟩ := hwait
    rw [Turn.waiting_eq_singleton hserved hr,
      Turn.statuses_eq_nil (by simp [Turn.completions_eq_nil hserved])]
    exact handover_wait hturn h hc hlength hlost ht heffect hserved hr
  · have hserved : ∀ p r, turn.served? = some (p, r) → r.channel? ≠ some c :=
      fun p r hpr hr => hwait ⟨p, r, hpr, hr⟩
    rw [Turn.waiting_eq_nil hserved]
    by_cases hcs : c ∈ turn.completions.map (·.1)
    · obtain ⟨⟨c, status⟩, hmem, rfl⟩ := List.mem_map.mp hcs
      rw [Turn.statuses_eq_singleton hmem]
      exact handover_completion hturn h hc hlength hlost ht heffect hmem
    · rw [Turn.statuses_eq_nil hcs]
      exact handover_other hturn h hc ht heffect hnow hserved hcs

end

theorem start_delivered (hc : c ≠ .clock) (ht : t.kernel.Sound w) {p : Handle}
    (hboot : t.scene w = .boot timing machine p first) : w.queue (.semaphore c.key) = [] ∧
      (Turn.mk (.initial timing machine) (.start first) (.load first) t).delivered c = [] := by
  have hqueue : w.queue (.semaphore c.key) = [] := congrArg Semaphore.waiters
    ((congrArg (Scene.semaphore · c.key) hboot).trans (semaphore_boot (Scene.isQuiet_key hc) p))
  refine ⟨hqueue, Turn.delivered_eq_nil (Kernel.sound_initial timing) ht ?_ ?_⟩
  · simp [Turn.waiting, Turn.served?]
  · simp [View.empty]

/-- All who have been served a wait are answered or stand in the queue, in this order. -/
theorem callers (h : History timing machine first history s v) (hc : c ≠ .clock)
    (hlength : history.length ≤ 2147483648) (hlost : ∀ turn ∈ history, turn.lost c.key = 0) :
    chronicle (·.waiting c) history =
      (chronicle (·.delivered c) history).map (·.1) ++ v.queue (.semaphore c.key) := by
  induction h with
  | @start t w p ht hs hboot =>
    obtain ⟨hqueue, hnone⟩ := start_delivered hc ht hboot
    have hwaiting : (Turn.mk (.initial timing machine) (.start first) (.load first) t).waiting c =
        [] := rfl
    rw [chronicle_cons, chronicle_cons, hwaiting, hnone, hqueue]
    rfl
  | @next past s t v w m saved d h ht hs heffect ih =>
    rw [List.length_cons] at hlength
    rw [chronicle_cons, chronicle_cons]
    obtain ⟨hnow, hpast⟩ := List.forall_mem_cons.mp hlost
    exact (handover rfl h hc (by omega) hpast ht heffect hnow).callers (ih (by omega) hpast)

theorem channel_eq (h : History timing machine first history s v) (hc : c ≠ .clock)
    (hlength : history.length ≤ 2147483648) : (s.kernel.channels.get c).toInt =
      (chronicle (·.statuses c) history).length - (chronicle (·.waiting c) history).length := by
  rw [Turn.length_chronicle_waiting, Turn.length_chronicle_statuses]
  exact (h.awaits hc hlength).value

theorem length_delivered (h : History timing machine first history s v) (hc : c ≠ .clock)
    (hlength : history.length ≤ 2147483648) (hlost : ∀ turn ∈ history, turn.lost c.key = 0) :
    (chronicle (·.delivered c) history).length =
      min (chronicle (·.waiting c) history).length (chronicle (·.statuses c) history).length := by
  have hvalue := h.channel_eq hc hlength
  have hqueue := h.length_queue hc hlength hlost
  have hcallers := congrArg List.length (h.callers hc hlength hlost)
  rw [List.length_append, List.length_map] at hcallers
  omega

/-- From a time when no completion is ahead, those in the queue and those who come are matched with
what is reported, as long as never more than one completion gets ahead. -/
theorem matched {recent past : List Turn} (h : History timing machine first (recent ++ past) s v)
    (hc : c ≠ .clock) (hlength : (recent ++ past).length ≤ 2147483648)
    (hlost : ∀ turn ∈ recent ++ past, turn.lost c.key = 0)
    (hlevel : ∀ turn ∈ past.head?, (turn.after.kernel.channels.get c).toInt ≤ 0)
    (hahead : ∀ turn ∈ recent, (turn.after.kernel.channels.get c).toInt ≤ 1) :
    ∃ queue, chronicle (·.waiting c) past = (chronicle (·.delivered c) past).map (·.1) ++ queue ∧
      (chronicle (·.delivered c) past).length = (chronicle (·.statuses c) past).length ∧
      Matched (queue ++ chronicle (·.waiting c) recent) (chronicle (·.statuses c) recent)
        (v.queue (.semaphore c.key)) (s.kernel.banked.get c)
          (chronicle (·.delivered c) recent) := by
  induction recent generalizing s v with
  | nil =>
    refine ⟨v.queue (.semaphore c.key), h.callers hc hlength hlost, ?_, ?_⟩
    · obtain ⟨turn, past, rfl, rfl⟩ := h.exists_last
      have hvalue := h.channel_eq hc hlength
      have hzero := hlevel turn rfl
      have hanswered := h.length_delivered hc hlength hlost
      simp only [List.nil_append] at hanswered hvalue
      omega
    · rw [show chronicle (·.waiting c) [] = [] from rfl, List.append_nil]
      exact .idle _ _
  | cons latest recent ih =>
    rw [List.cons_append] at h hlost
    rw [List.length_append, List.length_cons] at hlength
    have hnow := h.channel_eq hc (by simpa using by omega)
    obtain ⟨hone, hrecent⟩ := List.forall_mem_cons.mp hahead
    rw [← h.last] at hone
    generalize hwhole : recent ++ past = whole at h
    cases h with
    | @start t w p ht hs hboot =>
      obtain ⟨rfl, rfl⟩ := List.append_eq_nil_iff.mp hwhole
      obtain ⟨hqueue, hnone⟩ := start_delivered hc ht hboot
      refine ⟨[], rfl, rfl, ?_⟩
      rw [chronicle_cons, chronicle_cons, chronicle_cons, hqueue, hnone]
      exact .idle [] _
    | @next _ s t v w m saved d h ht hs heffect =>
      subst hwhole
      obtain ⟨hlatest, hlost⟩ := List.forall_mem_cons.mp hlost
      obtain ⟨queue, hcallers, hanswered, hmatched⟩ := ih h (by simpa using by omega) hlost hrecent
      have hstep := handover rfl h hc (by simpa using by omega) hlost ht heffect hlatest
      have hvalue := h.channel_eq hc (by simpa using by omega)
      refine ⟨queue, hcallers, hanswered, ?_⟩
      rw [chronicle_cons, chronicle_cons, chronicle_cons, ← List.append_assoc]
      have hpast := congrArg List.length hcallers
      simp only [chronicle_cons, chronicle_append, List.length_append,
        List.length_map] at hvalue hnow hpast
      refine hmatched.step hstep ?_ ?_
      · rw [List.length_append]
        omega
      · simp only [List.length_append]
        omega

theorem delivers {turn : Turn} (h : History timing machine first (turn :: past) s v)
    (hc : c ≠ .clock) (hlength : past.length < 2147483648)
    (hlost : ∀ t ∈ turn :: past, t.lost c.key = 0) : Delivers c (turn :: past) := by
  have hle : (turn :: past).length ≤ 2147483648 := hlength
  refine ⟨?_, fun recent earlier he hlevel hahead => ?_⟩
  · have hcallers := h.callers hc hle hlost
    have hanswered := h.length_delivered hc hle hlost
    have htake := congrArg (List.take (chronicle (·.delivered c) (turn :: past)).length) hcallers
    rw [List.take_left' (List.length_map _)] at htake
    rw [← htake, hanswered, Nat.min_comm, ← List.take_eq_take_min]
  · rw [← he] at h hle hlost ⊢
    obtain ⟨queue, hcallers, hanswered, hmatched⟩ := h.matched hc hle hlost hlevel hahead
    rw [hmatched.eq_zip, chronicle_append, hcallers, ← hanswered, List.append_assoc,
      List.drop_left' (List.length_map _)]

end History

/-- In a run of one start and fewer exceptions than its integer can count, the completions of a
device reach those who wait for it while nobody ends in its queue. -/
theorem Computer.turns_deliver (timing : Timing) (machine : Machine) (first : SavedState)
    (calls : List (Machine × SavedState)) (hcalls : calls.length < 2147483648) {c : Channel}
    (hc : c.val < 48) :
    ∃ turns, (initial timing machine).turns
        ((machine, .start first) :: calls.map fun call => (call.1, .exception call.2)) = .ok turns ∧
      ∀ turn past, turn :: past <:+ turns.reverse → (∀ t ∈ turn :: past, t.lost c.key = 0) →
        Delivers c (turn :: past) := by
  obtain ⟨turns, hrun, hhistory⟩ := turns_history timing machine first calls
  refine ⟨turns, hrun, fun turn past hsuffix hlost => ?_⟩
  obtain ⟨hlength, w, hw⟩ := hhistory turn past hsuffix
  exact hw.delivers (Channel.ne_clock_of_lt hc) (by omega) hlost

/-- The first disk reports, somebody asks for it twice, and it reports again. -/
def punctualRun : List (Machine × SavedState) :=
  [(Machine.initial.raise 3 0 5, { cause := 0x800 }), (.initial, Computer.asking 5 3),
    (.initial, Computer.asking 5 3), (Machine.initial.raise 3 0 517, { cause := 0x800 })]

/-- Both ways to be answered, with the right statuses. -/
theorem Computer.punctualRun_delivers : punctualRun.length < 2147483648 ∧ (0 : Channel).val < 48 ∧
    ∃ turns, (initial {} .initial).turns
        ((.initial, .start {}) :: punctualRun.map fun call => (call.1, .exception call.2)) =
          .ok turns ∧
      (∀ turn ∈ turns, turn.lost (0 : Channel).key = 0) ∧
      (∀ turn ∈ turns, (turn.after.kernel.channels.get 0).toInt ≤ 1) ∧
      (chronicle (·.delivered 0) turns.reverse).map (·.2) = [5, 517] ∧
      ∀ turn past, turn :: past <:+ turns.reverse →
        (∀ t ∈ turn :: past, t.lost (0 : Channel).key = 0) → Delivers 0 (turn :: past) := by
  obtain ⟨turns, hrun, h⟩ := turns_deliver {} .initial {} punctualRun (by decide)
    (c := 0) (by decide)
  refine ⟨by decide, by decide, turns, hrun, ?_, ?_, ?_, h⟩
  all_goals
    rw [turns_eq_getD hrun]
    decide +kernel

/-- The first disk reports twice before somebody asks for it twice. -/
def overrun : List (Machine × SavedState) :=
  [(Machine.initial.raise 3 0 5, { cause := 0x800 }),
    (Machine.initial.raise 3 0 517, { cause := 0x800 }),
    (.initial, Computer.asking 5 3), (.initial, Computer.asking 5 3)]

/-- The first wait is answered with the second status, and the second one with none. -/
theorem Computer.overrun_delivers_last :
    ∃ turns, (initial {} .initial).turns
        ((.initial, .start {}) :: overrun.map fun call => (call.1, .exception call.2)) = .ok turns ∧
      (∀ turn ∈ turns, turn.lost (0 : Channel).key = 0) ∧
      chronicle (·.statuses 0) turns.reverse = [5, 517] ∧
      (chronicle (·.waiting 0) turns.reverse).length = 2 ∧
      (chronicle (·.delivered 0) turns.reverse).map (·.2) = [517, 0] := by
  obtain ⟨turns, hrun, _⟩ := turns_history {} .initial {} overrun
  refine ⟨turns, hrun, ?_⟩
  rw [turns_eq_getD hrun]
  decide +kernel

end Nucleus
