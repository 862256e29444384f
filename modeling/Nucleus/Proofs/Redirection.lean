import Nucleus.Proofs.Delivery

/-!
# Waiters that end

A process that ends in the queue of a device leaves the integer as it is, because its completion
will still arrive. When it does, it answers whoever stands first then: everybody who stood behind
the process that ended, or came later, is answered with the status of an earlier completion than
their own, and it is the last completion that finds nobody. Only those who stood ahead are sure to
find what they would have found anyway.
-/
namespace Nucleus

section
variable {α β : Type} {queue came : List α} {reports more : List β}

/-- The pairs of a longer queue and more reports, when the reports so
far did not exhaust the queue. -/
theorem zip_append_of_length_le (h : reports.length ≤ queue.length) :
    (queue ++ came).zip (reports ++ more) =
      queue.zip reports ++ (queue.drop reports.length ++ came).zip more := by
  have htake : (queue.take reports.length).length = reports.length := List.length_take_of_le h
  have hpairs : queue.zip reports = (queue.take reports.length).zip reports := by
    have hzip : (queue.take reports.length ++ queue.drop reports.length).zip (reports ++ []) =
        (queue.take reports.length).zip reports ++ (queue.drop reports.length).zip [] :=
          List.zip_append htake
    simpa using hzip
  conv_lhs => rw [← List.take_append_drop reports.length queue, List.append_assoc]
  rw [List.zip_append htake, hpairs]

theorem drop_append_of_length_le (h : reports.length ≤ queue.length) :
    (queue ++ came).drop (reports ++ more).length =
      (queue.drop reports.length ++ came).drop more.length := by
  rw [List.length_append, ← List.drop_drop, List.drop_append_of_le_length h]

theorem take_zip_append (first behind : List α) (reports : List β) :
    ((first ++ behind).zip reports).take first.length = first.zip (reports.take first.length) := by
  rw [List.zip, List.take_zipWith, List.take_left]

theorem filter_zip_append {first gone : List α} {stays : α → Bool} (hfirst : ∀ a ∈ first, stays a)
    (hgone : ∀ a ∈ gone, stays a = false) :
    ((first ++ gone).zip reports).filter (stays ·.1) = first.zip reports := by
  induction first generalizing reports with
  | nil =>
    refine List.filter_eq_nil_iff.mpr fun pair hm => ?_
    simp [hgone pair.1 (List.of_mem_zip hm).1]
  | cons a first ih =>
    cases reports with
    | nil => rfl
    | cons report reports =>
      have hrest := @ih reports fun b hb => hfirst b (List.mem_cons_of_mem a hb)
      have ha : stays (a, report).1 := hfirst a List.mem_cons_self
      rw [List.cons_append, List.zip_cons_cons, List.filter_cons, if_pos ha, hrest,
        List.zip_cons_cons]

end

/-- How the completions of a device reach those who wait for it once some of the `queue` have ended
in the turn `turn`: what the turns since then, the `recent` ones, bring to whom. -/
structure Redirects (c : Channel) (turn : Turn) (queue : List Handle) (recent : List Turn) :
    Prop where
  /-- Whoever is left and whoever comes is answered in turn, by the next completion there is. -/
  delivered : chronicle (·.delivered c) recent = (queue.filter turn.after.kernel.table.isLive ++
    chronicle (·.waiting c) recent).zip (chronicle (·.statuses c) recent)
  /-- Whoever has not been answered waits on. -/
  waiters : ∀ latest ∈ (recent ++ [turn]).head?, latest.after.kernel.store.waiters c.key =
    .ok ((queue.filter turn.after.kernel.table.isLive ++ chronicle (·.waiting c) recent).drop
      (chronicle (·.statuses c) recent).length)
  /-- Those who stood ahead of everybody who ended find what they would have found. -/
  ahead : ∀ first behind, queue = first ++ behind →
    (∀ p ∈ first, turn.after.kernel.table.isLive p) →
    (chronicle (·.delivered c) recent).take first.length =
      ((queue ++ chronicle (·.waiting c) recent).zip (chronicle (·.statuses c) recent)).take
        first.length
  /-- When those who ended stood last and nobody came, everybody finds
  what they would have found. -/
  last : ∀ first gone, queue = first ++ gone → (∀ p ∈ first, turn.after.kernel.table.isLive p) →
    (∀ p ∈ gone, turn.after.kernel.table.isLive p = false) → chronicle (·.waiting c) recent = [] →
    chronicle (·.delivered c) recent =
      (queue.zip (chronicle (·.statuses c) recent)).filter (turn.after.kernel.table.isLive ·.1)

namespace History
variable {timing : Timing} {machine : Machine} {first : SavedState} {past recent : List Turn}
  {turn : Turn}
variable {s t : Computer} {v w : View} {m : Machine} {saved : SavedState} {d : Dispatch}
  {c : Channel}

section
variable (hturn : Turn.mk (s.onMachine m) (.exception saved) d t = turn)
variable (h : History timing machine first past s v) (hc : c ≠ .clock)
  (hlength : past.length < 2147483648)
variable (ht : t.kernel.Sound w) (heffect : ((s.onMachine m).scene v).Effect saved d (t.scene w))
include hturn h hc hlength ht heffect

/-- While nobody finds a unit and nobody ends, one turn answers the queue and the caller in turn. -/
theorem answers_in_turn (hv : (s.kernel.channels.get c).toInt ≤ 0) (hnow : turn.lost c.key = 0) :
    turn.delivered c = (v.queue (.semaphore c.key) ++ turn.waiting c).zip (turn.statuses c) ∧
      w.queue (.semaphore c.key) =
        (v.queue (.semaphore c.key) ++ turn.waiting c).drop (turn.statuses c).length := by
  by_cases hwait : ∃ p r, turn.served? = some (p, r) ∧ r.channel? = some c
  · obtain ⟨p, r, hserved, hr⟩ := hwait
    obtain ⟨hjoin, hnone⟩ := blocks hturn h hc hlength ht heffect hserved hr hv
    rw [Turn.waiting_eq_singleton hserved hr,
      Turn.statuses_eq_nil (by simp [Turn.completions_eq_nil hserved])]
    exact ⟨by simp [hnone], hjoin⟩
  · have hserved : ∀ p r, turn.served? = some (p, r) → r.channel? ≠ some c :=
      fun p r hpr hr => hwait ⟨p, r, hpr, hr⟩
    rw [Turn.waiting_eq_nil hserved, List.append_nil]
    by_cases hcs : c ∈ turn.completions.map (·.1)
    · obtain ⟨⟨c, status⟩, hmem, rfl⟩ := List.mem_map.mp hcs
      obtain ⟨hqueue, hanswers⟩ := wakes_first hturn h hc hlength ht heffect hmem
      rw [Turn.statuses_eq_singleton hmem]
      exact ⟨hanswers, by simp [hqueue]⟩
    · have hpass := handover_other hturn h hc ht heffect hnow hserved hcs
      rw [Turn.statuses_eq_nil hcs, List.zip_nil_right]
      exact hpass.eq_self

omit hlength in
/-- Those who end are gone from the queue, and nothing else happens to the semaphore. -/
theorem queue_of_loss (hlost : turn.lost c.key ≠ 0) :
    w.queue (.semaphore c.key) = (v.queue (.semaphore c.key)).filter
      turn.after.kernel.table.isLive ∧
      (w.queue (.semaphore c.key)).length + turn.lost c.key = (v.queue (.semaphore c.key)).length ∧
      t.kernel.channels.get c = s.kernel.channels.get c := by
  subst hturn
  have hstep := heffect.step (h.sceneSound m) (Scene.isQuiet_key hc) fun hn => by simp at hn
  have hsame := lost_eq (s := s.onMachine m) h.sound ht (.exception saved) d c.key
  rw [← hsame] at hstep
  obtain ⟨-, -, dead, hcount, hlose⟩ := hstep.eq_lose hlost
  have hbefore : ((s.onMachine m).scene v).semaphore c.key =
      ⟨s.kernel.channels.get c, v.queue (.semaphore c.key)⟩ := (s.onMachine m).semaphore_channel v c
  rw [hbefore, t.semaphore_channel, Channel.slot?_key] at hlose
  have hvalue : t.kernel.channels.get c = s.kernel.channels.get c := congrArg Semaphore.value hlose
  have hqueue : w.queue (.semaphore c.key) = (v.queue (.semaphore c.key)).filter (!dead ·) :=
    congrArg Semaphore.waiters hlose
  have hgone :=
    Semaphore.length_lose ⟨s.kernel.channels.get c, v.queue (.semaphore c.key)⟩ true dead
  rw [hbefore] at hcount
  have hlength : (w.queue (.semaphore c.key)).length + _ = (v.queue (.semaphore c.key)).length :=
    (congrArg (·.length + _) hqueue).trans hgone
  rw [← hcount] at hlength
  refine ⟨?_, hlength, hvalue⟩
  -- whoever is left is live, and there are as many left as are live
  have hlive : (w.queue (.semaphore c.key)).filter t.kernel.table.isLive =
      w.queue (.semaphore c.key) := by
    refine List.filter_eq_self.mpr fun p hp => ?_
    obtain ⟨x, hx, _⟩ := (ht.arranged.wf.mem_queue _ p).mp hp
    rw [ht.isLive_eq, hx]
    rfl
  have hsub : (w.queue (.semaphore c.key)).Sublist
      ((v.queue (.semaphore c.key)).filter t.kernel.table.isLive) := by
    have hfilter : (w.queue (.semaphore c.key)).Sublist (v.queue (.semaphore c.key)) :=
      hqueue ▸ List.filter_sublist
    exact hlive ▸ hfilter.filter _
  refine hsub.eq_of_length ?_
  have hsplit := List.length_eq_length_filter_add
    (l := v.queue (.semaphore c.key)) t.kernel.table.isLive
  have hdead : (Turn.mk (s.onMachine m) (.exception saved) d t).lost c.key =
      ((v.queue (.semaphore c.key)).filter (!t.kernel.table.isLive ·)).length :=
    ((h.sound.blockedOn_perm c.key).countP_eq _).trans List.countP_eq_length_filter
  omega

end

theorem channel_since (h : History timing machine first (recent ++ turn :: past) s v)
    (hc : c ≠ .clock) (hlength : (recent ++ turn :: past).length ≤ 2147483648) :
    (s.kernel.channels.get c).toInt = (turn.after.kernel.channels.get c).toInt +
      (chronicle (·.statuses c) recent).length - (chronicle (·.waiting c) recent).length := by
  have hsuffix : turn :: past <:+ recent ++ turn :: past := List.suffix_append _ _
  obtain ⟨w, hw⟩ := h.of_suffix hsuffix
  have hnow := h.channel_eq hc hlength
  have hthen := hw.channel_eq hc (hsuffix.length_le.trans hlength)
  simp only [chronicle_append, List.length_append] at hnow
  omega

/-- From the turn in which some end, the queue and whoever comes are answered in turn, for as long
as the completions do not outnumber those who are left. -/
theorem redirected (h : History timing machine first (recent ++ turn :: past) s v) (hc : c ≠ .clock)
    (hlength : (recent ++ turn :: past).length ≤ 2147483648)
    (hpast : ∀ t ∈ past, t.lost c.key = 0) (hloss : turn.lost c.key ≠ 0)
    (hrecent : ∀ t ∈ recent, t.lost c.key = 0)
    (hlevel : ∀ t ∈ recent.tail, (t.after.kernel.channels.get c).toInt + turn.lost c.key ≤ 0) :
    ∃ queue, turn.before.kernel.store.waiters c.key = .ok queue ∧
      turn.after.kernel.channels.get c = turn.before.kernel.channels.get c ∧
      (queue.filter turn.after.kernel.table.isLive).length + turn.lost c.key = queue.length ∧
      (turn.before.kernel.channels.get c).toInt = -queue.length ∧
      chronicle (·.delivered c) recent = (queue.filter turn.after.kernel.table.isLive ++
        chronicle (·.waiting c) recent).zip (chronicle (·.statuses c) recent) ∧
      v.queue (.semaphore c.key) = (queue.filter turn.after.kernel.table.isLive ++
        chronicle (·.waiting c) recent).drop (chronicle (·.statuses c) recent).length := by
  induction recent generalizing s v with
  | nil =>
    rw [List.nil_append] at h hlength
    cases h with
    | start => exact (hloss (lost_start _ _)).elim
    | @next _ s t v w m saved d h ht hs heffect =>
      have hle : past.length ≤ 2147483648 := by
        rw [List.length_cons] at hlength
        omega
      obtain ⟨hqueue, hcount, hvalue⟩ := queue_of_loss rfl h hc ht heffect hloss
      have hwaiters := h.sound.arranged.waiters_eq c.key
      have hall := h.length_queue hc hle hpast
      refine ⟨v.queue (.semaphore c.key), hwaiters, hvalue, ?_, ?_, ?_, ?_⟩
      · rw [← hqueue]
        exact hcount
      · show (s.kernel.channels.get c).toInt = _
        omega
      · simp [chronicle]
      · simp [chronicle, hqueue]
  | cons latest recent ih =>
    rw [List.cons_append] at h hlength
    rw [List.length_cons] at hlength
    generalize hwhole : recent ++ turn :: past = whole at h
    cases h with
    | start => exact (by simp at hwhole)
    | @next _ s t v w m saved d h ht hs heffect =>
      subst hwhole
      obtain ⟨hnow, hrecent⟩ := List.forall_mem_cons.mp hrecent
      obtain ⟨queue, hwaiters, hvalue, hleft, hall, hdelivered, hqueue⟩ :=
        ih h (by omega) hrecent fun t ht => hlevel t (List.mem_of_mem_tail ht)
      -- the integer tells how many completions the survivors can still take
      have hroom : (s.kernel.channels.get c).toInt + turn.lost c.key ≤ 0 := by
        cases recent with
        | cons before recent => exact h.last ▸ hlevel before (by simp)
        | nil =>
          rw [h.last, hvalue]
          omega
      have hsince := h.channel_since hc (by omega)
      rw [hvalue] at hsince
      have hle : (chronicle (·.statuses c) recent).length ≤
        (queue.filter turn.after.kernel.table.isLive ++
          chronicle (·.waiting c) recent).length := by
        rw [List.length_append]
        omega
      obtain ⟨hanswers, hrest⟩ := answers_in_turn rfl h hc (by omega) ht heffect (by omega) hnow
      refine ⟨queue, hwaiters, hvalue, hleft, hall, ?_, ?_⟩
      · rw [chronicle_cons, chronicle_cons, chronicle_cons, ← List.append_assoc,
          zip_append_of_length_le hle, ← hqueue, hdelivered, hanswers]
      · rw [chronicle_cons, chronicle_cons, ← List.append_assoc,
          drop_append_of_length_le hle, ← hqueue, hrest]

theorem redirects (h : History timing machine first (recent ++ turn :: past) s v) (hc : c ≠ .clock)
    (hlength : (recent ++ turn :: past).length ≤ 2147483648) (hpast : ∀ t ∈ past, t.lost c.key = 0)
    (hloss : turn.lost c.key ≠ 0) (hrecent : ∀ t ∈ recent, t.lost c.key = 0)
    (hlevel : ∀ t ∈ recent.tail, (t.after.kernel.channels.get c).toInt + turn.lost c.key ≤ 0) :
    ∃ queue, turn.before.kernel.store.waiters c.key = .ok queue ∧
      Redirects c turn queue recent := by
  obtain ⟨queue, hwaiters, -, -, -, hdelivered, hqueue⟩ :=
    h.redirected hc hlength hpast hloss hrecent hlevel
  refine ⟨queue, hwaiters, hdelivered, fun latest hm => ?_, fun first behind hq hfirst => ?_,
    fun first gone hq hfirst hgone hnone => ?_⟩
  · have hlast : s = latest.after := by
      cases recent with
      | nil =>
        obtain rfl : turn = latest := by simpa using hm
        exact h.last
      | cons before recent =>
        obtain rfl : before = latest := by simpa using hm
        exact h.last
    rw [← hlast, ← hqueue]
    exact h.sound.arranged.waiters_eq c.key
  · have hstay : first.filter turn.after.kernel.table.isLive = first :=
      List.filter_eq_self.mpr hfirst
    rw [hdelivered, hq, List.filter_append, hstay, List.append_assoc,
      List.append_assoc, take_zip_append, take_zip_append]
  · have hstay : first.filter turn.after.kernel.table.isLive = first :=
      List.filter_eq_self.mpr hfirst
    have hend : gone.filter turn.after.kernel.table.isLive = [] :=
      List.filter_eq_nil_iff.mpr fun p hp => by simp [hgone p hp]
    rw [hdelivered, hnone, hq, List.append_nil, List.filter_append, hstay, hend, List.append_nil,
      filter_zip_append hfirst hgone]

end History

/-- In a run of one start and fewer exceptions than its integer can count, a turn in which
some of those who wait for a device end hands their completions to whoever stood behind them
or comes later. This is so as long as the completions since then do not outnumber those who
are left and those who came. -/
theorem Computer.turns_redirect (timing : Timing) (machine : Machine) (first : SavedState)
    (calls : List (Machine × SavedState)) (hcalls : calls.length < 2147483648) {c : Channel}
    (hc : c.val < 48) : ∃ turns, (initial timing machine).turns
        ((machine, .start first) :: calls.map fun call => (call.1, .exception call.2)) = .ok turns ∧
      ∀ (recent : List Turn) (turn : Turn) (past : List Turn),
        recent ++ turn :: past <:+ turns.reverse →
        (∀ t ∈ past, t.lost c.key = 0) → turn.lost c.key ≠ 0 → (∀ t ∈ recent, t.lost c.key = 0) →
        (∀ t ∈ recent.tail, (t.after.kernel.channels.get c).toInt + turn.lost c.key ≤ 0) →
        ∃ queue, turn.before.kernel.store.waiters c.key = .ok queue ∧
          Redirects c turn queue recent := by
  obtain ⟨turns, hrun, hhistory⟩ := turns_history timing machine first calls
  refine ⟨turns, hrun, fun recent turn past hsuffix hpast hloss hrecent hlevel => ?_⟩
  obtain ⟨latest, before, hwhole⟩ : ∃ latest before, recent ++ turn :: past = latest :: before :=
    List.exists_cons_of_ne_nil (by simp)
  obtain ⟨hlength, w, hw⟩ := hhistory latest before (hwhole ▸ hsuffix)
  rw [← hwhole] at hw
  have hle : (recent ++ turn :: past).length ≤ 2147483648 := by
    rw [hwhole, List.length_cons]
    omega
  exact hw.redirects (Channel.ne_clock_of_lt hc) hle hpast hloss hrecent hlevel

/-- Two processes wait for the first disk, one behind the other; their parent makes some requests,
and the disk reports twice. -/
def twoWaiters (requests : List SavedState) : List (Machine × SavedState) :=
  [(.initial, Computer.asking 1 0x2000), (.initial, Computer.asking 1 0x2000),
    (.initial, { cause := 0x200 }),
    (.initial, Computer.asking 5 3), (.initial, Computer.asking 5 3)] ++
      requests.map (.initial, ·) ++
  [(Machine.initial.raise 3 0 5, { cause := 0x800 }),
    (Machine.initial.raise 3 0 517, { cause := 0x800 })]

/-- The parent ends the first waiter. -/
def Computer.endingFirst : SavedState := asking 2 (Handle.toWord ⟨1, 1⟩)

/-- The survivor is answered with the first status. -/
theorem Computer.twoWaiters_redirects :
    (twoWaiters [endingFirst]).length < 2147483648 ∧ (0 : Channel).val < 48 ∧
    ∃ turns, (initial {} .initial).turns ((.initial, .start {}) ::
        (twoWaiters [endingFirst]).map fun call => (call.1, .exception call.2)) = .ok turns ∧
      turns.map (·.lost (0 : Channel).key) = [0, 0, 0, 0, 0, 0, 1, 0, 0] ∧
      turns.map (fun turn => (turn.after.kernel.channels.get 0).toInt) =
        [0, 0, 0, 0, -1, -2, -2, -1, 0] ∧
      turns.map (·.delivered 0) = [[], [], [], [], [], [], [], [(⟨2, 1⟩, 5)], []] ∧
      ∀ (recent : List Turn) (turn : Turn) (past : List Turn),
        recent ++ turn :: past <:+ turns.reverse →
        (∀ t ∈ past, t.lost (0 : Channel).key = 0) → turn.lost (0 : Channel).key ≠ 0 →
        (∀ t ∈ recent, t.lost (0 : Channel).key = 0) →
        (∀ t ∈ recent.tail, (t.after.kernel.channels.get 0).toInt +
          turn.lost (0 : Channel).key ≤ 0) →
        ∃ queue, turn.before.kernel.store.waiters (0 : Channel).key = .ok queue ∧
          Redirects 0 turn queue recent := by
  obtain ⟨turns, hrun, h⟩ := turns_redirect {} .initial {} (twoWaiters [endingFirst]) (by decide)
    (c := 0) (by decide)
  refine ⟨by decide, by decide, turns, hrun, ?_, ?_, ?_, h⟩
  all_goals
    rw [turns_eq_getD hrun]
    decide +kernel

/-- The completion of the process that was ended wakes the other one, which would have found the
second status if nobody had been ended. -/
theorem Computer.twoWaiters_misdirected :
    ∃ spared ended, (initial {} .initial).turns ((.initial, .start {}) ::
        (twoWaiters []).map fun call => (call.1, .exception call.2)) = .ok spared ∧
      (initial {} .initial).turns ((.initial, .start {}) ::
        (twoWaiters [endingFirst]).map fun call => (call.1, .exception call.2)) = .ok ended ∧
      (ended[6]?.map fun turn => (turn.before.kernel.banked.get 0,
        (turn.before.kernel.store.waiters (0 : Channel).key).toOption,
        turn.after.kernel.table.isLive ⟨1, 1⟩, turn.after.kernel.table.isLive ⟨2, 1⟩)) =
          some (0, some [⟨1, 1⟩, ⟨2, 1⟩], false, true) ∧
      (ended.take 6).map (·.lost (0 : Channel).key) = [0, 0, 0, 0, 0, 0] ∧
      (ended.drop 7).map (·.statuses 0) = [[5], [517]] ∧
      (ended.drop 7).map (·.delivered 0) = [[(⟨2, 1⟩, 5)], []] ∧
      (spared.drop 6).map (·.statuses 0) = [[5], [517]] ∧
      (spared.drop 6).map (·.delivered 0) = [[(⟨1, 1⟩, 5)], [(⟨2, 1⟩, 517)]] := by
  obtain ⟨spared, hspared, _⟩ := turns_history {} .initial {} (twoWaiters [])
  obtain ⟨ended, hended, _⟩ := turns_history {} .initial {} (twoWaiters [endingFirst])
  refine ⟨spared, ended, hspared, hended, ?_⟩
  rw [turns_eq_getD hspared, turns_eq_getD hended]
  decide +kernel

end Nucleus
