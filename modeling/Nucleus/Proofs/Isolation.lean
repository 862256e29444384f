import Nucleus.Proofs.Computer.Channels
import Nucleus.Proofs.History

/-!
# Programs and the nucleus's own semaphores

Semaphores of programs and of the nucleus share one key space, one directory and one P and V. What
keeps them apart is that no program is served a P or V on a key of the nucleus, and that the nucleus
keeps the integers of those keys outside memory. So each of its semaphores changes with the waits,
the completions and the ticks that are meant for it, and with nothing else that programs do.
-/
namespace Nucleus

def Turn.Ticks (turn : Turn) : Prop := ∃ saved, turn.entry = .exception saved ∧ saved.matter = .tick

/-- What a turn leaves of the nucleus's own semaphores. -/
structure Turn.Isolates (turn : Turn) : Prop where
  /-- The integer of a device and the status that is kept for it change with its
  own waits and completions. -/
  device : ∀ c : Channel, c.val < 48 →
    turn.after.kernel.channels.get c ≠ turn.before.kernel.channels.get c ∨
    turn.after.kernel.banked.get c ≠ turn.before.kernel.banked.get c →
      (∃ p line device receive, turn.served? = some (p, .waitDevice line device receive) ∧
        Channel.ofDevice? line device receive = .ok c) ∨ ∃ status, (c, status) ∈ turn.completions
  clock : turn.after.kernel.channels.get Channel.clock ≠
    turn.before.kernel.channels.get Channel.clock →
    (∃ p, turn.served? = some (p, .waitClock)) ∨ turn.Ticks
  /-- No request but a wait for a device or the pseudo-clock changes anything, served or not. -/
  requests : ∀ saved r, turn.entry = .exception saved → Route.ofCode saved.trapCode = .request →
    Request.ofState? saved = some r → r.channel? = none →
      turn.after.kernel.channels = turn.before.kernel.channels ∧
        turn.after.kernel.banked = turn.before.kernel.banked
  /-- Nor does an exception that is passed up, even when it ends the running process. -/
  passUps : ∀ saved c state, turn.entry = .exception saved → saved.matter = .passUp c state →
    turn.after.kernel.channels = turn.before.kernel.channels ∧
      turn.after.kernel.banked = turn.before.kernel.banked
  /-- P and V of a program move nobody in or out of the queues of the nucleus's own semaphores. -/
  directory : ∀ p key, turn.served? = some (p, .passeren key) ∨
    turn.served? = some (p, .verhogen key) →
    ∀ c : Channel, turn.after.kernel.store.waiters c.key = turn.before.kernel.store.waiters c.key ∧
      turn.after.kernel.store.directory.isActive c.key =
        turn.before.kernel.store.directory.isActive c.key

theorem Request.channel?_eq_some {r : Request} {c : Channel} (h : r.channel? = some c) :
    (∃ line device receive, r = .waitDevice line device receive ∧
      Channel.ofDevice? line device receive = .ok c) ∨ r = .waitClock ∧ c = .clock := by
  cases r with
  | waitDevice line device receive =>
    refine .inl ⟨line, device, receive, rfl, ?_⟩
    unfold channel? at h
    cases hd : Channel.ofDevice? line device receive with
    | error e => simp [hd, Except.toOption] at h
    | ok c' => simpa [hd, Except.toOption] using h
  | waitClock => exact .inr ⟨rfl, (Option.some.inj h).symm⟩
  | _ => cases h

theorem SavedState.matter_of_ofState? {saved : SavedState} {r : Request}
    (hroute : Route.ofCode saved.trapCode = .request) (hr : Request.ofState? saved = some r) :
    saved.matter = .request r ∨ ∃ c state, saved.matter = .passUp c state := by
  simp only [matter, hroute, hr]
  split
  · exact .inr ⟨_, _, rfl⟩
  · split
    · exact .inl rfl
    · exact .inr ⟨_, _, rfl⟩

namespace Scene
variable {σ τ : Scene} {d : Dispatch} {saved : SavedState} {c : Channel}

/-- An exception that neither waits for a channel nor interrupts leaves all of them as they are. -/
theorem Effect.spares (h : σ.Effect saved d τ)
    (hm : (∃ c state, saved.matter = .passUp c state) ∨ ∃ r, saved.matter = .request r ∧
      r.channel? = none) : τ.channels = σ.channels ∧ τ.banked = σ.banked := by
  have hserved : ∀ c p r, saved.served? σ.current = some (p, r) → r.channel? ≠ some c := by
    intro c p r hs
    have hr := (SavedState.served?_eq_some.mp hs).1
    rcases hm with ⟨_, _, hm⟩ | ⟨r', hm, hn⟩
    · cases hm.symm.trans hr
    · cases hm.symm.trans hr
      simp [hn]
  have hcompletions : saved.completions σ.machine = [] := by
    rcases hm with ⟨_, _, hm⟩ | ⟨_, hm, _⟩ <;> simp [SavedState.completions, hm]
  have htick : saved.matter ≠ .tick := by
    rcases hm with ⟨_, _, hm⟩ | ⟨_, hm, _⟩ <;> simp [hm]
  constructor
  · refine Vector.ext fun i hi => ?_
    exact h.channels (c := ⟨i, hi⟩) (hserved _) (by simp [hcompletions]) fun ht => (htick ht).elim
  · refine Vector.ext fun i hi => ?_
    exact h.banked (c := ⟨i, hi⟩) (hserved _) (by simp [hcompletions])

/-- After so many entries no integer of a device is further from zero, and a status is kept only
while the integer is positive. -/
def Banks (σ : Scene) (n : Nat) : Prop :=
  ∀ c : Channel, c ≠ .clock → -(n : Int) ≤ (σ.channels.get c).toInt ∧ (σ.channels.get c).toInt ≤ n ∧
    (σ.banked.get c ≠ 0 → 0 < (σ.channels.get c).toInt)

theorem Banks.mono {n k : Nat} (h : σ.Banks n) (hk : n ≤ k) : σ.Banks k := fun c hc => by
  obtain ⟨hlow, hhigh, hkept⟩ := h c hc
  exact ⟨by omega, by omega, hkept⟩

theorem Effect.banks {n : Nat} (hσ : σ.Sound) (h : σ.Effect saved d τ) (hn : n + 1 < 2147483648)
    (hb : σ.Banks n) : τ.Banks (n + 1) := fun c hc => by
  obtain ⟨hlow, hhigh, hkept⟩ := hb c hc
  by_cases hwait : ∃ p r, saved.served? σ.current = some (p, r) ∧ r.channel? = some c
  · obtain ⟨p, r, hs, hr⟩ := hwait
    obtain ⟨hvalue, hemptied, hleft⟩ := (h.of_served hs).waits hr
    have hvalue' : τ.channels.get c = σ.channels.get c - 1 := hvalue
    have hleft' : ¬0 ≤ σ.channels.get c - 1 → τ.banked.get c = σ.banked.get c := hleft
    have hsub := Semaphore.toInt_sub_one (n := σ.channels.get c) (by omega)
    rw [Int32.le_iff_toInt_le, hsub, Int32.toInt_zero] at hleft'
    rw [hvalue', hsub]
    refine ⟨by omega, by omega, fun hne => ?_⟩
    by_cases hv : 0 ≤ σ.channels.get c - 1
    · exact (hne (hemptied hv)).elim
    · rw [Int32.le_iff_toInt_le, hsub, Int32.toInt_zero] at hv
      have hpos := hkept (hleft' hv ▸ hne)
      omega
  · have hserved : ∀ p r, saved.served? σ.current = some (p, r) → r.channel? ≠ some c :=
      fun p r hs hr => hwait ⟨p, r, hs, hr⟩
    by_cases hcs : c ∈ (saved.completions σ.machine).map (·.1)
    · obtain ⟨⟨c', status⟩, hmem, he⟩ := List.mem_map.mp hcs
      obtain rfl : c' = c := he
      obtain ⟨hvalue, howed⟩ := h.completes hσ hmem
      have hadd := Semaphore.toInt_add_one (n := σ.channels.get c') (by omega)
      rw [Int32.le_iff_toInt_le, hadd, Int32.toInt_zero] at howed
      rw [hvalue, hadd]
      refine ⟨by omega, by omega, fun hne => ?_⟩
      by_contra hnot
      have hpos := hkept (howed (by omega) ▸ hne)
      omega
    · rw [h.channels hserved hcs fun _ => hc, h.banked hserved hcs]
      exact ⟨by omega, by omega, hkept⟩

end Scene

namespace Computer
variable {s t : Computer} {v w : View} {saved : SavedState} {d : Dispatch}

theorem isolates_of_effect (h : s.kernel.Sound v) (ht : t.kernel.Sound w)
    (heffect : (s.scene v).Effect saved d (t.scene w)) :
    (Turn.mk s (.exception saved) d t).Isolates := by
  have hspares : ((∃ c state, saved.matter = .passUp c state) ∨
      ∃ r, saved.matter = .request r ∧ r.channel? = none) →
        t.kernel.channels = s.kernel.channels ∧ t.kernel.banked = s.kernel.banked := heffect.spares
  refine ⟨fun c hc hchange => ?_, fun hchange => ?_, fun saved' r he hroute hr hn => ?_,
    fun saved' c state he hm => ?_, fun p key hs c => ?_⟩
  · have hclock : c ≠ .clock := fun e => absurd (e ▸ hc) (by decide)
    by_contra hnot
    obtain ⟨hwait, hcompletion⟩ := not_or.mp hnot
    have hserved : ∀ p r, saved.served? (s.scene v).current = some (p, r) →
        r.channel? ≠ some c := by
      intro p r hs hr
      rcases Request.channel?_eq_some hr with ⟨line, device, receive, rfl, hd⟩ | ⟨_, e⟩
      · exact hwait ⟨p, line, device, receive, hs, hd⟩
      · exact hclock e
    have hcs : c ∉ (saved.completions (s.scene v).machine).map (·.1) := fun hm => by
      obtain ⟨⟨c, status⟩, hmem, rfl⟩ := List.mem_map.mp hm
      exact hcompletion ⟨status, hmem⟩
    rcases hchange with hne | hne
    · exact hne (heffect.channels hserved hcs fun _ => hclock)
    · exact hne (heffect.banked hserved hcs)
  · by_contra hnot
    obtain ⟨hwait, htick⟩ := not_or.mp hnot
    refine hchange (heffect.channels (c := .clock) (fun p r hs hr => ?_)
      (fun hm => ?_) fun hm => ?_)
    · rcases Request.channel?_eq_some hr with ⟨line, device, receive, rfl, hd⟩ | ⟨rfl, _⟩
      · exact absurd (Channel.val_ofDevice? hd).2.2 (by decide)
      · exact hwait ⟨p, hs⟩
    · obtain ⟨c, hmem, hclock⟩ := List.mem_map.mp hm
      exact SavedState.ne_clock_of_mem_completions hmem hclock
    · exact (htick ⟨saved, rfl, hm⟩).elim
  · cases he
    exact hspares ((SavedState.matter_of_ofState? hroute hr).symm.imp_right fun hm => ⟨r, hm, hn⟩)
  · cases he
    exact hspares (.inl ⟨c, state, hm⟩)
  · have hqueue : w.queue (.semaphore c.key) = v.queue (.semaphore c.key) := by
      obtain ⟨r, hs', hr⟩ : ∃ r, saved.served? (s.scene v).current = some (p, r) ∧
          (r = .passeren key ∨ r = .verhogen key) := by
        rcases hs with hs | hs
        · exact ⟨_, hs, .inl rfl⟩
        · exact ⟨_, hs, .inr rfl⟩
      exact (heffect.of_served hs').waiters_channel (h.scene.setState _)
        (SavedState.served?_eq_some.mp hs').2
        (SavedState.isWellFormed_of_served? hs') hr c
    constructor
    · exact (ht.arranged.waiters_eq c.key).trans (hqueue ▸ (h.arranged.waiters_eq c.key).symm)
    · rw [ht.isActive_eq, h.isActive_eq, hqueue]

theorem enter_spares (h : s.kernel.Sound v) {e : Entry} (he : ∀ saved, e ≠ .exception saved)
    (hr : s.enter e = .ok (d, t)) :
    t.kernel.channels = s.kernel.channels ∧ t.kernel.banked = s.kernel.banked := by
  have hschedule : ∀ {u : Computer} {w}, u.schedule = .ok (d, t) →
    u.kernel.store.Arranged u.kernel.ready w →
      t.kernel.channels = u.kernel.channels ∧ t.kernel.banked = u.kernel.banked := by
    intro u w hr hu
    obtain ⟨d', t', w', he', _, hτ⟩ := schedule_yields hu rfl
    cases hr.symm.trans he'
    exact ⟨hτ.channels, hτ.banked⟩
  cases e with
  | exception saved => exact (he saved rfl).elim
  | schedule => exact hschedule hr h.arranged
  | start first =>
    cases halloc : s.kernel.table.alloc with
    | none =>
      have hstart : s.start first =
        (({ s with machine := s.machine.loadIntervalTimer s.kernel.timing.tick } :
          Computer).note (.bootRefused .noFreeProcess)).schedule := by simp only [start, halloc]
      obtain ⟨hchannels, hbanked⟩ := hschedule (hstart.symm.trans hr) h.arranged
      exact ⟨hchannels, hbanked⟩
    | some pair =>
      obtain ⟨p, table⟩ := pair
      obtain ⟨store, ready, hstart, ha⟩ := start_eq h.arranged halloc first
      obtain ⟨hchannels, hbanked⟩ := hschedule (hstart.symm.trans hr) ha
      exact ⟨hchannels, hbanked⟩

theorem isolates_of_spared {e : Entry} (he : ∀ saved, e ≠ .exception saved)
    (hchannels : t.kernel.channels = s.kernel.channels)
    (hbanked : t.kernel.banked = s.kernel.banked) : (Turn.mk s e d t).Isolates := by
  have hserved : (Turn.mk s e d t).served? = none := by
    cases e with
    | exception saved => exact (he saved rfl).elim
    | start | schedule => rfl
  refine ⟨fun c _ hchange => ?_, fun hchange => ?_, fun saved _ hentry => ?_,
    fun saved _ _ hentry => ?_, fun p key hs => ?_⟩
  · rcases hchange with hne | hne
    · exact (hne (congrArg (·.get c) hchannels)).elim
    · exact (hne (congrArg (·.get c) hbanked)).elim
  · exact (hchange (congrArg (·.get Channel.clock) hchannels)).elim
  · exact (he saved hentry).elim
  · exact (he saved hentry).elim
  · simp [hserved] at hs

theorem enter_isolates (h : s.kernel.Sound v) (e : Entry) :
    ∃ d t w, s.enter e = .ok (d, t) ∧ t.kernel.Sound w ∧ (Turn.mk s e d t).Isolates ∧
      ∀ n, n + 1 < 2147483648 → (s.scene v).Banks n → (t.scene w).Banks (n + 1) := by
  by_cases he : ∃ saved, e = .exception saved
  · obtain ⟨saved, rfl⟩ := he
    obtain ⟨d, t, w, hr, hw, heffect⟩ := exception_effect_of_sound h saved
    exact ⟨d, t, w, hr, hw, isolates_of_effect h hw heffect,
      fun n hn hb => heffect.banks h.scene hn hb⟩
  · have he' : ∀ saved, e ≠ .exception saved := fun saved hs => he ⟨saved, hs⟩
    obtain ⟨d, t, w, hr, hw, _⟩ := enter_sound h e
    obtain ⟨hchannels, hbanked⟩ := enter_spares h he' hr
    refine ⟨d, t, w, hr, hw, isolates_of_spared he' hchannels hbanked, fun n _ hb => ?_⟩
    have hkept : (t.scene w).Banks n := fun c hc => by
      have hvalue : (t.scene w).channels = (s.scene v).channels := hchannels
      have hstatus : (t.scene w).banked = (s.scene v).banked := hbanked
      rw [hvalue, hstatus]
      exact hb c hc
    exact hkept.mono (Nat.le_succ n)

end Computer

theorem NucleusCells.value_channel (cells : NucleusCells) (c : Channel) :
    cells.value c.key = cells.channels.get c := by
  simp only [value, Channel.slot?_key]
  rfl

theorem NucleusCells.assign_channel (cells : NucleusCells) (c : Channel) (n : Int32) :
    cells.assign c.key n = ⟨cells.channels.set c n c.isLt, cells.machine⟩ := by
  simp [assign]

namespace Computer
variable (s : Computer) (m : Machine) (c : Channel) (p : Handle)

theorem makeReady_onMachine :
    (s.onMachine m).makeReady p = (s.makeReady p).map (·.onMachine m) := by
  have hkernel : (s.onMachine m).kernel = s.kernel := rfl
  simp only [makeReady, hkernel]
  cases s.kernel.makeReady p <;> rfl

theorem wait_onMachine :
    (s.onMachine m).wait c.key p = (s.wait c.key p).map fun r => (r.1, r.2.onMachine m) := by
  have hchannels : (s.onMachine m).cells.channels = s.cells.channels := rfl
  have hkernel : (s.onMachine m).kernel = s.kernel := rfl
  simp only [wait, Store.wait, SemaphoreCells.value, SemaphoreCells.assign,
    NucleusCells.assign_channel, NucleusCells.value_channel, hchannels, hkernel]
  split
  · rfl
  · cases s.kernel.store.enqueue c.key p with
    | error f => rfl
    | ok r => cases r <;> rfl

theorem signal_onMachine :
    (s.onMachine m).signal c.key = (s.signal c.key).map fun r => (r.1, r.2.onMachine m) := by
  have hchannels : (s.onMachine m).cells.channels = s.cells.channels := rfl
  have hkernel : (s.onMachine m).kernel = s.kernel := rfl
  simp only [signal, Store.signal, SemaphoreCells.value, SemaphoreCells.assign,
    NucleusCells.assign_channel, NucleusCells.value_channel, hchannels, hkernel]
  split
  · cases s.kernel.store.dequeue c.key with
    | error f => rfl
    | ok r =>
      obtain ⟨woken, store⟩ := r
      cases woken with
      | none => rfl
      | some q =>
        -- both sides make `q` ready after the same store and the same integer
        let u := (s.setCells ⟨s.cells.channels.set c (s.cells.channels.get c + 1) c.isLt,
          s.cells.machine⟩).setStore store
        have hready : (u.onMachine m).makeReady q = (u.makeReady q).map (·.onMachine m) :=
          u.makeReady_onMachine m q
        show ((u.onMachine m).makeReady q >>= fun t => pure (some q, t)) =
          (u.makeReady q >>= fun t => pure (some q, t)).map fun r => (r.1, r.2.onMachine m)
        rw [hready]
        cases u.makeReady q <;> rfl
  · rfl

end Computer

/-- P and V on the nucleus's own semaphores do not see the memory, nor does the memory see them. -/
theorem Computer.units_onMachine (s : Computer) (m : Machine) (c : Channel) (p : Handle) :
    (s.onMachine m).wait c.key p = (s.wait c.key p).map (fun r => (r.1, r.2.onMachine m)) ∧
      (s.onMachine m).signal c.key = (s.signal c.key).map fun r => (r.1, r.2.onMachine m) :=
  ⟨s.wait_onMachine m c p, s.signal_onMachine m c⟩

/-- In every run, of any entries, the nucleus's own semaphores are isolated from what programs do
with theirs, and where there are fewer entries than an integer can count, a status is kept only
while the integer is positive. -/
theorem Computer.turns_isolated (timing : Timing) (machine : Machine)
    (calls : List (Machine × Entry)) :
    ∃ turns, (initial timing machine).turns calls = .ok turns ∧ (∀ turn ∈ turns, turn.Isolates) ∧
      (calls.length < 2147483648 → ∀ turn ∈ turns, ∀ c : Channel, c.val < 48 →
        turn.after.kernel.banked.get c ≠ 0 → 0 < (turn.after.kernel.channels.get c).toInt) := by
  have hzero : Scene.Banks ((initial timing machine).scene .empty) 0 := fun c _ => by
    have hchannel : ((initial timing machine).scene .empty).channels.get c = 0 :=
      Vector.getElem_replicate c.isLt
    have hbanked : ((initial timing machine).scene .empty).banked.get c = 0 :=
      Vector.getElem_replicate c.isLt
    simp [hchannel, hbanked]
  obtain ⟨turns, hrun, hall⟩ : ∃ turns, (initial timing machine).turns calls = .ok turns ∧
      ∀ turn ∈ turns, turn.Isolates ∧ (calls.length < 2147483648 → ∀ c : Channel, c.val < 48 →
        turn.after.kernel.banked.get c ≠ 0 → 0 < (turn.after.kernel.channels.get c).toInt) := by
    refine turns_of_count (n := 0)
      (I := fun k s => ∃ v, s.kernel.Sound v ∧ (calls.length < 2147483648 → (s.scene v).Banks k))
      ⟨.empty, Kernel.sound_initial timing, fun _ => hzero⟩ fun k s machine e hk ⟨v, hv, hb⟩ => ?_
    obtain ⟨d, t, w, he, hw, hi, hbanks⟩ := enter_isolates (sound_onMachine hv machine) e
    have hnext : calls.length < 2147483648 → (t.scene w).Banks (k + 1) := fun hshort =>
      hbanks k (by omega) (hb hshort)
    refine ⟨d, t, he, ⟨w, hw, hnext⟩, hi, fun hshort c hc => ?_⟩
    exact (hnext hshort c fun e => absurd (e ▸ hc) (by decide)).2.2
  exact ⟨turns, hrun, fun turn ht => (hall turn ht).1,
    fun hshort turn ht => (hall turn ht).2 hshort⟩

/-- In every run, of any entries, the nucleus's own semaphores are isolated from what
programs do with theirs. Where there are fewer entries than an integer can count, a status
is kept only while the integer is positive. P and V on these semaphores do not see the
memory, nor does the memory see them. -/
theorem Computer.turns_isolate (timing : Timing) (machine : Machine)
    (calls : List (Machine × Entry)) :
    (∃ turns, (initial timing machine).turns calls = .ok turns ∧ (∀ turn ∈ turns, turn.Isolates) ∧
      (calls.length < 2147483648 → ∀ turn ∈ turns, ∀ c : Channel, c.val < 48 →
        turn.after.kernel.banked.get c ≠ 0 → 0 < (turn.after.kernel.channels.get c).toInt)) ∧
    ∀ (s : Computer) (m : Machine) (c : Channel) (p : Handle),
      (s.onMachine m).wait c.key p = (s.wait c.key p).map (fun r => (r.1, r.2.onMachine m)) ∧
      (s.onMachine m).signal c.key = (s.signal c.key).map fun r => (r.1, r.2.onMachine m) :=
  ⟨turns_isolated timing machine calls, units_onMachine⟩

end Nucleus
