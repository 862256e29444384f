import Nucleus.Proofs.Computer.Waking

/-!
# Who leaves a queue

A process leaves the queue of a semaphore when it is woken there or when it ends. It is woken by the
request that gives the semaphore a unit, by a completion on its channel or by a tick of the clock,
and by nothing else, whatever the semaphore.
-/
namespace Nucleus.Scene
variable {σ τ : Scene} {p q : Handle} {key k : SemKey} {l : List Handle} {d : Dispatch}
variable {saved : SavedState} {r : Request} {c : Channel} {status : Word}
  {cs : List (Channel × Word)}

theorem mem_waiters_wake (ho : σ.view.Orderly) (hp : p ∈ σ.waiters k) (hq : q ∈ σ.waiters key) :
    q ∈ (σ.wake p).waiters key ∨ key = k ∧ q = p := by
  rw [waiters_wake]
  by_cases he : q = p
  · subst he
    exact .inr ⟨Station.semaphore.inj (ho.apart hq hp), rfl⟩
  · exact .inl (List.mem_filter.mpr ⟨hq, bne_iff_ne.mpr he⟩)

theorem mem_waiters_signal (ho : σ.view.Orderly) (hq : q ∈ σ.waiters key) :
    q ∈ (σ.signal k).waiters key ∨ key = k ∧ σ.woken? key = some q := by
  unfold signal
  cases h : σ.woken? k with
  | none => exact .inl hq
  | some p =>
    rcases mem_waiters_wake (σ := σ.give k) ho (mem_waiters_of_woken? (σ := σ) h) hq with
      hm | ⟨rfl, rfl⟩
    · exact .inl hm
    · exact .inr ⟨rfl, h⟩

theorem mem_waiters_complete (ho : σ.view.Orderly) (hq : q ∈ σ.waiters key) :
    q ∈ (σ.complete c status).waiters key ∨ key = c.key ∧ σ.woken? key = some q := by
  unfold complete
  cases h : σ.woken? c.key with
  | none =>
    left
    simp only
    split <;> exact hq
  | some p =>
    rcases mem_waiters_wake (σ := σ.give c.key) ho (mem_waiters_of_woken? (σ := σ) h) hq with
      hm | ⟨rfl, rfl⟩
    · exact .inl hm
    · exact .inr ⟨rfl, h⟩

theorem mem_waiters_completeAll (hσ : σ.Sound) (hn : (cs.map (·.1)).Nodup)
    (hq : q ∈ σ.waiters key) :
    q ∈ (σ.completeAll cs).waiters key ∨ ∃ c ∈ cs, key = c.1.key ∧ σ.woken? key = some q := by
  induction cs generalizing σ with
  | nil => exact .inl hq
  | cons c cs ih =>
    obtain ⟨hc, hn⟩ := List.nodup_cons.mp hn
    have hfirst : q ∈ (σ.complete c.1 c.2).waiters key ∨ key = c.1.key ∧ σ.woken? key = some q :=
      mem_waiters_complete hσ.orderly hq
    rcases hfirst with hm | ⟨hkey, hwoken⟩
    · rcases ih (hσ.complete c.1 c.2) hn hm with hm | ⟨c', hc', rfl, hwoken⟩
      · exact .inl hm
      · have hne : c'.1 ≠ c.1 := fun e => hc (List.mem_map.mpr ⟨c', hc', e⟩)
        rw [woken?_complete hσ hne] at hwoken
        exact .inr ⟨c', by simp [hc'], rfl, hwoken⟩
    · exact .inr ⟨c, by simp, hkey, hwoken⟩

theorem mem_waiters_tick (ho : σ.view.Orderly) (hq : q ∈ σ.waiters key) :
    q ∈ σ.tick.waiters key ∨ key = Channel.clock.key := by
  by_cases hkey : key = Channel.clock.key
  · exact .inr hkey
  · rw [waiters_tick ho hkey]
    exact .inl hq

theorem mem_waiters_block (hq : q ∈ σ.waiters key) : q ∈ (σ.block p k).waiters key := by
  simp only [block, take, waiters_stop, waiters_charge, waiters_join, waiters_assign]
  split
  · exact List.mem_append_left _ hq
  · exact hq

theorem mem_waiters_finish (hq : q ∈ σ.waiters key) (hlive : (σ.finish l).state? q ≠ none) :
    q ∈ (σ.finish l).waiters key := by
  have hl : q ∉ l := fun hm => hlive (by rw [state?_finish, if_pos hm])
  rw [waiters_finish]
  exact List.mem_filter.mpr ⟨hq, by simpa using hl⟩

theorem Scheduled.waiters_eq (ho : σ.view.Orderly) (h : σ.Scheduled d τ) :
    τ.waiters key = σ.waiters key :=
  congrArg Semaphore.waiters (h.semaphore ho)

theorem Continued.waiters_eq (ho : σ.view.Orderly) (h : σ.Continued saved d τ) :
    τ.waiters key = σ.waiters key :=
  congrArg Semaphore.waiters (h.semaphore ho)

/-- What a signal to `key` leaves when it wakes `q`: everybody else waits on, and `q` is the last of
those who are ready. -/
structure Signals (σ τ : Scene) (key : SemKey) (q : Handle) : Prop where
  woken : σ.woken? key = some q
  ready : τ.view.queue .ready = σ.view.queue .ready ++ [q]
  others : ∀ k p, p ∈ σ.waiters k → p ≠ q → p ∈ τ.waiters k

theorem signals_of_woken (ho : σ.view.Orderly) (h : σ.woken? key = some q) :
    σ.Signals (σ.signal key) key q where
  woken := h
  ready := by
    have hready := ready_wake (σ := σ.give key) ho (mem_waiters_of_woken? (σ := σ) h)
    unfold signal
    rw [h]
    exact hready
  others k p hp hne := by
    rcases mem_waiters_signal (k := key) ho hp with hm | ⟨rfl, hwoken⟩
    · exact hm
    · cases hwoken.symm.trans h
      exact (hne rfl).elim

/-- Of the waiters that live on, a request frees none but the first of a
semaphore that is given a unit. -/
theorem Served.leaves (hσ : σ.Sound) (hc : σ.current = some p) (h : σ.Served p r d τ)
    (hq : q ∈ σ.waiters key) (hlive : τ.state? q ≠ none) (hleft : q ∉ τ.waiters key) :
    r = .verhogen key ∧ σ.Signals τ key q := by
  cases h with
  | created _ h =>
    cases h
    simp only [waiters_setState, waiters_enrol] at hleft
    exact (hleft hq).elim
  | uncreated h | unnamed h | told _ h =>
    cases h
    simp only [waiters_setState] at hleft
    exact (hleft hq).elim
  | outlived _ _ h =>
    cases h
    have hlive' := state?_setState_eq_none.not.mp hlive
    exact (hleft (mem_waiters_finish hq hlive')).elim
  | ended _ _ h =>
    rw [h.waiters_eq (orderly_finish hσ _)] at hleft
    rw [h.state?_eq] at hlive
    exact (hleft (mem_waiters_finish hq hlive)).elim
  | passed _ h | consumed _ _ h =>
    cases h
    exact (hleft hq).elim
  | blocked _ _ h =>
    rw [h.waiters_eq (orderly_block hσ hc _)] at hleft
    exact (hleft (mem_waiters_block hq)).elim
  | @signalled k _ _ h =>
    cases h
    rcases mem_waiters_signal (k := k) hσ.orderly hq with hm | ⟨rfl, hwoken⟩
    · exact (hleft hm).elim
    · exact ⟨rfl, signals_of_woken hσ.orderly hwoken⟩

/-- Why a process that lives on has left the queue of a semaphore, and that it is ready or runs. -/
theorem Effect.leaves (hσ : σ.Sound) (h : σ.Effect saved d τ) (hq : q ∈ σ.waiters key)
    (hlive : τ.state? q ≠ none) (hleft : q ∉ τ.waiters key) :
    q ∈ τ.current.toList ++ τ.view.queue .ready ∧
      ((∃ p, saved.served? σ.current = some (p, .verhogen key) ∧ σ.Signals τ key q) ∨
      (∃ c status, (c, status) ∈ saved.completions σ.machine ∧ key = c.key ∧
        σ.woken? key = some q) ∨
      (saved.matter = .tick ∧ key = Channel.clock.key)) := by
  cases h with
  | unasked | passedUp => exact (hleft hq).elim
  | spurious _ h =>
    rw [h.waiters_eq hσ.orderly] at hleft
    exact (hleft hq).elim
  | sliceIdle _ _ h =>
    rw [h.waiters_eq hσ.orderly] at hleft
    exact (hleft hq).elim
  | @sliceEnded p _ _ _ hc h =>
    have hpreempt : (σ.preempt p saved).waiters key = σ.waiters key := by simp [preempt]
    rw [h.waiters_eq (orderly_preempt hσ hc saved), hpreempt] at hleft
    exact (hleft hq).elim
  | ticked hm h =>
    have hkey : key = Channel.clock.key := by
      rw [h.waiters_eq (σ := σ.tick) hσ.orderly.tick] at hleft
      exact (mem_waiters_tick hσ.orderly hq).resolve_left hleft
    have hready : q ∈ σ.tick.view.queue .ready := by
      rw [tick, View.queue_joinAll, if_pos rfl]
      exact List.mem_append_right _ (hkey ▸ hq)
    rw [h.line_eq (σ := σ.tick) hσ.orderly.tick]
    exact ⟨List.mem_append_right _ hready, .inr (.inr ⟨hm, hkey⟩)⟩
  | drained hm hdrained =>
    have h : σ.Effect saved d τ := .drained hm hdrained
    have hcont := h.continued hm
    rw [hcont.waiters_eq ((hσ.completeAll _).onMachine _).orderly] at hleft
    obtain ⟨⟨c, status⟩, hc, hkey, hwoken⟩ :=
      (mem_waiters_completeAll hσ SavedState.nodup_completions hq).resolve_left hleft
    obtain ⟨hline, _⟩ := h.wakes hσ rfl (List.ne_nil_of_mem hc)
    have hmem : q ∈ σ.wokenAll (saved.completions σ.machine) :=
      List.mem_filterMap.mpr ⟨(c, status), hc, hkey ▸ hwoken⟩
    rw [hline]
    exact ⟨List.mem_append_right _ hmem, .inr (.inl ⟨c, status, hc, hkey, hwoken⟩)⟩
  | @served r p _ _ hm hc h =>
    obtain ⟨rfl, hsignals⟩ := h.leaves (hσ.setState _) hc hq hlive hleft
    refine ⟨List.mem_append_right _ ?_, .inl ⟨p, SavedState.served?_eq_some.mpr ⟨hm, hc⟩, ?_⟩⟩
    · rw [hsignals.ready]
      exact List.mem_append_right _ (List.mem_singleton_self q)
    · exact ⟨hsignals.woken, hsignals.ready, hsignals.others⟩
  | died _ _ _ _ h =>
    rw [h.waiters_eq (orderly_finish hσ _)] at hleft
    rw [h.state?_eq] at hlive
    exact (hleft (mem_waiters_finish hq hlive)).elim

end Nucleus.Scene
