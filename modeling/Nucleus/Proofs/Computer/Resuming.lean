import Nucleus.Proofs.Computer.Waking

/-!
# What a process goes on with

A process that leaves the processor leaves a state, and is loaded with it later. In between only the
completion it waits for changes that state. Here it is said, for one exception, which state each
process has afterwards and which state is loaded.
-/
namespace Nucleus.Scene
variable {σ τ : Scene} {p q : Handle} {key : SemKey} {d : Dispatch} {saved : SavedState}
  {r : Request}
variable {x : SavedState}

theorem Scheduled.loads (h : σ.Scheduled d τ) (hp : τ.current = some p) :
    p ∈ σ.view.queue .ready ∧ ∃ x, τ.state? p = some x ∧ d = .load x := by
  cases h with
  | @dispatched p' rest y hq hy =>
    obtain rfl : p' = p := Option.some.inj hp
    refine ⟨by simp [hq], y.state, ?_, rfl⟩
    rw [state?_dispatch]
    simp [state?, hy]
  | idle => cases hp

theorem Resumed.loads (h : σ.Resumed p d τ) : τ = σ ∧ ∃ x, σ.state? p = some x ∧ d = .load x := by
  cases h with
  | mk hx => exact ⟨rfl, _, by simp [state?, hx], rfl⟩

/-- The processor stays with whom it had, or the scheduler decides. -/
theorem Served.current_or_scheduled (hc : σ.current = some p) (h : σ.Served p r d τ) :
    τ.current = σ.current ∨ ∃ σ' : Scene, σ'.Scheduled d τ := by
  cases h with
  | ended _ _ h | blocked _ _ h => exact .inr ⟨_, h⟩
  | outlived hl hp h =>
    rw [h.loads.1]
    left
    simp [setState, alter, finish, hc, hp]
  | created _ h | uncreated h | unnamed h | passed _ h | consumed _ _ h | told _ h =>
    rw [h.loads.1]
    exact .inl rfl
  | @signalled key _ _ h =>
    rw [h.loads.1]
    left
    unfold signal
    split <;> rfl

theorem Continued.current_or_scheduled (h : σ.Continued saved d τ) :
    τ.current = σ.current ∨ ∃ σ' : Scene, σ'.Scheduled d τ := by
  cases h with
  | resumed => exact .inl rfl
  | scheduled _ h => exact .inr ⟨_, h⟩

theorem Effect.current_or_scheduled (h : σ.Effect saved d τ) : τ.current = none ∨
    (τ.current = σ.current ∧ saved.matter ≠ .sliceEnd) ∨ ∃ σ' : Scene, σ'.Scheduled d τ := by
  cases h with
  | unasked hc => exact .inl hc
  | spurious hm h => exact .inr (h.current_or_scheduled.imp_left fun hc => ⟨hc, by simp [hm]⟩)
  | ticked hm h => exact .inr (h.current_or_scheduled.imp_left fun hc => ⟨hc, by simp [hm]⟩)
  | drained hm h =>
    have hall : σ.Effect saved d τ := .drained hm h
    have hcont := hall.continued hm
    refine .inr (hcont.current_or_scheduled.imp_left fun hc => ⟨hc.trans ?_, by simp [hm]⟩)
    exact current_completeAll _
  | @served r p _ _ hm hc h =>
    have hc' : (σ.setState p fun _ => saved.pastInstruction).current = some p := hc
    exact .inr ((h.current_or_scheduled hc').imp_left fun hc => ⟨hc, by simp [hm]⟩)
  | passedUp hm => exact .inr (.inl ⟨rfl, by simp [hm]⟩)
  | sliceEnded _ _ h | sliceIdle _ _ h | died _ _ _ _ h => exact .inr (.inr ⟨_, h⟩)

/-- A process that gets the processor is loaded with its own state. -/
theorem Effect.loads (h : σ.Effect saved d τ) (hp : τ.current = some p)
    (hout : σ.current ≠ some p ∨ saved.matter = .sliceEnd) :
    ∃ x, τ.state? p = some x ∧ d = .load x := by
  rcases h.current_or_scheduled with hn | ⟨hc, hm⟩ | ⟨σ', hs⟩
  · rw [hp] at hn
    cases hn
  · rcases hout with hout | hout
    · exact (hout (hc.symm.trans hp)).elim
    · exact (hm hout).elim
  · exact (hs.loads hp).2

/-- A caller that lives on either keeps the processor or waits. -/
theorem Served.left (hσ : σ.Sound) (hc : σ.current = some p) (h : σ.Served p r d τ)
    (hx : τ.state? p = some x) (hout : τ.current ≠ some p) :
    ∃ key, r.taken? = some key ∧ p ∈ τ.waiters key ∧ σ.state? p = some x := by
  cases h with
  | blocked hr hv h =>
    refine ⟨_, hr, mem_waiters_of_block hσ hc h, ?_⟩
    rw [h.state?_eq] at hx
    simpa only [block, take, state?_stop, state?_charge, state?_join, state?_assign] using hx
  | ended _ hl h =>
    rw [h.state?_eq, state?_finish, if_pos hl] at hx
    cases hx
  | outlived _ hl h =>
    rw [h.loads.1] at hout
    exact (hout (by simp [setState, alter, finish, hc, hl])).elim
  | created _ h | uncreated h | unnamed h | passed _ h | consumed _ _ h | told _ h =>
    rw [h.loads.1] at hout
    exact (hout hc).elim
  | @signalled key _ _ h =>
    rw [h.loads.1] at hout
    have hcurrent : (σ.signal key).current = σ.current := by
      unfold signal
      split <;> rfl
    exact (hout (hcurrent.trans hc)).elim

theorem Continued.eq_of_some (h : σ.Continued saved d τ) (hc : σ.current = some p) :
    τ = σ ∧ d = .load saved := by
  cases h with
  | resumed => exact ⟨rfl, rfl⟩
  | scheduled hn => simp [hn] at hc

theorem Effect.left (hσ : σ.Sound) (h : σ.Effect saved d τ) (hc : σ.current = some q)
    (hx : τ.state? q = some x) (hout : τ.current ≠ some q ∨ saved.matter = .sliceEnd) :
    (saved.matter = .sliceEnd ∧ x = saved) ∨ ∃ r key, saved.matter = .request r ∧
      r.taken? = some key ∧ q ∈ τ.waiters key ∧ x = saved.pastInstruction := by
  have hgone : saved.matter ≠ .sliceEnd → τ.current ≠ some q := fun hm => hout.resolve_right hm
  cases h with
  | unasked hn => simp [hn] at hc
  | spurious hm h =>
    obtain ⟨rfl, _⟩ := h.eq_of_some hc
    exact (hgone (by simp [hm]) hc).elim
  | ticked hm h =>
    obtain ⟨rfl, _⟩ := h.eq_of_some (σ := σ.tick) hc
    exact (hgone (by simp [hm]) hc).elim
  | drained hm h =>
    have hall : σ.Effect saved d τ := .drained hm h
    have hcont := hall.continued hm
    have hcurrent := (current_completeAll (σ := σ) (saved.completions σ.machine)).trans hc
    obtain ⟨rfl, _⟩ := hcont.eq_of_some hcurrent
    exact (hgone (by simp [hm]) hcurrent).elim
  | sliceIdle _ hn => simp [hn] at hc
  | @sliceEnded p _ _ hm hp h =>
    obtain rfl : p = q := Option.some.inj (hp.symm.trans hc)
    rw [h.state?_eq] at hx
    simp only [preempt, state?_stop, state?_join, state?_setState, state?_charge, if_true,
      Option.map_eq_some_iff] at hx
    obtain ⟨_, _, rfl⟩ := hx
    exact .inl ⟨hm, rfl⟩
  | @served r p _ _ hm hp h =>
    obtain rfl : p = q := Option.some.inj (hp.symm.trans hc)
    obtain ⟨key, hr, hw, hstate⟩ := h.left (hσ.setState _) hc hx (hgone (by simp [hm]))
    simp only [state?_setState, if_true, Option.map_eq_some_iff] at hstate
    obtain ⟨_, _, rfl⟩ := hstate
    exact .inr ⟨r, key, hm, hr, hw, rfl⟩
  | passedUp hm => exact (hgone (by simp [hm]) hc).elim
  | @died _ _ p l _ _ _ hp _ hl h =>
    obtain rfl : p = q := Option.some.inj (hp.symm.trans hc)
    rw [h.state?_eq, state?_finish, if_pos hl] at hx
    cases hx

/-- What the registers of a caller hold that goes on after its request. -/
def Answer (saved : SavedState) (born : Handle → Prop) (x : SavedState) : Request → Prop
  | .createProcess _ _ =>
    (∃ child, born child ∧ x = (saved.pastInstruction.setV1 child.toWord).setV0 0) ∨
      ((∀ q, ¬born q) ∧ ∃ w, x = saved.pastInstruction.setV0 w)
  | .passeren _ | .verhogen _ => x = saved.pastInstruction
  | .terminateProcess _ | .waitDevice _ _ _ | .cpuTime | .waitClock | .supportArea =>
    ∃ w, x = saved.pastInstruction.setV0 w

/-- An interrupt that is not the end of the slice gives the processor back as it was. -/
theorem Effect.resumed (h : σ.Effect saved d τ) (hc : σ.current = some p)
    (hm : saved.matter = .spurious ∨ saved.matter = .tick ∨ ∃ line, saved.matter = .devices line) :
    τ.current = some p ∧ d = .load saved := by
  cases h with
  | unasked hn => simp [hn] at hc
  | spurious _ h =>
    obtain ⟨rfl, hd⟩ := h.eq_of_some hc
    exact ⟨hc, hd⟩
  | ticked _ h =>
    obtain ⟨rfl, hd⟩ := h.eq_of_some (σ := σ.tick) hc
    exact ⟨hc, hd⟩
  | drained hm' h =>
    have hall : σ.Effect saved d τ := .drained hm' h
    have hcont := hall.continued hm'
    have hcurrent := (current_completeAll (σ := σ) (saved.completions σ.machine)).trans hc
    obtain ⟨rfl, hd⟩ := hcont.eq_of_some hcurrent
    exact ⟨hcurrent, hd⟩
  | sliceEnded hm' | sliceIdle hm' | served hm' | passedUp hm' | died hm' => simp [hm'] at hm

theorem Served.answered (hσ : σ.Sound) (hc : σ.current = some p) (h : σ.Served p r d τ)
    (hs : σ.state? p = some saved.pastInstruction) (hp : τ.current = some p) :
    ∃ x, d = .load x ∧ Answer saved (fun q => σ.state? q = none ∧ (τ.state? q).isSome) x r := by
  have hready : p ∉ σ.view.queue .ready := hσ.notMem_queue hc _
  cases h with
  | @created address support child _ _ hn h =>
    obtain ⟨rfl, x, hx, rfl⟩ := h.loads
    have hchild : σ.state? child = none := by simp [state?, hn]
    have hne : p ≠ child := by
      rintro rfl
      simp [hs] at hchild
    simp only [state?_setState, if_true, state?_enrol, hne, if_false, hs, Option.map_some,
      Option.some.injEq] at hx
    refine ⟨x, rfl, .inl ⟨child, ⟨hchild, ?_⟩, hx.symm⟩⟩
    simp [hne.symm]
  | uncreated h =>
    obtain ⟨rfl, x, hx, rfl⟩ := h.loads
    simp only [state?_setState, if_true, hs, Option.map_some, Option.some.injEq] at hx
    refine ⟨x, rfl, .inr ⟨fun q hq => ?_, _, hx.symm⟩⟩
    exact Option.not_isSome_iff_eq_none.mpr (state?_setState_eq_none.mpr hq.1) hq.2
  | unnamed h =>
    obtain ⟨rfl, x, hx, rfl⟩ := h.loads
    simp only [state?_setState, if_true, hs, Option.map_some, Option.some.injEq] at hx
    exact ⟨x, rfl, _, hx.symm⟩
  | outlived _ hl h =>
    obtain ⟨rfl, x, hx, rfl⟩ := h.loads
    simp only [state?_setState, if_true, state?_finish, hl, if_false, hs, Option.map_some,
      Option.some.injEq] at hx
    exact ⟨x, rfl, _, hx.symm⟩
  | @ended _ l _ _ _ hl h =>
    have hmem := (h.loads hp).1
    simp [finish, View.without, hl] at hmem
  | @passed key _ _ _ h =>
    obtain ⟨rfl, x, hx, rfl⟩ := h.loads
    have hx' : σ.state? p = some x := hx
    exact ⟨x, rfl, Option.some.inj (hx'.symm.trans hs)⟩
  | @consumed r c _ _ hr _ h =>
    obtain ⟨rfl, x, hx, rfl⟩ := h.loads
    have hx' : ((σ.take c.key).setState p (·.setV0 (σ.banked.get c))).state? p = some x := hx
    have htake : (σ.take c.key).state? p = some saved.pastInstruction := hs
    simp only [state?_setState, if_true, htake, Option.map_some, Option.some.injEq] at hx'
    refine ⟨x, rfl, ?_⟩
    cases r with
    | waitDevice | waitClock => exact ⟨_, hx'.symm⟩
    | _ => cases hr
  | @blocked _ key _ _ _ _ h =>
    have hmem := (h.loads hp).1
    have hqueue : (σ.block p key).view.queue .ready = σ.view.queue .ready := by
      simp [block, stop, charge, join, alter, View.join, View.alter, take, assign]
    rw [hqueue] at hmem
    exact (hready hmem).elim
  | signalled h =>
    obtain ⟨rfl, x, hx, rfl⟩ := h.loads
    rw [state?_signal] at hx
    exact ⟨x, rfl, Option.some.inj (hx.symm.trans hs)⟩
  | told hr h =>
    obtain ⟨rfl, x, hx, rfl⟩ := h.loads
    simp only [state?_setState, if_true, hs, Option.map_some, Option.some.injEq] at hx
    rcases hr with rfl | rfl
    · exact ⟨x, rfl, _, hx.symm⟩
    · exact ⟨x, rfl, _, hx.symm⟩

/-- A caller that goes on finds its answer, and everything else as it left it. -/
theorem Effect.answered (hσ : σ.Sound) (h : σ.Effect saved d τ)
    (hs : saved.served? σ.current = some (p, r)) (hp : τ.current = some p) :
    ∃ x, d = .load x ∧ Answer saved (fun q => σ.state? q = none ∧ (τ.state? q).isSome) x r := by
  have hc : σ.current = some p := (SavedState.served?_eq_some.mp hs).2
  have hstate := hσ.state?_setState_running hc saved.pastInstruction
  obtain ⟨x, hd, ha⟩ := (h.of_served hs).answered (hσ.setState _) hc hstate hp
  refine ⟨x, hd, ?_⟩
  simpa only [state?_setState_eq_none] using ha

end Nucleus.Scene
