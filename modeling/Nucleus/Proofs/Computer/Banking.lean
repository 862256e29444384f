import Nucleus.Proofs.Computer.Resuming

/-!
# Completions that nobody waits for

Each channel keeps the status of one completion. A completion that finds nobody owed a unit is kept
there, over whatever was kept before; a wait that finds a unit takes what is kept. Nothing else
touches it.
-/
namespace Nucleus.Scene
variable {σ τ : Scene} {p : Handle} {d : Dispatch} {saved : SavedState} {r : Request}
variable {c c' : Channel} {status : Word} {cs : List (Channel × Word)}

theorem Scheduled.banked (h : σ.Scheduled d τ) : τ.banked = σ.banked := by
  cases h <;> rfl

theorem Continued.banked (h : σ.Continued saved d τ) : τ.banked = σ.banked := by
  cases h with
  | resumed => rfl
  | scheduled _ h => exact h.banked

theorem banked_complete_of_ne (hne : c ≠ c') :
    (σ.complete c' status).banked.get c = σ.banked.get c := by
  unfold complete
  split
  · rfl
  · split
    · rfl
    · exact Vector.getElem_set_ne c'.isLt c.isLt fun e => hne (Fin.ext e.symm)

theorem banked_complete (hv : ¬σ.value c.key + 1 ≤ 0) :
    (σ.complete c status).banked.get c = status := by
  have hnone : σ.woken? c.key = none := if_neg hv
  simp only [complete, hnone, if_neg hv]
  exact Vector.getElem_set_self c.isLt

theorem banked_completeAll_of_notMem (hc : c ∉ cs.map (·.1)) :
    (σ.completeAll cs).banked.get c = σ.banked.get c := by
  induction cs generalizing σ with
  | nil => rfl
  | cons c' cs ih =>
    obtain ⟨hne, hc⟩ := not_or.mp (List.mem_cons.not.mp hc)
    have hstep : σ.completeAll (c' :: cs) = (σ.complete c'.1 c'.2).completeAll cs := rfl
    rw [hstep, ih hc, banked_complete_of_ne hne]

theorem banked_completeAll (hσ : σ.Sound) (hn : (cs.map (·.1)).Nodup) (hc : (c, status) ∈ cs)
    (hv : ¬σ.value c.key + 1 ≤ 0) : (σ.completeAll cs).banked.get c = status := by
  induction cs generalizing σ with
  | nil => cases hc
  | cons c' cs ih =>
    obtain ⟨hnew, hrest⟩ := List.nodup_cons.mp hn
    have hstep : σ.completeAll (c' :: cs) = (σ.complete c'.1 c'.2).completeAll cs := rfl
    rw [hstep]
    rcases List.mem_cons.mp hc with rfl | hc
    · rw [banked_completeAll_of_notMem hnew]
      exact banked_complete hv
    · have hne : c ≠ c'.1 := fun e => hnew (List.mem_map.mpr ⟨_, hc, e⟩)
      refine ih (hσ.complete _ _) hrest hc ?_
      have hsame : (σ.complete c'.1 c'.2).semaphore c.key = _ :=
        semaphore_complete c.isOutside_key hσ.orderly
      rw [if_neg fun e => hne (Channel.key_inj e)] at hsame
      have hvalue : (σ.complete c'.1 c'.2).value c.key = σ.value c.key :=
        congrArg Semaphore.value hsame
      rwa [hvalue]

theorem Served.banked (h : σ.Served p r d τ) (hr : r.channel? ≠ some c) :
    τ.banked.get c = σ.banked.get c := by
  cases h with
  | created _ h | uncreated h | unnamed h | outlived _ _ h | passed _ h | told _ h =>
    rw [h.loads.1]
    rfl
  | ended _ _ h | blocked _ _ h =>
    rw [h.banked]
    rfl
  | signalled h =>
    rw [h.loads.1]
    unfold signal
    split <;> rfl
  | @consumed _ c' _ _ hr' _ h =>
    have hne : c' ≠ c := fun e => hr (e ▸ hr')
    rw [h.loads.1]
    exact Vector.getElem_set_ne c'.isLt c.isLt fun e => hne (Fin.ext e)

/-- A wait that finds a unit is answered with the status that is kept. -/
theorem Served.consumes (hs : (σ.state? p).isSome) (h : σ.Served p r d τ) (hr : r.channel? = some c)
    (hv : 0 ≤ σ.value c.key - 1) : ∃ x, d = .load x ∧ x.register .v0 = σ.banked.get c := by
  cases h with
  | created | uncreated | unnamed | outlived | ended | passed | signalled => cases hr
  | told hr' => rcases hr' with rfl | rfl <;> cases hr
  | blocked hr' hv' =>
    cases hr'.symm.trans (Request.taken?_of_channel? hr)
    exact (hv' hv).elim
  | consumed hr' _ h =>
    cases hr'.symm.trans hr
    obtain ⟨_, x, hx, rfl⟩ := h.loads
    obtain ⟨y, hy⟩ := Option.isSome_iff_exists.mp hs
    have hx' : ((σ.take c.key).setState p (·.setV0 (σ.banked.get c))).state? p = some x := hx
    have htake : (σ.take c.key).state? p = some y := hy
    simp only [state?_setState, if_true, htake, Option.map_some, Option.some.injEq] at hx'
    refine ⟨x, rfl, ?_⟩
    rw [← hx', SavedState.setV0, SavedState.register_setRegister, if_pos rfl]

theorem Effect.banked (h : σ.Effect saved d τ)
    (hr : ∀ p r, saved.served? σ.current = some (p, r) → r.channel? ≠ some c)
    (hcs : c ∉ (saved.completions σ.machine).map (·.1)) : τ.banked.get c = σ.banked.get c := by
  cases h with
  | unasked | passedUp => rfl
  | spurious _ h => rw [h.banked]
  | ticked _ h =>
    rw [h.banked]
    rfl
  | sliceIdle _ _ h => rw [h.banked]
  | sliceEnded _ _ h | died _ _ _ _ h =>
    rw [h.banked]
    rfl
  | drained hm h =>
    have hall : σ.Effect saved d τ := .drained hm h
    have hcont := hall.continued hm
    rw [hcont.banked]
    exact banked_completeAll_of_notMem hcs
  | served hm hc h =>
    exact h.banked (hr _ _ (SavedState.served?_eq_some.mpr ⟨hm, hc⟩))

theorem Effect.banked_of_completion (hσ : σ.Sound) (h : σ.Effect saved d τ)
    (hc : (c, status) ∈ saved.completions σ.machine) (hv : ¬σ.value c.key + 1 ≤ 0) :
    τ.banked.get c = status := by
  obtain ⟨line, hm⟩ := SavedState.matter_of_mem_completions hc
  have hcont := h.continued hm
  rw [hcont.banked]
  exact banked_completeAll hσ SavedState.nodup_completions hc hv

end Nucleus.Scene
