import Nucleus.Proofs.Computer.Banking
import Nucleus.Proofs.Computer.Leaving

/-!
# What touches the nucleus's own semaphores

A program can name every word as a semaphore, but not one of the nucleus's own: those keys are
ill-formed. So the integer of a channel changes when a wait for it is served, when a completion on
it is served and, for the pseudo-clock, with a tick; the status that is kept changes in the first
two cases only.
-/
namespace Nucleus

/-- A request to be served that takes from or gives to the semaphore of a
channel is a wait for the channel. -/
theorem Request.channel?_of_slot? {r : Request} {c : Channel} {key : SemKey} (hw : r.isWellFormed)
    (hk : r.taken? = some key ∨ r.given? = some key) (hc : Channel.slot? key = some c) :
    r.channel? = some c := by
  obtain rfl := Channel.slot?_eq_some_iff.mp hc
  have huser : ¬Request.isUserKey c.key := by simp [isUserKey]
  cases r with
  | passeren k =>
    obtain rfl : k = c.key := by simpa [taken?, given?] using hk
    exact (huser hw).elim
  | verhogen k =>
    obtain rfl : k = c.key := by simpa [taken?, given?, channel?] using hk
    exact (huser hw).elim
  | waitClock =>
    have hkey : Channel.clock.key = c.key := by simpa [taken?, given?, channel?] using hk
    exact congrArg some (Channel.key_inj hkey)
  | waitDevice line device receive =>
    have hmap : (waitDevice line device receive).channel?.map Channel.key = some c.key :=
      hk.resolve_right (by simp [given?])
    obtain ⟨c', hc', hkey⟩ := Option.map_eq_some_iff.mp hmap
    rw [hc', Channel.key_inj hkey]
  | _ => simp [taken?, given?, channel?] at hk

namespace Scene
variable {σ τ : Scene} {p q : Handle} {d : Dispatch} {saved : SavedState} {r : Request}
  {key k : SemKey}
variable {c c' : Channel} {status : Word} {cs : List (Channel × Word)}

theorem channels_assign_of_ne (h : Channel.slot? key ≠ some c) (n : Int32) :
    (σ.assign key n).channels.get c = σ.channels.get c := by
  cases hs : Channel.slot? key with
  | none => simp [assign, cells, NucleusCells.assign, hs]
  | some c' =>
    obtain rfl := Channel.slot?_eq_some_iff.mp hs
    have hne : c' ≠ c := fun e => h (e ▸ hs)
    rw [assign_channel]
    exact Vector.getElem_set_ne c'.isLt c.isLt fun e => hne (Fin.ext e)

theorem channels_assign (c : Channel) (n : Int32) : (σ.assign c.key n).channels.get c = n := by
  rw [assign_channel]
  exact Vector.getElem_set_self c.isLt

theorem Scheduled.channels (h : σ.Scheduled d τ) : τ.channels = σ.channels := by
  cases h <;> rfl

theorem Continued.channels (h : σ.Continued saved d τ) : τ.channels = σ.channels := by
  cases h with
  | resumed => rfl
  | scheduled _ h => exact h.channels

theorem channels_signal (k : SemKey) : (σ.signal k).channels = (σ.give k).channels := by
  unfold signal
  split <;> rfl

theorem channels_complete (c : Channel) (status : Word) :
    (σ.complete c status).channels = (σ.give c.key).channels := by
  unfold complete
  split
  · rfl
  · split <;> rfl

theorem channels_completeAll_of_notMem (hc : c ∉ cs.map (·.1)) :
    (σ.completeAll cs).channels.get c = σ.channels.get c := by
  induction cs generalizing σ with
  | nil => rfl
  | cons c' cs ih =>
    obtain ⟨hne, hc⟩ := not_or.mp (List.mem_cons.not.mp hc)
    have hstep : σ.completeAll (c' :: cs) = (σ.complete c'.1 c'.2).completeAll cs := rfl
    have hslot : Channel.slot? c'.1.key ≠ some c := fun e => hne (by simpa using e.symm)
    rw [hstep, ih hc, channels_complete]
    exact channels_assign_of_ne hslot _

theorem Served.channels (h : σ.Served p r d τ) (hw : r.isWellFormed) (hr : r.channel? ≠ some c) :
    τ.channels.get c = σ.channels.get c := by
  have hslot : ∀ {key}, r.taken? = some key ∨ r.given? = some key → Channel.slot? key ≠ some c :=
    fun hk hs => hr (Request.channel?_of_slot? hw hk hs)
  cases h with
  | created _ h | uncreated h | unnamed h | outlived _ _ h | told _ h =>
    rw [h.loads.1]
    rfl
  | ended _ _ h =>
    rw [h.channels]
    rfl
  | passed _ h =>
    rw [h.loads.1]
    exact channels_assign_of_ne (hslot (.inl rfl)) _
  | consumed hr' _ h =>
    rw [h.loads.1]
    exact channels_assign_of_ne (hslot (.inl (Request.taken?_of_channel? hr'))) _
  | blocked hr' _ h =>
    rw [h.channels]
    exact channels_assign_of_ne (hslot (.inl hr')) _
  | signalled h =>
    rw [h.loads.1, channels_signal]
    exact channels_assign_of_ne (hslot (.inr rfl)) _

/-- What an exception does not ask for, report or tick, it does not change. -/
theorem Effect.channels (h : σ.Effect saved d τ)
    (hr : ∀ p r, saved.served? σ.current = some (p, r) → r.channel? ≠ some c)
    (hcs : c ∉ (saved.completions σ.machine).map (·.1))
    (hclock : saved.matter = .tick → c ≠ .clock) : τ.channels.get c = σ.channels.get c := by
  cases h with
  | unasked | passedUp => rfl
  | spurious _ h => rw [h.channels]
  | sliceIdle _ _ h => rw [h.channels]
  | sliceEnded _ _ h | died _ _ _ _ h =>
    rw [h.channels]
    rfl
  | ticked hm h =>
    rw [h.channels]
    exact Vector.getElem_set_ne Channel.clock.isLt c.isLt fun e => hclock hm (Fin.ext e.symm)
  | drained hm h =>
    have hall : σ.Effect saved d τ := .drained hm h
    have hcont := hall.continued hm
    rw [hcont.channels]
    exact channels_completeAll_of_notMem hcs
  | served hm hc h =>
    exact h.channels (SavedState.matter_eq_request hm).2.2.2
      (hr _ _ (SavedState.served?_eq_some.mpr ⟨hm, hc⟩))

/-- A wait takes a unit. Where there was one, it takes the status too that is kept. -/
theorem Served.waits (h : σ.Served p r d τ) (hr : r.channel? = some c) :
    τ.channels.get c = σ.channels.get c - 1 ∧
      (0 ≤ σ.channels.get c - 1 → τ.banked.get c = 0) ∧
      (¬0 ≤ σ.channels.get c - 1 → τ.banked.get c = σ.banked.get c) := by
  have hvalue : σ.value c.key = σ.channels.get c := value_channel _ c
  have htake : (σ.take c.key).channels.get c = σ.channels.get c - 1 := by
    rw [take, channels_assign, hvalue]
  cases h with
  | created | uncreated | unnamed | outlived | ended | passed | signalled => cases hr
  | told hr' => rcases hr' with rfl | rfl <;> cases hr
  | consumed hr' hv h =>
    cases hr'.symm.trans hr
    rw [h.loads.1]
    exact ⟨htake, fun _ => Vector.getElem_set_self c.isLt, fun hn => (hn (hvalue ▸ hv)).elim⟩
  | blocked hr' hv h =>
    cases hr'.symm.trans (Request.taken?_of_channel? hr)
    rw [h.channels, h.banked]
    exact ⟨htake, fun hp => (hv (hvalue ▸ hp)).elim, fun _ => rfl⟩

theorem banked_complete_of_owed (hv : σ.value c.key + 1 ≤ 0) :
    (σ.complete c status).banked = σ.banked := by
  unfold complete
  split
  · rfl
  · rw [if_pos hv]
    rfl

/-- A completion that is owed to somebody leaves the status alone that is kept. -/
theorem banked_completeAll_of_owed (hσ : σ.Sound) (hn : (cs.map (·.1)).Nodup)
    (hv : σ.value c.key + 1 ≤ 0) : (σ.completeAll cs).banked.get c = σ.banked.get c := by
  induction cs generalizing σ with
  | nil => rfl
  | cons c' cs ih =>
    obtain ⟨hnew, hrest⟩ := List.nodup_cons.mp hn
    have hstep : σ.completeAll (c' :: cs) = (σ.complete c'.1 c'.2).completeAll cs := rfl
    rw [hstep]
    by_cases he : c'.1 = c
    · rw [banked_completeAll_of_notMem (he ▸ hnew), ← he, banked_complete_of_owed (he ▸ hv)]
    · have hsame : (σ.complete c'.1 c'.2).semaphore c.key = _ :=
        semaphore_complete c.isOutside_key hσ.orderly
      rw [if_neg fun e => he (Channel.key_inj e).symm] at hsame
      have hvalue : (σ.complete c'.1 c'.2).value c.key = σ.value c.key :=
        congrArg Semaphore.value hsame
      rw [ih (hσ.complete _ _) hrest (hvalue ▸ hv), banked_complete_of_ne (Ne.symm he)]

theorem Effect.completes (hσ : σ.Sound) (h : σ.Effect saved d τ)
    (hc : (c, status) ∈ saved.completions σ.machine) :
    τ.channels.get c = σ.channels.get c + 1 ∧
      (σ.channels.get c + 1 ≤ 0 → τ.banked.get c = σ.banked.get c) := by
  have hgive := congrArg Semaphore.value (h.semaphore_of_completion hσ hc)
  have hvalue : σ.value c.key = σ.channels.get c := value_channel _ c
  have hvalue' : τ.value c.key = τ.channels.get c := value_channel _ c
  refine ⟨hvalue'.symm.trans (hgive.trans (congrArg (· + 1) hvalue)), fun hv => ?_⟩
  obtain ⟨line, hm⟩ := SavedState.matter_of_mem_completions hc
  have hcont := h.continued hm
  rw [hcont.banked]
  exact banked_completeAll_of_owed hσ SavedState.nodup_completions
    (hvalue ▸ hv)

theorem waiters_signal_of_ne (ho : σ.view.Orderly) (hne : k ≠ key) :
    (σ.signal k).waiters key = σ.waiters key := by
  unfold signal
  cases hq : σ.woken? k with
  | none => rfl
  | some q =>
    have hnot : q ∉ σ.waiters key := fun hm => by
      cases ho.apart hm (mem_waiters_of_woken? hq)
      exact hne rfl
    have hfilter : (σ.waiters key).filter (· != q) = σ.waiters key :=
      List.filter_eq_self.mpr fun x hx => bne_iff_ne.mpr fun e => hnot (e ▸ hx)
    exact waiters_wake.trans hfilter

theorem waiters_complete_of_ne (ho : σ.view.Orderly) (hne : c.key ≠ key) :
    (σ.complete c status).waiters key = σ.waiters key := by
  have hsignal : (σ.complete c status).waiters key = (σ.signal c.key).waiters key := by
    unfold complete signal
    cases σ.woken? c.key with
    | none =>
      simp only
      split <;> rfl
    | some q => rfl
  exact hsignal.trans (waiters_signal_of_ne ho hne)

theorem waiters_completeAll_of_ne (hσ : σ.Sound) (hne : ∀ c ∈ cs, c.1.key ≠ key) :
    (σ.completeAll cs).waiters key = σ.waiters key := by
  induction cs generalizing σ with
  | nil => rfl
  | cons c cs ih =>
    obtain ⟨hfirst, hne⟩ := List.forall_mem_cons.mp hne
    exact (ih (hσ.complete c.1 c.2) hne).trans (waiters_complete_of_ne hσ.orderly hfirst)

/-- P and V of a program leave the queues of the nucleus's own semaphores alone. -/
theorem Served.waiters_channel (hσ : σ.Sound) (hcur : σ.current = some p) (h : σ.Served p r d τ)
    (hw : r.isWellFormed) (hr : r = .passeren key ∨ r = .verhogen key) (c : Channel) :
    τ.waiters c.key = σ.waiters c.key := by
  have hne : key ≠ c.key := by
    rintro rfl
    rcases hr with rfl | rfl <;> simp [Request.isWellFormed, Request.isUserKey] at hw
  rcases hr with rfl | rfl
  · cases h with
    | passed _ h =>
      rw [h.loads.1]
      rfl
    | consumed hr' => cases hr'
    | told hr' => rcases hr' with hr' | hr' <;> cases hr'
    | blocked hr' _ h =>
      cases hr'
      have hstation : Station.semaphore key ≠ .semaphore c.key :=
        fun e => hne (Station.semaphore.inj e)
      rw [h.waiters_eq (orderly_block hσ hcur key), block, waiters_stop,
        waiters_charge, waiters_join, if_neg hstation]
      rfl
  · cases h with
    | consumed hr' | blocked hr' => cases hr'
    | told hr' => rcases hr' with hr' | hr' <;> cases hr'
    | signalled h =>
      rw [h.loads.1]
      exact waiters_signal_of_ne hσ.orderly hne

end Scene
end Nucleus
