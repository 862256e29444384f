import Nucleus.Proofs.Computer.Passage

/-!
# Who is woken

The completions of one interrupt wake the first waiter of each channel that owes a unit. Those go to
the end of the ready queue in the order in which the devices are served, each with the status of its
own device, and nobody else is touched.
-/
namespace Nucleus.Scene
variable {σ τ : Scene} {p q : Handle} {key : SemKey} {d : Dispatch} {saved : SavedState}
variable {c c' : Channel} {status : Word} {cs : List (Channel × Word)}

theorem woken?_congr (h : τ.semaphore key = σ.semaphore key) : τ.woken? key = σ.woken? key := by
  have hvalue : τ.value key = σ.value key := congrArg Semaphore.value h
  have hwaiters : τ.waiters key = σ.waiters key := congrArg Semaphore.waiters h
  rw [woken?, woken?, hvalue, hwaiters]

theorem isQuiet_key (hc : c ≠ .clock) : c.key.IsQuiet := by simp [SemKey.IsQuiet, hc]

theorem woken?_complete (hσ : σ.Sound) (hne : c ≠ c') :
    (σ.complete c' status).woken? c.key = σ.woken? c.key := by
  refine woken?_congr ?_
  rw [semaphore_complete c.isOutside_key hσ.orderly, if_neg fun e => hne (Channel.key_inj e)]

/-- Those whom the completions wake. -/
def wokenAll (σ : Scene) (cs : List (Channel × Word)) : List Handle :=
  cs.filterMap fun c => σ.woken? c.1.key

theorem woken?_inj (hσ : σ.Sound) {k : SemKey} (h : σ.woken? key = some q)
    (h' : σ.woken? k = some q) : key = k :=
  Station.semaphore.inj (hσ.orderly.apart (mem_waiters_of_woken? h) (mem_waiters_of_woken? h'))

theorem wokenAll_cons (c : Channel × Word) :
    σ.wokenAll (c :: cs) = (σ.woken? c.1.key).toList ++ σ.wokenAll cs := by
  rw [wokenAll, List.filterMap_cons]
  cases σ.woken? c.1.key <;> rfl

theorem wokenAll_complete (hσ : σ.Sound) (hc : c ∉ cs.map (·.1)) (status : Word) :
    (σ.complete c status).wokenAll cs = σ.wokenAll cs :=
  List.filterMap_congr fun c' hm => woken?_complete hσ fun e => hc (List.mem_map.mpr ⟨c', hm, e⟩)

theorem ready_wake (ho : σ.view.Orderly) (hq : q ∈ σ.waiters key) :
    (σ.wake q).view.queue .ready = σ.view.queue .ready ++ [q] := by
  have hready : q ∉ σ.view.queue .ready := fun hm => by
    have hs := ho.apart hm hq
    cases hs
  have hjoin : (σ.wake q).view.queue .ready = (σ.view.queue .ready).filter (· != q) ++ [q] := by
    simp [wake, View.join, View.leave, View.alter]
  rwa [View.filter_ne_of_notMem hready] at hjoin

theorem ready_complete (hσ : σ.Sound) : (σ.complete c status).view.queue .ready =
    σ.view.queue .ready ++ (σ.woken? c.key).toList := by
  unfold complete
  cases h : σ.woken? c.key with
  | none =>
    simp only [Option.toList_none, List.append_nil]
    split <;> rfl
  | some q =>
    exact ready_wake (σ := σ.give c.key) (hσ.give c.key).orderly (mem_waiters_of_woken? (σ := σ) h)

theorem ready_completeAll (hσ : σ.Sound) (hn : (cs.map (·.1)).Nodup) :
    (σ.completeAll cs).view.queue .ready = σ.view.queue .ready ++ σ.wokenAll cs := by
  induction cs generalizing σ with
  | nil => simp [completeAll, wokenAll]
  | cons c cs ih =>
    obtain ⟨hc, hn⟩ := List.nodup_cons.mp hn
    have hstep : σ.completeAll (c :: cs) = (σ.complete c.1 c.2).completeAll cs := rfl
    rw [hstep, ih (hσ.complete _ _) hn, ready_complete hσ, wokenAll_complete hσ hc, wokenAll_cons,
      List.append_assoc]

theorem softBlocked_complete (hσ : σ.Sound) (c : Channel) (status : Word) :
    (σ.complete c status).view.softBlocked + (σ.woken? c.key).toList.length =
      σ.view.softBlocked := by
  unfold complete
  cases h : σ.woken? c.key with
  | none =>
    simp only [Option.toList_none, List.length_nil, Nat.add_zero]
    split <;> rfl
  | some q =>
    have hleave := View.softBlocked_leave hσ.wf (mem_waiters_of_woken? h) (hσ.nodup _)
    rw [isSoft_channel, if_pos rfl] at hleave
    have hwake : (σ.wake q).view.softBlocked = (σ.view.leave q).softBlocked := by
      simp [wake, View.softBlocked_join, Station.isSoft]
    rw [← hwake] at hleave
    exact hleave

theorem softBlocked_completeAll (hσ : σ.Sound) (hn : (cs.map (·.1)).Nodup) :
    (σ.completeAll cs).view.softBlocked + (σ.wokenAll cs).length = σ.view.softBlocked := by
  induction cs generalizing σ with
  | nil => simp [completeAll, wokenAll]
  | cons c cs ih =>
    obtain ⟨hc, hn⟩ := List.nodup_cons.mp hn
    have hstep : σ.completeAll (c :: cs) = (σ.complete c.1 c.2).completeAll cs := rfl
    have hone := softBlocked_complete hσ c.1 c.2
    have hrest := ih (hσ.complete c.1 c.2) hn
    rw [wokenAll_complete hσ hc] at hrest
    rw [hstep, wokenAll_cons, List.length_append, ← hone, ← hrest]
    omega

theorem state?_completeAll (hσ : σ.Sound) (hn : (cs.map (·.1)).Nodup)
    (hq : q ∉ σ.wokenAll cs) : (σ.completeAll cs).state? q = σ.state? q := by
  induction cs generalizing σ with
  | nil => rfl
  | cons c cs ih =>
    obtain ⟨hc, hn⟩ := List.nodup_cons.mp hn
    rw [wokenAll_cons, List.mem_append, not_or, Option.mem_toList] at hq
    obtain ⟨hfirst, hrest⟩ := hq
    rw [← wokenAll_complete hσ hc c.2] at hrest
    have hstep : σ.completeAll (c :: cs) = (σ.complete c.1 c.2).completeAll cs := rfl
    rw [hstep, ih (hσ.complete _ _) hn hrest, state?_complete, if_neg hfirst]

theorem state?_completeAll_of_woken (hσ : σ.Sound) (hn : (cs.map (·.1)).Nodup)
    (hc : (c, status) ∈ cs) (hq : σ.woken? c.key = some q) :
    (σ.completeAll cs).state? q = (σ.state? q).map (·.setV0 status) := by
  induction cs generalizing σ with
  | nil => cases hc
  | cons c₀ cs ih =>
    obtain ⟨hnew, hrestn⟩ := List.nodup_cons.mp hn
    have hstep : σ.completeAll (c₀ :: cs) = (σ.complete c₀.1 c₀.2).completeAll cs := rfl
    rcases List.mem_cons.mp hc with rfl | hc
    · have hrest : q ∉ σ.wokenAll cs := by
        intro hm
        obtain ⟨c', hc', hq'⟩ := List.mem_filterMap.mp hm
        have he := Channel.key_inj (woken?_inj hσ hq hq')
        exact hnew (List.mem_map.mpr ⟨c', hc', he.symm⟩)
      rw [← wokenAll_complete hσ hnew status] at hrest
      rw [hstep, state?_completeAll (hσ.complete _ _) hrestn hrest, state?_complete, if_pos hq]
    · have hne : c ≠ c₀.1 := fun e => hnew (List.mem_map.mpr ⟨_, hc, e⟩)
      have hfirst : σ.woken? c₀.1.key ≠ some q := fun h =>
        hne (Channel.key_inj (woken?_inj hσ hq h))
      rw [hstep, ih (hσ.complete _ _) hrestn hc, state?_complete, if_neg hfirst]
      rwa [woken?_complete hσ hne]

theorem Scheduled.line_eq (hn : (σ.view.queue .ready).Nodup) (h : σ.Scheduled d τ) :
    τ.current.toList ++ τ.view.queue .ready = σ.view.queue .ready := by
  cases h with
  | @dispatched p rest x hq hx =>
    rw [hq] at hn
    have hleave : (σ.dispatch p).view.queue .ready = (σ.view.queue .ready).filter (· != p) := rfl
    rw [hleave, hq, List.filter_cons_of_neg (by simp),
      View.filter_ne_of_notMem (List.nodup_cons.mp hn).1]
    rfl
  | idle hq => rfl

theorem Scheduled.softBlocked (hσ : σ.Sound) (h : σ.Scheduled d τ) :
    τ.view.softBlocked = σ.view.softBlocked := by
  cases h with
  | @dispatched p rest x hq hx =>
    have hleave := View.softBlocked_leave (p := p) (s := .ready) hσ.wf (by simp [hq]) (hσ.nodup _)
    simpa [dispatch, Station.isSoft] using hleave
  | idle => simp only

theorem Continued.line_eq (ho : σ.view.Orderly) (h : σ.Continued saved d τ) :
    τ.current.toList ++ τ.view.queue .ready = σ.current.toList ++ σ.view.queue .ready := by
  cases h with
  | resumed => rfl
  | scheduled hc h => rw [h.line_eq (ho.nodup _), hc, Option.toList_none, List.nil_append]

theorem Continued.softBlocked (hσ : σ.Sound) (h : σ.Continued saved d τ) :
    τ.view.softBlocked = σ.view.softBlocked := by
  cases h with
  | resumed => simp only
  | scheduled _ h => exact h.softBlocked hσ

theorem current_complete (c : Channel) (status : Word) :
    (σ.complete c status).current = σ.current := by
  unfold complete
  split
  · rfl
  · split <;> rfl

theorem current_completeAll (cs : List (Channel × Word)) :
    (σ.completeAll cs).current = σ.current := by
  induction cs generalizing σ with
  | nil => rfl
  | cons c cs ih => exact (ih (σ := σ.complete c.1 c.2)).trans (current_complete _ _)

theorem Sound.onMachine (hσ : σ.Sound) (m : Machine) : (σ.onMachine m).Sound :=
  ⟨hσ.wf, hσ.nodup, hσ.running⟩

theorem Effect.drains (hσ : σ.Sound) (h : σ.Effect saved d τ) {line : Word}
    (hm : saved.matter = .devices line) (hcs : saved.completions σ.machine = cs) :
    τ.current.toList ++ τ.view.queue .ready =
        σ.current.toList ++ σ.view.queue .ready ++ σ.wokenAll cs ∧
      τ.view.softBlocked + (σ.wokenAll cs).length = σ.view.softBlocked ∧
      (∀ c status q, (c, status) ∈ cs → σ.woken? c.key = some q →
        τ.state? q = (σ.state? q).map (·.setV0 status)) ∧
      ∀ q, q ∉ σ.wokenAll cs → τ.state? q = σ.state? q := by
  have hcont := h.continued hm
  have hn : (cs.map (·.1)).Nodup := hcs ▸ SavedState.nodup_completions
  rw [hcs] at hcont
  generalize σ.machine.drain line = m at hcont
  have hsound := (hσ.completeAll cs).onMachine m
  have hline := hcont.line_eq hsound.orderly
  have hsoft := hcont.softBlocked hsound
  have hready : ((σ.completeAll cs).onMachine m).view.queue .ready =
      σ.view.queue .ready ++ σ.wokenAll cs :=
    ready_completeAll hσ hn
  have hcurrent : ((σ.completeAll cs).onMachine m).current = σ.current := current_completeAll cs
  refine ⟨?_, ?_, fun c status q hc hq => ?_, fun q hq => ?_⟩
  · rw [hline, hready, hcurrent, List.append_assoc]
  · rw [hsoft]
    exact softBlocked_completeAll hσ hn
  · rw [hcont.state?_eq]
    exact state?_completeAll_of_woken hσ hn hc hq
  · rw [hcont.state?_eq]
    exact state?_completeAll hσ hn hq

theorem Effect.wakes (hσ : σ.Sound) (h : σ.Effect saved d τ)
    (hcs : saved.completions σ.machine = cs) (hne : cs ≠ []) :
    τ.current.toList ++ τ.view.queue .ready =
        σ.current.toList ++ σ.view.queue .ready ++ σ.wokenAll cs ∧
      τ.view.softBlocked + (σ.wokenAll cs).length = σ.view.softBlocked ∧
      ∀ c status q, (c, status) ∈ cs → σ.woken? c.key = some q →
        τ.state? q = (σ.state? q).map (·.setV0 status) := by
  obtain ⟨c, hc⟩ := List.exists_mem_of_ne_nil _ hne
  obtain ⟨line, hm⟩ := SavedState.matter_of_mem_completions (hcs ▸ hc)
  obtain ⟨hline, hsoft, hstate, _⟩ := h.drains hσ hm hcs
  exact ⟨hline, hsoft, hstate⟩

/-- A completion gives its channel a unit, whatever the other completions do. -/
theorem Effect.semaphore_of_completion (hσ : σ.Sound) (h : σ.Effect saved d τ)
    (hc : (c, status) ∈ saved.completions σ.machine) :
    τ.semaphore c.key = (σ.semaphore c.key).give := by
  obtain ⟨line, hm⟩ := SavedState.matter_of_mem_completions hc
  have hcont := h.continued hm
  have hvalue : ((σ.completeAll (saved.completions σ.machine)).onMachine
    (σ.machine.drain line)).semaphore c.key =
      (σ.completeAll (saved.completions σ.machine)).semaphore c.key :=
    congrArg (Semaphore.mk · _) (value_machine fun hn => by simp at hn)
  rw [hcont.semaphore ((hσ.completeAll _).onMachine _).orderly, hvalue,
    semaphore_completeAll c.isOutside_key hσ SavedState.nodup_completions, if_pos]
  exact List.mem_map.mpr ⟨_, hc, rfl⟩

end Nucleus.Scene
