import Nucleus.Proofs.Computer.Queueing

/-!
# The stopwatch and the time charged

A process is charged when it leaves the processor, with what the stopwatch shows then. Nothing else
that is done about an exception charges anybody or touches the stopwatch; the scheduler starts it
again for the process it chooses.
-/
namespace Nucleus

theorem Stopwatch.elapsed_congr {m m' : Machine} (h : m'.memory = m.memory) (s : Stopwatch) :
    s.elapsed m' = s.elapsed m := by
  simp only [elapsed, Machine.ticks, Machine.timeScale, Machine.read, h]

namespace Scene
variable {σ τ ρ : Scene} {p q child : Handle} {key : SemKey} {l : List Handle} {d : Dispatch}
variable {saved : SavedState} {r : Request} {cs : List (Channel × Word)}

/-- The time charged to the processes so far. -/
def cpuTimes (σ : Scene) (q : Handle) : Option Word := (σ.view.process q).map (·.cpuTime)

theorem cpuTimes_alter {f : Process → Process} (hf : ∀ x, (f x).cpuTime = x.cpuTime) :
    (σ.alter p f).cpuTimes = σ.cpuTimes := funext (View.map_alter hf)

@[simp] theorem cpuTimes_setState {f : SavedState → SavedState} :
    (σ.setState p f).cpuTimes = σ.cpuTimes :=
  cpuTimes_alter fun _ => rfl

@[simp] theorem cpuTimes_join {station : Station} : (σ.join p station).cpuTimes = σ.cpuTimes :=
  cpuTimes_alter fun _ => rfl

@[simp] theorem cpuTimes_dispatch : (σ.dispatch p).cpuTimes = σ.cpuTimes :=
  cpuTimes_alter fun _ => rfl

@[simp] theorem cpuTimes_wake : (σ.wake p).cpuTimes = σ.cpuTimes := by
  have h : (σ.wake p).cpuTimes = (σ.alter p ({ · with station := none })).cpuTimes :=
    cpuTimes_join (σ := σ.alter p ({ · with station := none }))
  exact h.trans (cpuTimes_alter fun _ => rfl)

@[simp] theorem cpuTimes_stop : σ.stop.cpuTimes = σ.cpuTimes := rfl

@[simp] theorem cpuTimes_assign {n : Int32} : (σ.assign key n).cpuTimes = σ.cpuTimes := rfl

@[simp] theorem cpuTimes_charge : (σ.charge p).cpuTimes q =
    if q = p then (σ.cpuTimes q).map (· + σ.stopwatch.elapsed σ.machine) else σ.cpuTimes q := by
  by_cases hq : q = p
  · simp [cpuTimes, charge, alter, View.alter, hq, Function.comp_def]
  · simp [cpuTimes, charge, alter, View.alter, hq]

@[simp] theorem cpuTimes_finish :
    (σ.finish l).cpuTimes q = if q ∈ l then none else σ.cpuTimes q := by
  by_cases hq : q ∈ l <;> simp [cpuTimes, finish, View.without, hq]

@[simp] theorem cpuTimes_enrol {address : Word} {support : Option SupportArea} :
    (σ.enrol p child address support).cpuTimes q = if q = child then some 0 else σ.cpuTimes q := by
  by_cases hq : q = child <;> simp [cpuTimes, enrol, View.join, View.adopt,
    View.create, View.alter, hq]

theorem cpuTimes_signal : (σ.signal key).cpuTimes = σ.cpuTimes := by
  unfold signal
  split
  · exact cpuTimes_wake
  · rfl

theorem cpuTimes_complete (c : Channel) (status : Word) :
    (σ.complete c status).cpuTimes = σ.cpuTimes := by
  unfold complete
  split
  · exact cpuTimes_setState.trans cpuTimes_wake
  · split <;> rfl

theorem cpuTimes_completeAll : (σ.completeAll cs).cpuTimes = σ.cpuTimes := by
  induction cs generalizing σ with
  | nil => rfl
  | cons c cs ih => exact ih.trans (cpuTimes_complete c.1 c.2)

theorem cpuTimes_tick : σ.tick.cpuTimes = σ.cpuTimes :=
  funext fun q => (View.map_joinAll (fun _ => rfl) _ _ q).trans
    (View.map_leaveAll (fun _ => rfl) _ _ q)

/-- Nobody is charged, and the stopwatch runs on. -/
structure Spared (σ ρ : Scene) : Prop where
  stopwatch : ρ.stopwatch = σ.stopwatch
  stays : ∀ p, ρ.current = some p → σ.current = some p
  goes : ∀ p, σ.current = some p → ρ.current = some p ∨ ρ.cpuTimes p = none
  cpuTimes : ∀ q n, ρ.cpuTimes q = some n → σ.cpuTimes q = some n ∨ (σ.cpuTimes q = none ∧ n = 0)

/-- The running process `p` has left the processor, and is charged with what the stopwatch shows. -/
structure Charged (σ : Scene) (p : Handle) (ρ : Scene) : Prop where
  before : σ.current = some p
  after : ρ.current = none
  cpuTimes : ∀ q, ρ.cpuTimes q =
    if q = p then (σ.cpuTimes q).map (· + σ.stopwatch.elapsed ρ.machine) else σ.cpuTimes q

theorem Spared.of_eq (hw : ρ.stopwatch = σ.stopwatch) (hc : ρ.current = σ.current)
    (ht : ρ.cpuTimes = σ.cpuTimes) : σ.Spared ρ where
  stopwatch := hw
  stays _ hp := hc ▸ hp
  goes _ hp := .inl (hc ▸ hp)
  cpuTimes _ _ hq := .inl (ht ▸ hq)

theorem spared_finish : σ.Spared (σ.finish l) where
  stopwatch := rfl
  stays p hp := (Option.filter_eq_some_iff.mp hp).1
  goes p hp := by
    by_cases hl : p ∈ l
    · simp [hl]
    · simp [finish, hp, hl]
  cpuTimes q n hq := by
    rw [cpuTimes_finish] at hq
    split at hq
    · cases hq
    · exact .inl hq

theorem spared_enrol {address : Word} {support : Option SupportArea}
    (hn : σ.view.process child = none) : σ.Spared (σ.enrol p child address support) where
  stopwatch := rfl
  stays _ hp := hp
  goes _ hp := .inl hp
  cpuTimes q n hq := by
    rw [cpuTimes_enrol] at hq
    split at hq
    · next he =>
      subst he
      exact .inr ⟨by simp [cpuTimes, hn], (Option.some.inj hq).symm⟩
    · exact .inl hq

theorem Spared.setState (h : σ.Spared ρ) (f : SavedState → SavedState) :
    σ.Spared (ρ.setState p f) where
  stopwatch := h.stopwatch
  stays := h.stays
  goes q hq := by
    rw [cpuTimes_setState]
    exact h.goes q hq
  cpuTimes q n hq := by
    rw [cpuTimes_setState] at hq
    exact h.cpuTimes q n hq

theorem Performed.metered (hc : σ.current = some p) (h : σ.Performed p r ρ) :
    σ.Spared ρ ∨ σ.Charged p ρ := by
  cases h with
  | created hn => exact .inl (((spared_enrol hn).setState _).setState _)
  | answered => exact .inl (.of_eq rfl rfl cpuTimes_setState)
  | outlived => exact .inl (spared_finish.setState _)
  | ended => exact .inl spared_finish
  | passed => exact .inl (.of_eq rfl rfl rfl)
  | @consumed _ c =>
    have htimes : ((σ.take c.key).setState p (·.setV0 (σ.banked.get c))).cpuTimes = σ.cpuTimes := by
      rw [cpuTimes_setState, take, cpuTimes_assign]
    exact .inl (.of_eq rfl rfl htimes)
  | blocked =>
    refine .inr ⟨hc, rfl, fun q => ?_⟩
    rw [block, cpuTimes_stop, cpuTimes_charge, cpuTimes_join, take, cpuTimes_assign]
    rfl
  | @signalled key =>
    refine .inl (.of_eq ?_ ?_ cpuTimes_signal)
    all_goals
      unfold signal
      split <;> rfl

theorem Handled.metered (h : σ.Handled saved ρ) :
    (σ.Spared ρ ∧ (σ.current = none ∨ saved.matter ≠ .sliceEnd)) ∨ ∃ p, σ.Charged p ρ := by
  cases h with
  | ignored hc => exact .inl ⟨.of_eq rfl rfl rfl, hc⟩
  | @sliceEnded p hm hc =>
    refine .inr ⟨p, hc, rfl, fun q => ?_⟩
    rw [preempt, cpuTimes_stop, cpuTimes_join, cpuTimes_setState, cpuTimes_charge]
    rfl
  | ticked hm => exact .inl ⟨.of_eq rfl rfl cpuTimes_tick, .inr (by simp [hm])⟩
  | drained hm =>
    rw [serveAll_completions hm]
    refine .inl ⟨.of_eq stopwatch_completeAll ?_ cpuTimes_completeAll, .inr (by simp [hm])⟩
    exact current_completeAll (saved.completions σ.machine)
  | @served r p _ hm hc h =>
    have hout : saved.matter ≠ .sliceEnd := by simp [hm]
    have hc' : (σ.setState p fun _ => saved.pastInstruction).current = some p := hc
    rcases h.metered hc' with hs | hs
    · refine .inl ⟨⟨hs.stopwatch, hs.stays, hs.goes, fun q n hq => ?_⟩, .inr hout⟩
      rw [← cpuTimes_setState (σ := σ)]
      exact hs.cpuTimes q n hq
    · refine .inr ⟨p, hc, hs.after, fun q => ?_⟩
      rw [hs.cpuTimes q, cpuTimes_setState]
      rfl
  | passedUp hm => exact .inl ⟨.of_eq rfl rfl rfl, .inr (by simp [hm])⟩
  | died hm => exact .inl ⟨spared_finish, .inr (by simp [hm])⟩

theorem Proceeds.cpuTimes_eq (h : ρ.Proceeds d τ) : τ.cpuTimes = ρ.cpuTimes := by
  cases h with
  | decided => rfl
  | scheduled _ h =>
    cases h with
    | dispatched => exact cpuTimes_dispatch
    | idle => rfl

theorem Proceeds.memory_eq (h : ρ.Proceeds d τ) : τ.machine.memory = ρ.machine.memory := by
  cases h with
  | decided => rfl
  | scheduled _ h =>
    cases h with
    | dispatched => rfl
    | idle _ hm => exact hm

/-- Whoever runs was chosen by the scheduler, which has started the stopwatch for it, or had the
processor already. -/
theorem Proceeds.of_current (h : ρ.Proceeds d τ) (hp : τ.current = some p) :
    (p ∈ ρ.view.queue .ready ∧ τ.dispatches = ρ.dispatches + 1 ∧
      τ.stopwatch = .startedAt τ.machine) ∨ τ = ρ := by
  cases h with
  | decided => exact .inr rfl
  | scheduled hc h =>
    cases h with
    | dispatched hq =>
      cases hp
      exact .inl ⟨by simp [hq], rfl, rfl⟩
    | idle => cases hp

/-- Nobody but the running process is charged. -/
inductive Metered (σ : Scene) (saved : SavedState) (τ : Scene) : Prop
  | spared (hgoes : ∀ p, σ.current = some p → τ.cpuTimes p ≠ none →
      τ.current = some p ∧ saved.matter ≠ .sliceEnd)
      (ht : ∀ q n, τ.cpuTimes q = some n → σ.cpuTimes q = some n ∨ (σ.cpuTimes q = none ∧ n = 0)) :
      Metered σ saved τ
  | charged {p : Handle} (hc : σ.current = some p)
      (hl : τ.current = some p → saved.matter = .sliceEnd) (ht : ∀ q, τ.cpuTimes q =
        if q = p then (σ.cpuTimes q).map (· + σ.stopwatch.elapsed τ.machine) else σ.cpuTimes q) :
      Metered σ saved τ

theorem Effect.metered (hσ : σ.Sound) (h : σ.Effect saved d τ) : σ.Metered saved τ := by
  obtain ⟨ρ, hρ, hp⟩ := h.handled
  have hq := hρ.queued hσ
  have htimes := hp.cpuTimes_eq
  rcases hρ.metered with ⟨hs, hm⟩ | ⟨p, hs⟩
  · refine .spared (fun p hc ht => ?_) fun q n hn => hs.cpuTimes q n (htimes ▸ hn)
    have hρc : ρ.current = some p := (hs.goes p hc).resolve_right (htimes ▸ ht)
    have hm' : saved.matter ≠ .sliceEnd := hm.resolve_left (by simp [hc])
    cases hp with
    | decided => exact ⟨hρc, hm'⟩
    | scheduled hn => cases hn.symm.trans hρc
  · refine .charged hs.before (fun hc => ?_) fun q => ?_
    · rcases hp.of_current hc with ⟨hready, _⟩ | rfl
      · exact hq.unrenewed hσ hs.before hready
      · cases hs.after.symm.trans hc
    · rw [htimes, Stopwatch.elapsed_congr hp.memory_eq]
      exact hs.cpuTimes q

/-- The stopwatch shows how long the running process has had the processor. -/
theorem Effect.stamped (hσ : σ.Sound) (h : σ.Effect saved d τ) (hp : τ.current = some p) :
    (τ.dispatches = σ.dispatches + 1 ∧ τ.stopwatch = .startedAt τ.machine) ∨
      (τ.dispatches = σ.dispatches ∧ σ.current = some p ∧ τ.stopwatch = σ.stopwatch) := by
  obtain ⟨ρ, hρ, hd⟩ := h.handled
  have hn := (hρ.queued hσ).dispatches
  rcases hd.of_current hp with ⟨_, hcount, hw⟩ | rfl
  · exact .inl ⟨hcount.trans (congrArg (· + 1) hn), hw⟩
  · rcases hρ.metered with ⟨hs, _⟩ | ⟨c, hs⟩
    · exact .inr ⟨hn, hs.stays p hp, hs.stopwatch⟩
    · cases hs.after.symm.trans hp

theorem Effect.told_cpuTime (hσ : σ.Sound) (h : σ.Effect saved d τ)
    (hs : saved.served? σ.current = some (p, .cpuTime)) :
    ∃ n, σ.cpuTimes p = some n ∧ τ.current = some p ∧ τ.stopwatch = σ.stopwatch ∧
      d = .load (saved.pastInstruction.setV0 (n + σ.stopwatch.elapsed σ.machine)) := by
  have hc := (SavedState.served?_eq_some.mp hs).2
  have hstate := hσ.state?_setState_running hc saved.pastInstruction
  cases h.of_served hs with
  | consumed hr | blocked hr => cases hr
  | told _ h hw =>
    obtain ⟨rfl, x, hx, rfl⟩ := h.loads
    obtain ⟨y, hy, rfl⟩ := hw rfl
    rw [state?_setState, if_pos rfl, hstate] at hx
    have htime : σ.cpuTimes p = some y.cpuTime := by
      rw [← cpuTimes_setState (σ := σ) (p := p) (f := fun _ => saved.pastInstruction), cpuTimes, hy]
      rfl
    exact ⟨y.cpuTime, htime, hc, rfl, congrArg Dispatch.load (Option.some.inj hx).symm⟩

end Scene
end Nucleus
