import Nucleus.Proofs.Computer.Resuming

/-!
# Before somebody goes on

An exception is handled first, and then somebody goes on: the process that has the processor, or
whoever the scheduler chooses when nobody has it. The two parts are told apart here, so that a fact
about an exception is one about how it is handled and one about the scheduler.
-/
namespace Nucleus.Scene
variable {σ τ ρ : Scene} {p : Handle} {d : Dispatch} {saved : SavedState} {r : Request}

/-- What the request `r` of the running process `p` does before somebody goes on. -/
inductive Performed (σ : Scene) (p : Handle) : Request → Scene → Prop
  | created {address : Word} {support : Option SupportArea} {child : Handle}
      {f g : SavedState → SavedState} (hn : σ.view.process child = none) :
      Performed σ p (.createProcess address support)
        (((σ.enrol p child address support).setState p f).setState p g)
  /-- Nothing but the answer. -/
  | answered {r : Request} {f : SavedState → SavedState} : Performed σ p r (σ.setState p f)
  | outlived {target : Word} {l : List Handle} {f : SavedState → SavedState} (hp : p ∉ l) :
      Performed σ p (.terminateProcess target) ((σ.finish l).setState p f)
  | ended {target : Word} {l : List Handle} (hp : p ∈ l) :
      Performed σ p (.terminateProcess target) (σ.finish l)
  | passed {key : SemKey} : Performed σ p (.passeren key) (σ.take key)
  | consumed {r : Request} {c : Channel} : Performed σ p r (σ.consume p c)
  | blocked {r : Request} {key : SemKey} (hr : r.taken? = some key) :
      Performed σ p r (σ.block p key)
  | signalled {key : SemKey} : Performed σ p (.verhogen key) (σ.signal key)

/-- What is done about the exception that left the state `saved` before somebody goes on. -/
inductive Handled (σ : Scene) (saved : SavedState) : Scene → Prop
  | ignored (hc : σ.current = none ∨ saved.matter ≠ .sliceEnd) : Handled σ saved σ
  | sliceEnded {p : Handle} (hm : saved.matter = .sliceEnd) (hc : σ.current = some p) :
      Handled σ saved (σ.preempt p saved)
  | ticked (hm : saved.matter = .tick) : Handled σ saved σ.tick
  | drained {line : Word} (hm : saved.matter = .devices line) :
      Handled σ saved (σ.serveAll line (Computer.pendingDevices σ.machine line))
  | served {r : Request} {p : Handle} {ρ : Scene} (hm : saved.matter = .request r)
      (hc : σ.current = some p)
      (h : (σ.setState p fun _ => saved.pastInstruction).Performed p r ρ) : Handled σ saved ρ
  | passedUp {c : ExceptionClass} {state : SavedState} {address : Word}
      (hm : saved.matter = .passUp c state) :
      Handled σ saved (σ.onMachine (σ.machine.writeState address state))
  | died {c : ExceptionClass} {state : SavedState} {p : Handle} {l : List Handle}
      (hm : saved.matter = .passUp c state) (hc : σ.current = some p) (hp : p ∈ l) :
      Handled σ saved (σ.finish l)

/-- Nothing is left to decide, or the scheduler decides. -/
inductive Proceeds (ρ : Scene) : Dispatch → Scene → Prop
  | decided {d : Dispatch} (hd : d ≠ .wait) : Proceeds ρ d ρ
  | scheduled {d : Dispatch} {τ : Scene} (hc : ρ.current = none)
      (h : ρ.Scheduled d τ) : Proceeds ρ d τ

theorem Resumed.proceeds (h : ρ.Resumed p d τ) : ρ.Proceeds d τ := by
  cases h with
  | mk hx => exact .decided (by simp)

theorem Continued.proceeds (h : ρ.Continued saved d τ) : ρ.Proceeds d τ := by
  cases h with
  | resumed => exact .decided (by simp)
  | scheduled hc h => exact .scheduled hc h

theorem current_finish {l : List Handle} (hc : σ.current = some p) (hp : p ∈ l) :
    (σ.finish l).current = none := by
  simp [finish, hc, hp]

theorem Served.performed (hc : σ.current = some p) (h : σ.Served p r d τ) :
    ∃ ρ, σ.Performed p r ρ ∧ ρ.Proceeds d τ := by
  cases h with
  | created hn h => exact ⟨_, .created hn, h.proceeds⟩
  | uncreated h | unnamed h | told _ h => exact ⟨_, .answered, h.proceeds⟩
  | outlived _ hp h => exact ⟨_, .outlived hp, h.proceeds⟩
  | ended _ hp h => exact ⟨_, .ended hp, .scheduled (current_finish hc hp) h⟩
  | passed _ h => exact ⟨_, .passed, h.proceeds⟩
  | consumed _ _ h => exact ⟨_, .consumed, h.proceeds⟩
  | blocked hr _ h => exact ⟨_, .blocked hr, .scheduled rfl h⟩
  | signalled h => exact ⟨_, .signalled, h.proceeds⟩

theorem Effect.handled (h : σ.Effect saved d τ) : ∃ ρ, σ.Handled saved ρ ∧ ρ.Proceeds d τ := by
  cases h with
  | unasked hc => exact ⟨_, .ignored (.inl hc), .decided (by simp)⟩
  | spurious hm h => exact ⟨_, .ignored (.inr (by simp [hm])), h.proceeds⟩
  | sliceEnded hm hc h => exact ⟨_, .sliceEnded hm hc, .scheduled rfl h⟩
  | sliceIdle hm hc h => exact ⟨_, .ignored (.inl hc), .scheduled hc h⟩
  | ticked hm h => exact ⟨_, .ticked hm, h.proceeds⟩
  | drained hm h => exact ⟨_, .drained hm, h.proceeds⟩
  | @served r p _ _ hm hc h =>
    have hc' : (σ.setState p fun _ => saved.pastInstruction).current = some p := hc
    obtain ⟨ρ, hρ, hd⟩ := h.performed hc'
    exact ⟨ρ, .served hm hc hρ, hd⟩
  | passedUp hm => exact ⟨_, .passedUp hm, .decided (by simp)⟩
  | died hm hc _ hp h => exact ⟨_, .died hm hc hp, .scheduled (current_finish hc hp) h⟩

end Nucleus.Scene
