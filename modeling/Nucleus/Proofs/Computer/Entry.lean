import Nucleus.Proofs.Computer.Interrupt
import Nucleus.Proofs.Computer.Service

/-!
# Entries and runs

Every entry answers, except that an exception other than an interrupt which finds no process running
is a panic and changes nothing. A run is a list of entries, each on a machine of its own; what one
entry keeps, every run keeps.
-/
namespace Nucleus

theorem Route.ofCode_eq_interrupt_iff {c : Word} : Route.ofCode c = .interrupt ↔ c = 0 := by
  refine ⟨fun h => ?_, fun h => h ▸ rfl⟩
  unfold Route.ofCode at h
  cases ht : Trap.ofCode? c with
  | none => simp [ht] at h
  | some t =>
    have hc := List.find?_some ht
    rw [ht] at h
    cases t <;> simp_all [Trap.code]

namespace Computer
variable {s t : Computer} {v : View} {p : Handle}

theorem start_answers (h : s.kernel.Sound v) (first : SavedState) :
    Answers s.balance (∀ p, ¬v.Loose p) (s.start first) := by
  have hst : Stays s v { s with machine := s.machine.loadIntervalTimer s.kernel.timing.tick } v :=
    .frame h rfl rfl rfl
  simp only [start]
  cases halloc : s.kernel.table.alloc with
  | none => exact (hst.note (.bootRefused .noFreeProcess)).schedule_answers
  | some r =>
    obtain ⟨p, table⟩ := r
    obtain ⟨hn, _, ha₁, hf₁⟩ := h.arranged.alloc halloc
    obtain ⟨t₂, hm₂, ha₂, hf₂⟩ := ha₁.modify (p := p) (x := {}) (by simp [View.create])
      (f := ({ · with state := first })) (g := ({ · with state := first }))
      (fun _ => rfl) (fun _ => rfl) (fun _ => rfl) fun _ => rfl
    rw [View.alter_create] at ha₂
    obtain ⟨store, ready, hm₃, ha₃, hf₃⟩ :=
      makeReady_kernel (k := s.kernel.setTable t₂) (p := p) ha₂
        ((View.loose_create rfl).mpr (.inr rfl))
    have hlen : s.kernel.store.table.free.length = store.table.free.length + 1 := by
      rw [hf₁, hf₃]
      exact congrArg (·.length + 1) hf₂.symm
    have hen := enrolled_stays hst.sound hn (w := v.create p { state := first })
      (fun q => View.loose_create rfl) rfl ha₃ hlen
    have hm₂' : table.modify p ({ · with state := first }) = .ok t₂ := hm₂
    simp only [hm₂', ok_bind, hm₃]
    exact ((hst.trans hen).note (.booted p)).schedule_answers

theorem exception_answers (h : s.kernel.Sound v) (saved : SavedState) :
    (s.kernel.current = none ∧ saved.trapCode ≠ 0 ∧
      s.exception saved = .ok (.panic (.noCurrentProcess saved.trapCode), s)) ∨
    ((s.kernel.current = none → saved.trapCode = 0) ∧
      Answers s.balance (s.kernel.Attended v) (s.exception saved)) := by
  have hcode : Route.ofCode saved.trapCode ≠ .interrupt → saved.trapCode ≠ 0 := fun hr hc =>
    hr (Route.ofCode_eq_interrupt_iff.mpr hc)
  unfold exception
  cases hr : Route.ofCode saved.trapCode with
  | interrupt =>
    exact .inr ⟨fun _ => Route.ofCode_eq_interrupt_iff.mp hr, interrupt_answers h saved⟩
  | request =>
    cases hc : s.kernel.current with
    | none =>
      refine .inl ⟨rfl, hcode (by simp [hr]), ?_⟩
      unfold request
      rw [hc]
      rfl
    | some p => exact .inr ⟨by simp, request_answers h hc saved⟩
  | passUp c =>
    cases hc : s.kernel.current with
    | none =>
      refine .inl ⟨rfl, hcode (by simp [hr]), ?_⟩
      unfold passUpOrDie
      rw [hc]
      rfl
    | some p => exact .inr ⟨by simp, passUpOrDie_answers (.refl h) hc c saved⟩

end Computer
end Nucleus
