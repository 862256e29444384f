import Nucleus.Word

/-!
# Process handles

A handle names a descriptor slot together with the generation the slot had when it was handed out,
so that a handle kept after its process died does not name the next user of the slot. In a register
a handle is one word: the generation in the upper half and the slot plus one in the lower half,
which leaves zero free to mean no process. `ofWord?_toWord` says that the word determines the
handle.
-/
namespace Nucleus

/-- A descriptor slot under one generation. -/
structure Handle where
  slot : UInt16
  generation : UInt16
deriving DecidableEq, Repr

namespace Handle

/-- The register form of a handle. -/
def toWord (p : Handle) : Word :=
  p.generation.toUInt32 * 65536 + p.slot.toUInt32 + 1

/-- The handle a register holds; a lower half of zero names no process. -/
def ofWord? (w : Word) : Option Handle :=
  let low := w % 65536
  if low = 0 then none else some ⟨(low - 1).toUInt16, (w / 65536).toUInt16⟩

/-- The name of a handle in messages. -/
def text (p : Handle) : String := s!"proc#{p.slot.toNat}.{p.generation.toNat}"

theorem toNat_toWord {p : Handle} (h : p.slot.toNat < 65535) :
    p.toWord.toNat = p.generation.toNat * 65536 + p.slot.toNat + 1 := by
  have hg := p.generation.toNat_lt
  simp only [toWord, UInt32.toNat_add, UInt32.toNat_mul, UInt16.toNat_toUInt32]
  simp only [UInt32.reduceToNat]
  omega

theorem ofWord?_toWord {p : Handle} (h : p.slot.toNat < 65535) : ofWord? p.toWord = some p := by
  have hn := toNat_toWord h
  have hl : (p.toWord % 65536).toNat = p.slot.toNat + 1 := by
    rw [UInt32.toNat_mod, hn]
    simp only [UInt32.reduceToNat]
    omega
  have h0 : p.toWord % 65536 ≠ 0 := by
    intro h0
    have := congrArg UInt32.toNat h0
    rw [hl] at this
    simp at this
  have hs : (p.toWord % 65536 - 1).toUInt16 = p.slot := by
    apply UInt16.toNat_inj.mp
    rw [UInt32.toNat_toUInt16, UInt32.toNat_sub_of_le, hl]
    · simp only [UInt32.reduceToNat]; omega
    · rw [UInt32.le_iff_toNat_le, hl]; simp only [UInt32.reduceToNat]; omega
  have hg : (p.toWord / 65536).toUInt16 = p.generation := by
    apply UInt16.toNat_inj.mp
    have := p.generation.toNat_lt
    rw [UInt32.toNat_toUInt16, UInt32.toNat_div, hn]
    simp only [UInt32.reduceToNat]
    omega
  simp only [ofWord?, if_neg h0, hs, hg]

/-- No other word stands for the handle. -/
theorem toWord_of_ofWord? {w : Word} {p : Handle} (h : ofWord? w = some p) : p.toWord = w := by
  simp only [ofWord?] at h
  split at h
  · cases h
  · next h0 =>
    have hlow : (w % 65536).toNat = w.toNat % 65536 := UInt32.toNat_mod w 65536
    have hpos : (w % 65536).toNat ≠ 0 := fun hz => h0 (UInt32.toNat_inj.mp hz)
    have hone : (1 : Word) ≤ w % 65536 := by
      rw [UInt32.le_iff_toNat_le]
      simp only [UInt32.reduceToNat]
      omega
    have hslot : p.slot.toNat = w.toNat % 65536 - 1 := by
      rw [← Option.some.inj h, UInt32.toNat_toUInt16, UInt32.toNat_sub_of_le _ _ hone, hlow]
      simp only [UInt32.reduceToNat]
      omega
    have hgeneration : p.generation.toNat = w.toNat / 65536 := by
      have hw := w.toNat_lt
      rw [← Option.some.inj h, UInt32.toNat_toUInt16, UInt32.toNat_div]
      simp only [UInt32.reduceToNat]
      omega
    apply UInt32.toNat_inj.mp
    rw [toNat_toWord (by omega), hslot, hgeneration]
    omega

theorem toWord_ne_zero {p : Handle} (h : p.slot.toNat < 65535) : p.toWord ≠ 0 := by
  intro h0
  have := ofWord?_toWord h
  rw [h0] at this
  simp [ofWord?] at this

end Handle

end Nucleus
