import Nucleus.Device.Bus
import Nucleus.Semaphore.Key
import Nucleus.ServiceError

/-!
# Nucleus semaphores

The nucleus keeps 49 semaphores of its own: one per device, terminal transmitters among them (0 to
39), one per terminal receiver (40 to 47), and one for the pseudo-clock (48). Their keys are words
of an address range that is never memory. `slot?_key` says that a key determines its semaphore, and
`key_of_slot?` that no other key does.
-/
namespace Nucleus

/-- Semaphores of the nucleus. -/
abbrev channelCount : Nat := 49

/-- A nucleus semaphore. -/
abbrev Channel := Fin channelCount

namespace Channel

/-- The pseudo-clock. -/
def clock : Channel := 48

/-- Key of channel 0; the others follow, a word apart. -/
def keyBase : Word := 0x0FFFE000

/-- The semaphore of a device, or of the receiver of a terminal. -/
def ofDevice? (line device : Word) (receive : Bool) : Except ServiceError Channel :=
  if h : (3 ≤ line.toNat ∧ line.toNat ≤ 7 ∧ device.toNat < 8) ∧
      (receive = true → line.toNat = 7) then
    .ok ⟨(line.toNat - 3) * 8 + (if receive then 8 else 0) + device.toNat, by
      obtain ⟨⟨h3, h7, h8⟩, hr⟩ := h
      simp only [channelCount]
      split
      · next hb => have := hr hb; omega
      · omega⟩
  else .error .invalidArgument

/-- The key under which a nucleus semaphore is known. -/
def key (c : Channel) : SemKey := ⟨wordAt keyBase c.val⟩

/-- The nucleus semaphore a key stands for, if any. -/
def slot? (k : SemKey) : Option Channel :=
  if k.address < keyBase then none
  else if h : (k.address - keyBase).toNat % 4 = 0 ∧
      (k.address - keyBase).toNat / 4 < channelCount then
    some ⟨(k.address - keyBase).toNat / 4, h.2⟩
  else none

theorem toNat_key (c : Channel) : c.key.address.toNat = 268427264 + 4 * c.val := by
  have hc : c.val < 49 := c.isLt
  have hs : UInt32.size = 4294967296 := rfl
  have hb : keyBase.toNat = 268427264 := rfl
  rw [key, toNat_wordAt (by rw [hb, hs]; omega), hb]

@[simp] theorem slot?_key (c : Channel) : slot? c.key = some c := by
  have hc : c.val < 49 := c.isLt
  have hk := toNat_key c
  have hlt : ¬ c.key.address < keyBase := by
    rw [UInt32.lt_iff_toNat_lt, hk]
    simp only [keyBase, UInt32.reduceToNat]
    omega
  have hoff : (c.key.address - keyBase).toNat = 4 * c.val := by
    rw [UInt32.toNat_sub_of_le, hk]
    · simp only [keyBase, UInt32.reduceToNat]; omega
    · rw [UInt32.le_iff_toNat_le, hk]; simp only [keyBase, UInt32.reduceToNat]; omega
  simp only [slot?, if_neg hlt, hoff]
  rw [dif_pos ⟨by omega, by simp only [channelCount]; omega⟩]
  simp

theorem key_of_slot? {k : SemKey} {c : Channel} (h : slot? k = some c) : c.key = k := by
  have hc : c.val < 49 := c.isLt
  unfold slot? at h
  split at h
  · cases h
  · next hlt =>
    split at h
    · next hoff =>
      obtain ⟨hal, hidx⟩ := hoff
      simp only [Option.some.injEq, Fin.ext_iff] at h
      have hle : keyBase ≤ k.address := by
        rw [UInt32.le_iff_toNat_le]; rw [UInt32.lt_iff_toNat_lt] at hlt; omega
      rw [UInt32.toNat_sub_of_le _ _ hle] at hal h
      rw [UInt32.le_iff_toNat_le] at hle
      have : c.key.address = k.address := by
        apply UInt32.toNat_inj.mp
        rw [toNat_key]
        simp only [keyBase, UInt32.reduceToNat] at hal h hle
        omega
      cases k
      simp_all [key]
    · cases h

theorem slot?_eq_some_iff {k : SemKey} {c : Channel} : slot? k = some c ↔ k = c.key :=
  ⟨fun h => (key_of_slot? h).symm, fun h => h ▸ slot?_key c⟩

theorem key_inj {c d : Channel} (h : c.key = d.key) : c = d := by
  have := congrArg slot? h
  simpa using this

end Channel

end Nucleus
