import Nucleus.Machine.Block

/-!
# What a store leaves alone

An acknowledge command reaches the register block of one device and the pending bitmap of its line.
So a store changes no word beside the bus registers but the one it names, and serving a device does
not touch what another device shows.
-/
namespace Nucleus

namespace Bus
variable {a line dev word w : Word}

/-- Is the address beside the clocks, the bitmaps and the device registers? -/
def IsOutside (a : Word) : Prop := a < 0x10000000 ∨ 0x100002D3 < a

theorem isOutside_iff : IsOutside a ↔ a.toNat < 268435456 ∨ 268436179 < a.toNat := by
  simp only [IsOutside, UInt32.lt_iff_toNat_lt, UInt32.reduceToNat]

theorem toNat_blockAddress (hl : 3 ≤ line.toNat ∧ line.toNat ≤ 7) (hd : dev.toNat < 8) :
    (blockAddress line dev).toNat = 268435540 + 128 * (line.toNat - 3) + 16 * dev.toNat := by
  have hs : (line - firstLine).toNat = line.toNat - 3 :=
    UInt32.toNat_sub_of_le _ _ (UInt32.le_iff_toNat_le.mpr hl.1)
  simp only [blockAddress, UInt32.toNat_add, UInt32.toNat_mul, hs, deviceBase, lineStride,
    devicesPerLine, blockBytes, UInt32.reduceMul, UInt32.reduceToNat]
  omega

theorem toNat_blockWord (hl : 3 ≤ line.toNat ∧ line.toNat ≤ 7) (hd : dev.toNat < 8)
    (hw : w.toNat < 4) : (blockAddress line dev + wordBytes * w).toNat =
      268435540 + 128 * (line.toNat - 3) + 16 * dev.toNat + 4 * w.toNat := by
  have hb := toNat_blockAddress hl hd
  simp only [UInt32.toNat_add, UInt32.toNat_mul, hb, wordBytes, UInt32.reduceToNat]
  omega

theorem toNat_bitmapAddress (hl : 3 ≤ line.toNat ∧ line.toNat ≤ 7) :
    (bitmapAddress line).toNat = 268435520 + 4 * (line.toNat - 3) := by
  have hs : (line - firstLine).toNat = line.toNat - 3 :=
    UInt32.toNat_sub_of_le _ _ (UInt32.le_iff_toNat_le.mpr hl.1)
  simp only [bitmapAddress, UInt32.toNat_add, UInt32.toNat_mul, hs, bitmapBase, wordBytes,
    UInt32.reduceToNat]
  omega

theorem toNat_of_locate? (h : locate? a = some (line, dev, word)) :
    (3 ≤ line.toNat ∧ line.toNat ≤ 7) ∧ dev.toNat < 8 ∧ word.toNat < 4 ∧
      a.toNat / 4 = (268435540 + 128 * (line.toNat - 3) + 16 * dev.toNat + 4 * word.toNat) / 4 := by
  unfold locate? at h
  split at h
  · cases h
  · next hlow =>
    simp only at h
    split at h
    · next hline =>
      cases h
      rw [UInt32.lt_iff_toNat_lt, Nat.not_lt] at hlow
      have hs := UInt32.toNat_sub_of_le a deviceBase (UInt32.le_iff_toNat_le.mpr hlow)
      have ha := a.toNat_lt
      rw [UInt32.lt_iff_toNat_lt, UInt32.toNat_div, hs] at hline
      simp only [UInt32.toNat_add, UInt32.toNat_div, UInt32.toNat_mod, hs]
      simp only [deviceBase, firstLine, lineStride, lineCount, devicesPerLine,
        blockBytes, wordBytes, UInt32.reduceMul, UInt32.reduceToNat] at hlow hline ⊢
      omega
    · cases h

theorem locate?_eq_none_of_toNat (h : a.toNat < 268435540 ∨ 268436180 ≤ a.toNat) :
    locate? a = none := by
  rw [Option.eq_none_iff_forall_ne_some]
  rintro ⟨line, dev, word⟩ hl
  obtain ⟨hline, hdev, hword, haddr⟩ := toNat_of_locate? hl
  omega

theorem locate?_eq_none (h : IsOutside a) : locate? a = none := by
  rw [isOutside_iff] at h
  exact locate?_eq_none_of_toNat (by omega)

theorem locate?_blockWord (hl : 3 ≤ line.toNat ∧ line.toNat ≤ 7) (hd : dev.toNat < 8)
    (hw : word.toNat < 4) :
    locate? (blockAddress line dev + wordBytes * word) = some (line, dev, word) := by
  have ha := toNat_blockWord hl hd hw
  generalize blockAddress line dev + wordBytes * word = a at ha
  have hlow : ¬a < deviceBase := by
    simp only [UInt32.lt_iff_toNat_lt, ha, deviceBase, UInt32.reduceToNat]
    omega
  have hs : (a - deviceBase).toNat =
      128 * (line.toNat - 3) + 16 * dev.toNat + 4 * word.toNat := by
    rw [UInt32.toNat_sub_of_le _ _ (UInt32.le_iff_toNat_le.mpr (Nat.le_of_not_lt
      (by rwa [UInt32.lt_iff_toNat_lt] at hlow))), ha]
    simp only [deviceBase, UInt32.reduceToNat]
    omega
  have hline : (a - deviceBase) / lineStride < lineCount := by
    simp only [UInt32.lt_iff_toNat_lt, UInt32.toNat_div, hs, lineStride, lineCount, devicesPerLine,
      blockBytes, UInt32.reduceMul, UInt32.reduceToNat]
    omega
  simp only [locate?, hlow, hline, if_true, if_false, Option.some.injEq, Prod.mk.injEq]
  refine ⟨?_, ?_, ?_⟩
  all_goals
    apply UInt32.toNat_inj.mp
    simp only [UInt32.toNat_add, UInt32.toNat_div, UInt32.toNat_mod, hs, firstLine, lineStride,
      devicesPerLine, blockBytes, wordBytes, UInt32.reduceMul, UInt32.reduceToNat]
    omega

end Bus

namespace Machine
variable {m : Machine} {a b x line dev dev' word : Word}

theorem read_clearPending (hb : a ≠ Bus.bitmapAddress line) :
    (m.clearPending line dev).read a = m.read a := by
  simp [clearPending, hb]

theorem read_settle (hb : a ≠ Bus.bitmapAddress line) :
    (acknowledge.settle m line dev).read a = m.read a := by
  unfold acknowledge.settle
  simp only
  split
  · rfl
  · exact read_clearPending hb

theorem read_acknowledge (hb : a ≠ Bus.bitmapAddress line)
    (hs : a ≠ Bus.blockAddress line dev + wordBytes * DeviceRegister.statusWord)
    (ht : a ≠ Bus.blockAddress line dev + wordBytes * DeviceRegister.transmitStatusWord) :
    (m.acknowledge line dev word).read a = m.read a := by
  unfold acknowledge
  split
  · split
    · rw [read_settle hb, pokeDevice, read_poke, if_neg hs]
    · split
      · rw [read_settle hb, pokeDevice, read_poke, if_neg ht]
      · rfl
  · split
    · rw [read_clearPending hb, pokeDevice, read_poke, if_neg hs]
    · rfl

theorem read_write_of_ne (hab : a ≠ b)
    (h : ∀ line dev word, Bus.locate? b = some (line, dev, word) →
      a ≠ Bus.bitmapAddress line ∧
      a ≠ Bus.blockAddress line dev + wordBytes * DeviceRegister.statusWord ∧
      a ≠ Bus.blockAddress line dev + wordBytes * DeviceRegister.transmitStatusWord) :
    (m.write b x).read a = m.read a := by
  have hp : (m.poke b x).read a = m.read a := by simp [hab]
  unfold write
  split
  · split
    · next line dev word hl =>
      obtain ⟨hb, hs, ht⟩ := h line dev word hl
      rw [read_acknowledge hb hs ht, hp]
    · exact hp
  · exact hp

/-- Beside the bus registers a store changes the word it names and no other. -/
theorem read_write (ha : Bus.IsOutside a) :
    (m.write b x).read a = if a = b then x else m.read a := by
  have hout := Bus.isOutside_iff.mp ha
  have hbus : ∀ line dev word, Bus.locate? b = some (line, dev, word) →
      a ≠ Bus.bitmapAddress line ∧
      a ≠ Bus.blockAddress line dev + wordBytes * DeviceRegister.statusWord ∧
      a ≠ Bus.blockAddress line dev + wordBytes * DeviceRegister.transmitStatusWord := by
    intro line dev word hl
    obtain ⟨hline, hdev, _⟩ := Bus.toNat_of_locate? hl
    have hmap := Bus.toNat_bitmapAddress hline
    have hstatus := Bus.toNat_blockWord (w := DeviceRegister.statusWord) hline hdev (by decide)
    have htransmit :=
      Bus.toNat_blockWord (w := DeviceRegister.transmitStatusWord) hline hdev (by decide)
    have hs : DeviceRegister.statusWord.toNat = 0 := rfl
    have ht : DeviceRegister.transmitStatusWord.toNat = 2 := rfl
    refine ⟨?_, ?_, ?_⟩ <;> rintro rfl <;> omega
  by_cases hab : a = b
  · subst hab
    rw [write_of_locate?_eq_none (Bus.locate?_eq_none ha), read_poke, if_pos rfl]
  · rw [if_neg hab]
    exact read_write_of_ne hab hbus

theorem read_loadIntervalTimer (ha : Bus.IsOutside a) :
    (m.loadIntervalTimer x).read a = m.read a := by
  refine (read_write ha).trans (if_neg ?_)
  rintro rfl
  rw [Bus.isOutside_iff] at ha
  simp only [Bus.intervalTimer, UInt32.reduceToNat] at ha
  omega

theorem intervalTimer_loadIntervalTimer :
    (m.loadIntervalTimer x).intervalTimer = saturatingMul x m.timeScale := by
  have hlocate : Bus.locate? Bus.intervalTimer = none := by decide
  rw [loadIntervalTimer, write_of_locate?_eq_none hlocate, intervalTimer, read_poke, if_pos rfl]

theorem read_writeState {base : Word} {s : SavedState} (ha : Bus.IsOutside a)
    (h : ∀ i < stateWords, a ≠ wordAt base i) : (m.writeState base s).read a = m.read a := by
  unfold writeState
  generalize List.finRange stateWords = l
  induction l generalizing m with
  | nil => rfl
  | cons i l ih => rw [List.foldl_cons, ih, read_write ha, if_neg (h i i.isLt)]

theorem localTimer_acknowledge : (m.acknowledge line dev word).localTimer = m.localTimer := by
  have hsettle : ∀ m : Machine, (acknowledge.settle m line dev).localTimer = m.localTimer := by
    intro m
    unfold acknowledge.settle
    simp only
    split <;> rfl
  unfold acknowledge
  split
  · split
    · exact hsettle _
    · split
      · exact hsettle _
      · rfl
  · split <;> rfl

@[simp] theorem localTimer_write : (m.write b x).localTimer = m.localTimer := by
  unfold write
  split
  · split
    · exact localTimer_acknowledge
    · rfl
  · rfl

@[simp] theorem localTimer_writeDevice :
    (m.writeDevice line dev word x).localTimer = m.localTimer :=
  localTimer_write

@[simp] theorem localTimer_loadIntervalTimer : (m.loadIntervalTimer x).localTimer = m.localTimer :=
  localTimer_write

@[simp] theorem localTimer_writeState {base : Word} {s : SavedState} :
    (m.writeState base s).localTimer = m.localTimer := by
  unfold writeState
  generalize List.finRange stateWords = l
  induction l generalizing m with
  | nil => rfl
  | cons i l ih => rw [List.foldl_cons, ih, localTimer_write]

theorem device_congr {m' : Machine} (h : ∀ w : Word, w.toNat < 4 →
    m'.read (Bus.blockAddress line dev + wordBytes * w) =
      m.read (Bus.blockAddress line dev + wordBytes * w)) :
    m'.device line dev = m.device line dev := by
  simp only [device, h _ (show DeviceRegister.statusWord.toNat < 4 by decide),
    h _ (show DeviceRegister.commandWord.toNat < 4 by decide),
    h _ (show DeviceRegister.data0Word.toNat < 4 by decide),
    h _ (show DeviceRegister.data1Word.toNat < 4 by decide)]

theorem device_writeDevice (hl : 3 ≤ line.toNat ∧ line.toNat ≤ 7) (hd : dev.toNat < 8)
    (hd' : dev'.toNat < 8) (hne : dev ≠ dev') (hw : word.toNat < 4) :
    (m.writeDevice line dev word x).device line dev' = m.device line dev' := by
  have hdd : dev.toNat ≠ dev'.toNat := fun h => hne (UInt32.toNat_inj.mp h)
  refine device_congr fun i hi => ?_
  have haddr := Bus.toNat_blockWord hl hd' hi
  have hown := Bus.toNat_blockWord hl hd hw
  have hmap := Bus.toNat_bitmapAddress hl
  have hstatus := Bus.toNat_blockWord (w := DeviceRegister.statusWord) hl hd (by decide)
  have htransmit := Bus.toNat_blockWord (w := DeviceRegister.transmitStatusWord) hl hd (by decide)
  have hs : DeviceRegister.statusWord.toNat = 0 := rfl
  have ht : DeviceRegister.transmitStatusWord.toNat = 2 := rfl
  refine read_write_of_ne (fun e => ?_) fun line₁ dev₁ word₁ h₁ => ?_
  · rw [e] at haddr
    omega
  · rw [Bus.locate?_blockWord hl hd hw] at h₁
    cases h₁
    refine ⟨?_, ?_, ?_⟩ <;> intro e <;> rw [e] at haddr <;> omega

end Machine

end Nucleus
