import Mathlib.Data.List.Nodup
import Nucleus.Computer.Interrupt
import Nucleus.Proofs.Machine.Frame

/-!
# Acknowledging the devices of a line

To serve a line is to store one acknowledge command for every pending device, in the register that
its report names. Each store settles the device it is meant for and touches nothing else: the status
goes back to ready, and the pending bit goes unless the device is a terminal that has another
completion to report.
-/
namespace Nucleus

namespace DeviceRegister

/-- Has a terminal completions of both channels to report? -/
def IsDouble (line : Word) (r : DeviceRegister) : Prop :=
  line = Bus.terminalLine ∧ r.transmitPending ∧ r.receivePending

instance (line : Word) (r : DeviceRegister) : Decidable (r.IsDouble line) :=
  inferInstanceAs (Decidable (_ ∧ _ ∧ _))

/-- The register block when what it reports has been acknowledged. -/
def acknowledged (line : Word) (r : DeviceRegister) : DeviceRegister :=
  if line = Bus.terminalLine ∧ r.transmitPending then
    { r with data0 := DeviceStatus.readyWord, data1 := acknowledge }
  else { r with status := DeviceStatus.readyWord, command := acknowledge }

variable {line : Word} {r : DeviceRegister}

theorem acknowledged_of_transmits (h : line = Bus.terminalLine ∧ r.transmitPending) :
    r.acknowledged line = { r with data0 := DeviceStatus.readyWord, data1 := acknowledge } :=
  if_pos h

theorem acknowledged_of_not (h : ¬(line = Bus.terminalLine ∧ r.transmitPending)) :
    r.acknowledged line = { r with status := DeviceStatus.readyWord, command := acknowledge } :=
  if_neg h

theorem transmitPending_acknowledged (h : line = Bus.terminalLine ∧ r.transmitPending) :
    (r.acknowledged line).transmitPending = false := by
  have hsettled : (DeviceStatus.ofWord DeviceStatus.readyWord).isCompletion = false := by decide
  rw [acknowledged_of_transmits h]
  exact hsettled

theorem receivePending_acknowledged (h : ¬(line = Bus.terminalLine ∧ r.transmitPending)) :
    (r.acknowledged line).receivePending = false := by
  have hsettled : (DeviceStatus.ofWord DeviceStatus.readyWord).isCompletion = false := by decide
  rw [acknowledged_of_not h]
  exact hsettled

/-- A terminal has something left to report when there were two completions. -/
theorem pending_acknowledged (hline : line = Bus.terminalLine) :
    ((r.acknowledged line).receivePending || (r.acknowledged line).transmitPending) =
      decide (r.IsDouble line) := by
  by_cases ht : r.transmitPending
  · have hkept : (r.acknowledged line).receivePending = r.receivePending := by
      rw [acknowledged_of_transmits ⟨hline, ht⟩]
      rfl
    rw [transmitPending_acknowledged ⟨hline, ht⟩, hkept]
    simp [IsDouble, hline, ht]
  · have hkept : (r.acknowledged line).transmitPending = r.transmitPending := by
      rw [acknowledged_of_not fun h => ht h.2]
      rfl
    rw [receivePending_acknowledged fun h => ht h.2, hkept]
    simp [IsDouble, ht]

end DeviceRegister

theorem Computer.completion_eq (line : Word) (r : DeviceRegister) : Computer.completion line r =
    if line = Bus.terminalLine ∧ r.transmitPending then
      (r.transmitStatus, false, DeviceRegister.transmitCommandWord)
    else (r.status, decide (line = Bus.terminalLine), DeviceRegister.commandWord) := by
  unfold completion
  by_cases hl : line = Bus.terminalLine
  · by_cases ht : r.transmitPending <;> simp [hl, ht, DeviceRegister.receiveStatus]
  · simp [hl]

theorem Computer.completion_word (line : Word) (r : DeviceRegister) :
    (Computer.completion line r).2.2.toNat < 4 := by
  have hcommand : DeviceRegister.commandWord.toNat < 4 := by decide
  have htransmit : DeviceRegister.transmitCommandWord.toNat < 4 := by decide
  rw [completion_eq]
  split
  · exact htransmit
  · exact hcommand

namespace Machine
variable {m : Machine} {a x line dev dev' word : Word}

def commandAddress (m : Machine) (line dev : Word) : Word :=
  Bus.blockAddress line dev + wordBytes * (Computer.completion line (m.device line dev)).2.2

def settleDevice (m : Machine) (line dev : Word) : Machine :=
  m.write (m.commandAddress line dev) DeviceRegister.acknowledge

theorem read_pokeDevice_blockWord {w : Word} (hw : w.toNat < 4) (hword : word.toNat < 4) :
    (m.pokeDevice line dev word x).read (Bus.blockAddress line dev + wordBytes * w) =
      if w = word then x else m.read (Bus.blockAddress line dev + wordBytes * w) := by
  have hinj :
      Bus.blockAddress line dev + wordBytes * w = Bus.blockAddress line dev + wordBytes * word ↔
        w = word := by
    rw [UInt32.add_right_inj]
    refine ⟨fun e => UInt32.toNat_inj.mp ?_, congrArg _⟩
    have htoNat := congrArg UInt32.toNat e
    simp only [UInt32.toNat_mul, wordBytes, UInt32.reduceToNat] at htoNat
    omega
  rw [pokeDevice, read_poke]
  exact if_congr hinj rfl rfl

theorem device_pokeDevice (hword : word.toNat < 4) :
    (m.pokeDevice line dev word x).device line dev =
    { status := if DeviceRegister.statusWord = word then x else (m.device line dev).status
      command := if DeviceRegister.commandWord = word then x else (m.device line dev).command
      data0 := if DeviceRegister.data0Word = word then x else (m.device line dev).data0
      data1 := if DeviceRegister.data1Word = word then x else (m.device line dev).data1 } := by
  have h : ∀ w : Word, w.toNat < 4 →
    (m.pokeDevice line dev word x).read (Bus.blockAddress line dev + wordBytes * w) =
      if w = word then x else m.read (Bus.blockAddress line dev + wordBytes * w) := fun _ hw =>
    read_pokeDevice_blockWord hw hword
  simp only [device, h _ (show DeviceRegister.statusWord.toNat < 4 by decide),
    h _ (show DeviceRegister.commandWord.toNat < 4 by decide),
    h _ (show DeviceRegister.data0Word.toNat < 4 by decide),
    h _ (show DeviceRegister.data1Word.toNat < 4 by decide)]

/-- The words `cmd` and `st` of a register block, stored one after the other. -/
def pokeBlock (m : Machine) (line dev cmd st : Word) : Machine :=
  (m.pokeDevice line dev cmd DeviceRegister.acknowledge).pokeDevice line dev st
    DeviceStatus.readyWord

theorem read_pokeBlock {cmd st : Word} (hcmd : cmd.toNat < 4) (hst : st.toNat < 4)
    (ha : ∀ w : Word, w.toNat < 4 → a ≠ Bus.blockAddress line dev + wordBytes * w) :
    (m.pokeBlock line dev cmd st).read a = m.read a := by
  rw [pokeBlock, pokeDevice, read_poke, if_neg (ha st hst), pokeDevice, read_poke,
    if_neg (ha cmd hcmd)]

theorem settle_eq {r : DeviceRegister} (hline : line = Bus.terminalLine)
    (hdevice : m.device line dev = r.acknowledged line) :
    acknowledge.settle m line dev = if r.IsDouble line then m else m.clearPending line dev := by
  simp only [acknowledge.settle, hdevice, DeviceRegister.pending_acknowledged hline,
    decide_eq_true_eq]

/-- The command that acknowledges a completion is stored, and its status goes back to ready; then
the pending bit goes, unless another completion is left. -/
theorem settleDevice_eq (hl : 3 ≤ line.toNat ∧ line.toNat ≤ 7) (hd : dev.toNat < 8) :
    ∃ cmd st : Word, cmd.toNat < 4 ∧ st.toNat < 4 ∧
      (m.pokeBlock line dev cmd st).device line dev = (m.device line dev).acknowledged line ∧
      m.settleDevice line dev =
        if (m.device line dev).IsDouble line then m.pokeBlock line dev cmd st
        else (m.pokeBlock line dev cmd st).clearPending line dev := by
  have hstore : m.settleDevice line dev =
      (m.pokeDevice line dev (Computer.completion line (m.device line dev)).2.2
        DeviceRegister.acknowledge).acknowledge line dev
          (Computer.completion line (m.device line dev)).2.2 := by
    simp only [settleDevice, commandAddress, write, if_true,
      Bus.locate?_blockWord hl hd (Computer.completion_word line (m.device line dev))]
    rfl
  rw [hstore]
  by_cases ht : line = Bus.terminalLine ∧ (m.device line dev).transmitPending
  · have hdevice : (m.pokeBlock line dev DeviceRegister.transmitCommandWord
        DeviceRegister.transmitStatusWord).device line dev =
          (m.device line dev).acknowledged line := by
      rw [DeviceRegister.acknowledged_of_transmits ht, pokeBlock, device_pokeDevice (by decide),
        device_pokeDevice (by decide)]
      rfl
    refine ⟨_, _, by decide, by decide, hdevice, ?_⟩
    rw [← settle_eq ht.1 hdevice, Computer.completion_eq, if_pos ht, acknowledge, if_pos ht.1,
      if_neg (show ¬DeviceRegister.transmitCommandWord = DeviceRegister.commandWord by decide),
      if_pos rfl, pokeBlock]
  · have hdevice :
      (m.pokeBlock line dev DeviceRegister.commandWord DeviceRegister.statusWord).device line dev =
        (m.device line dev).acknowledged line := by
      rw [DeviceRegister.acknowledged_of_not ht, pokeBlock, device_pokeDevice (by decide),
        device_pokeDevice (by decide)]
      rfl
    refine ⟨_, _, by decide, by decide, hdevice, ?_⟩
    rw [Computer.completion_eq, if_neg ht, acknowledge]
    by_cases hline : line = Bus.terminalLine
    · rw [← settle_eq hline hdevice, if_pos hline, if_pos rfl, pokeBlock]
    · rw [if_neg hline, if_pos rfl, if_neg fun h => hline h.1, pokeBlock]

theorem testBit_clear {bits : Word} (hd : dev.toNat < 8) (i : ℕ) :
    (bits &&& ~~~(1 <<< dev)).toNat.testBit i =
      (bits.toNat.testBit i && !decide (i = dev.toNat)) := by
  have hbits : ∀ x : Word, x.toNat.testBit i = x.toBitVec.getLsbD i := fun _ => rfl
  have hone : UInt32.toBitVec 1 = 1#32 := rfl
  have hshift : (dev.toBitVec % 32).toNat = dev.toNat := by
    rw [BitVec.toNat_umod]
    exact Nat.mod_eq_of_lt (by simp; omega)
  have hbit : (UInt32.toBitVec 1 <<< (dev.toBitVec % 32)).getLsbD i = decide (i = dev.toNat) := by
    rw [BitVec.shiftLeft_eq', hshift, hone, BitVec.getLsbD_shiftLeft, BitVec.getLsbD_one]
    by_cases hi : i = dev.toNat
    · simp [hi]
      omega
    · simp [hi]
      omega
  rw [hbits, hbits, UInt32.toBitVec_and, UInt32.toBitVec_not, UInt32.toBitVec_shiftLeft,
    BitVec.getLsbD_and, BitVec.getLsbD_not, hbit]
  by_cases hi : i < 32
  · simp [hi]
  · simp [BitVec.getLsbD_of_ge _ _ (Nat.le_of_not_lt hi)]

section
variable (hl : 3 ≤ line.toNat ∧ line.toNat ≤ 7) (hd : dev.toNat < 8)
include hl hd

theorem blockWord_ne_bitmapAddress {line' w : Word} (hl' : 3 ≤ line'.toNat ∧ line'.toNat ≤ 7)
    (hw : w.toNat < 4) :
    Bus.blockAddress line dev + wordBytes * w ≠ Bus.bitmapAddress line' := fun e => by
  have hblock := Bus.toNat_blockWord hl hd hw
  rw [e, Bus.toNat_bitmapAddress hl'] at hblock
  omega

theorem device_clearPending : (m.clearPending line dev').device line dev = m.device line dev :=
  device_congr fun _ hw => read_clearPending (blockWord_ne_bitmapAddress hl hd hl hw)

theorem device_settleDevice :
    (m.settleDevice line dev).device line dev = (m.device line dev).acknowledged line := by
  obtain ⟨cmd, st, _, _, hdevice, hsettle⟩ := settleDevice_eq (m := m) hl hd
  rw [hsettle]
  split
  · exact hdevice
  · rw [device_clearPending hl hd, hdevice]

theorem read_settleDevice (hb : a ≠ Bus.bitmapAddress line)
    (ha : ∀ w : Word, w.toNat < 4 → a ≠ Bus.blockAddress line dev + wordBytes * w) :
    (m.settleDevice line dev).read a = m.read a := by
  obtain ⟨cmd, st, hcmd, hst, _, hsettle⟩ := settleDevice_eq (m := m) hl hd
  rw [hsettle]
  split
  · exact read_pokeBlock hcmd hst ha
  · rw [read_clearPending hb, read_pokeBlock hcmd hst ha]

theorem testBit_settleDevice (i : ℕ) :
    ((m.settleDevice line dev).read (Bus.bitmapAddress line)).toNat.testBit i ↔
    (m.read (Bus.bitmapAddress line)).toNat.testBit i ∧
    (i = dev.toNat → (m.device line dev).IsDouble line) := by
  obtain ⟨cmd, st, hcmd, hst, _, hsettle⟩ := settleDevice_eq (m := m) hl hd
  have hkept : (m.pokeBlock line dev cmd st).read (Bus.bitmapAddress line) =
      m.read (Bus.bitmapAddress line) :=
    read_pokeBlock hcmd hst fun w hw e => blockWord_ne_bitmapAddress hl hd hl hw e.symm
  rw [hsettle]
  split
  · next h => simp [h, hkept]
  · next h =>
    rw [clearPending, read_poke, if_pos rfl, hkept, testBit_clear hd]
    simp [h]

theorem device_settleDevice_of_ne (hd' : dev'.toNat < 8) (hne : dev ≠ dev') :
    (m.settleDevice line dev).device line dev' = m.device line dev' :=
  device_writeDevice hl hd hd' hne (Computer.completion_word _ _)

end

def settleAll (m : Machine) (line : Word) (devices : List Word) : Machine :=
  devices.foldl (·.settleDevice line ·) m

theorem settleAll_cons (dev : Word) (devices : List Word) :
    m.settleAll line (dev :: devices) = (m.settleDevice line dev).settleAll line devices := rfl

section
variable {devices : List Word} (hl : 3 ≤ line.toNat ∧ line.toNat ≤ 7)
variable (hdevices : ∀ dev ∈ devices, dev.toNat < 8)
include hl hdevices

theorem read_settleAll (hb : a ≠ Bus.bitmapAddress line)
    (ha : ∀ dev ∈ devices, ∀ w : Word, w.toNat < 4 →
      a ≠ Bus.blockAddress line dev + wordBytes * w) :
    (m.settleAll line devices).read a = m.read a := by
  induction devices generalizing m with
  | nil => rfl
  | cons dev devices ih =>
    obtain ⟨hd, hdevices⟩ := List.forall_mem_cons.mp hdevices
    obtain ⟨hfirst, hrest⟩ := List.forall_mem_cons.mp ha
    rw [settleAll_cons, ih hdevices hrest, read_settleDevice hl hd hb hfirst]

variable (hn : devices.Nodup)
include hn

theorem device_settleAll (hd : dev.toNat < 8) : (m.settleAll line devices).device line dev =
    if dev ∈ devices then (m.device line dev).acknowledged line else m.device line dev := by
  induction devices generalizing m with
  | nil => rfl
  | cons first devices ih =>
    obtain ⟨hfirst, hdevices⟩ := List.forall_mem_cons.mp hdevices
    obtain ⟨hnew, hn⟩ := List.nodup_cons.mp hn
    rw [settleAll_cons, ih hdevices hn]
    by_cases he : first = dev
    · subst he
      rw [if_neg hnew, if_pos List.mem_cons_self, device_settleDevice hl hfirst]
    · have hmem : dev ∈ first :: devices ↔ dev ∈ devices := by simp [Ne.symm he]
      rw [device_settleDevice_of_ne hl hfirst hd he]
      exact (if_congr hmem rfl rfl).symm

theorem testBit_settleAll (i : ℕ) :
    ((m.settleAll line devices).read (Bus.bitmapAddress line)).toNat.testBit i ↔
    (m.read (Bus.bitmapAddress line)).toNat.testBit i ∧
      ∀ dev ∈ devices, i = dev.toNat → (m.device line dev).IsDouble line := by
  induction devices generalizing m with
  | nil => simp [settleAll]
  | cons first devices ih =>
    obtain ⟨hfirst, hdevices⟩ := List.forall_mem_cons.mp hdevices
    obtain ⟨hnew, hn⟩ := List.nodup_cons.mp hn
    have hrest : (∀ dev ∈ devices, i = dev.toNat →
      ((m.settleDevice line first).device line dev).IsDouble line) ↔
        ∀ dev ∈ devices, i = dev.toNat → (m.device line dev).IsDouble line :=
      forall₂_congr fun dev hm => by
        rw [device_settleDevice_of_ne hl hfirst (hdevices dev hm) fun e => hnew (e ▸ hm)]
    rw [settleAll_cons, ih hdevices hn, testBit_settleDevice hl hfirst, hrest,
      List.forall_mem_cons, and_assoc]

/-- Each device is acknowledged once, where its report says, whatever was acknowledged before. -/
theorem settleAll_eq_foldl : m.settleAll line devices =
    (devices.map (m.commandAddress line)).foldl (·.write · DeviceRegister.acknowledge) m := by
  induction devices generalizing m with
  | nil => rfl
  | cons first devices ih =>
    obtain ⟨hfirst, hdevices⟩ := List.forall_mem_cons.mp hdevices
    obtain ⟨hnew, hn⟩ := List.nodup_cons.mp hn
    have hothers : devices.map ((m.settleDevice line first).commandAddress line) =
        devices.map (m.commandAddress line) := by
      refine List.map_congr_left fun dev hm => ?_
      rw [commandAddress, device_settleDevice_of_ne hl hfirst (hdevices dev hm) fun e =>
        hnew (e ▸ hm), commandAddress]
    rw [settleAll_cons, ih hdevices hn, hothers]
    rfl

end

end Machine

namespace Computer
variable {m : Machine} {line device : Word}

theorem lt_of_mem_pendingDevices (h : device ∈ pendingDevices m line) : device.toNat < 8 := by
  obtain ⟨n, hn, rfl⟩ := List.mem_map.mp h
  have hlt := List.mem_range.mp (List.mem_filter.mp hn).1
  rwa [UInt32.toNat_ofNat_of_lt' (Nat.lt_trans hlt (by decide))]

theorem nodup_pendingDevices (m : Machine) (line : Word) : (pendingDevices m line).Nodup := by
  refine List.Nodup.map_on (fun a ha b hb he => ?_) (List.nodup_range.filter _)
  have hlta := List.mem_range.mp (List.mem_filter.mp ha).1
  have hltb := List.mem_range.mp (List.mem_filter.mp hb).1
  have hnat := congrArg UInt32.toNat he
  rwa [UInt32.toNat_ofNat_of_lt' (Nat.lt_trans hlta (by decide)),
    UInt32.toNat_ofNat_of_lt' (Nat.lt_trans hltb (by decide))] at hnat

theorem testBit_bitmap (m : Machine) (line : Word) (i : ℕ) : (m.bitmap line).toNat.testBit i =
    (decide (i < 8) && (m.read (Bus.bitmapAddress line)).toNat.testBit i) := by
  rw [Machine.bitmap, UInt32.toNat_toUInt8]
  exact Nat.testBit_mod_two_pow _ 8 i

theorem ofNat_mem_pendingDevices {n : ℕ} (hn : n < 8) :
    UInt32.ofNat n ∈ pendingDevices m line ↔ (m.read (Bus.bitmapAddress line)).toNat.testBit n := by
  have hbit : (m.bitmap line).toNat.testBit n =
      (m.read (Bus.bitmapAddress line)).toNat.testBit n := by
    simp [testBit_bitmap, hn]
  rw [pendingDevices, List.mem_map]
  constructor
  · rintro ⟨k, hk, he⟩
    obtain ⟨hk, hset⟩ := List.mem_filter.mp hk
    have hnat := congrArg UInt32.toNat he
    rw [UInt32.toNat_ofNat_of_lt' (Nat.lt_trans (List.mem_range.mp hk) (by decide)),
      UInt32.toNat_ofNat_of_lt' (Nat.lt_trans hn (by decide))] at hnat
    rwa [hnat, hbit] at hset
  · exact fun h => ⟨n, List.mem_filter.mpr ⟨List.mem_range.mpr hn, hbit.trans h⟩, rfl⟩

theorem bitmap_eq_zero (h : pendingDevices m line = []) : m.bitmap line = 0 := by
  refine UInt8.toNat_inj.mp (Nat.eq_of_testBit_eq fun i => ?_)
  rw [testBit_bitmap]
  by_cases hi : i < 8
  · have hmem : UInt32.ofNat i ∉ pendingDevices m line := by simp [h]
    have hnot := (ofNat_mem_pendingDevices hi).not.mp hmem
    simp [hnot]
  · simp [hi]

end Computer

namespace Machine
variable {m m' : Machine} {a line dev : Word}

def drain (m : Machine) (line : Word) : Machine := m.settleAll line (Computer.pendingDevices m line)

/-- The bus of `m'` is that of `m` after the pending devices of a line have been acknowledged. -/
structure Drained (line : Word) (m m' : Machine) : Prop where
  /-- Each device is acknowledged once, by number. -/
  stores : m'.memory = (((Computer.pendingDevices m line).map (m.commandAddress line)).foldl
    (·.write · DeviceRegister.acknowledge) m).memory
  devices : ∀ dev : Word, dev.toNat < 8 → m'.device line dev =
    if dev ∈ Computer.pendingDevices m line then (m.device line dev).acknowledged line
      else m.device line dev
  bits : ∀ i, (m'.read (Bus.bitmapAddress line)).toNat.testBit i ↔
    (m.read (Bus.bitmapAddress line)).toNat.testBit i ∧
    (i < 8 → (m.device line (UInt32.ofNat i)).IsDouble line)
  pending : Computer.pendingDevices m' line =
    (Computer.pendingDevices m line).filter fun dev => (m.device line dev).IsDouble line
  /-- Beside the bitmap of the line and the registers of its pending devices nothing changes. -/
  others : ∀ a, a ≠ Bus.bitmapAddress line →
    (∀ dev ∈ Computer.pendingDevices m line, ∀ w : Word, w.toNat < 4 →
    a ≠ Bus.blockAddress line dev + wordBytes * w) → m'.read a = m.read a

theorem testBit_drain (hl : 3 ≤ line.toNat ∧ line.toNat ≤ 7) (i : ℕ) :
    ((m.drain line).read (Bus.bitmapAddress line)).toNat.testBit i ↔
      (m.read (Bus.bitmapAddress line)).toNat.testBit i ∧
      (i < 8 → (m.device line (UInt32.ofNat i)).IsDouble line) := by
  rw [drain, testBit_settleAll hl (fun _ => Computer.lt_of_mem_pendingDevices)
    (Computer.nodup_pendingDevices m line)]
  refine and_congr_right fun hbit => ⟨fun h hi => ?_, fun h dev hm he => ?_⟩
  · exact h _ ((Computer.ofNat_mem_pendingDevices hi).mpr hbit)
      (UInt32.toNat_ofNat_of_lt' (Nat.lt_trans hi (by decide))).symm
  · have hdouble := h (he ▸ Computer.lt_of_mem_pendingDevices hm)
    rwa [he, UInt32.ofNat_toNat] at hdouble

/-- A terminal with two completions is still pending, and no other device is. -/
theorem pendingDevices_drain (hl : 3 ≤ line.toNat ∧ line.toNat ≤ 7) :
    Computer.pendingDevices (m.drain line) line =
    (Computer.pendingDevices m line).filter fun dev => (m.device line dev).IsDouble line := by
  simp only [Computer.pendingDevices, List.filter_map, List.filter_filter]
  refine congrArg _ (List.filter_congr fun n hn => ?_)
  have hlt := List.mem_range.mp hn
  rw [Bool.eq_iff_iff, Computer.testBit_bitmap, Computer.testBit_bitmap]
  simp only [hlt, decide_true, Bool.true_and, Bool.and_eq_true, Function.comp_apply,
    decide_eq_true_eq]
  rw [testBit_drain hl, and_comm]
  exact and_congr_left fun _ => forall_prop_of_true hlt

theorem drained_drain (hl : 3 ≤ line.toNat ∧ line.toNat ≤ 7)
    (h : m'.memory = (m.drain line).memory) : m.Drained line m' := by
  have hread : ∀ a, m'.read a = (m.drain line).read a := Machine.read_congr h
  have hlt : ∀ dev ∈ Computer.pendingDevices m line, dev.toNat < 8 :=
    fun _ => Computer.lt_of_mem_pendingDevices
  have hn := Computer.nodup_pendingDevices m line
  refine ⟨?_, fun dev hd => ?_, fun i => ?_, ?_, fun a hb ha => ?_⟩
  · rw [h, drain, settleAll_eq_foldl hl hlt hn]
  · rw [device_congr fun w _ => hread _, drain, device_settleAll hl hlt hn hd]
  · rw [hread, testBit_drain hl]
  · have hbitmap : m'.bitmap line = (m.drain line).bitmap line := by rw [bitmap, hread, bitmap]
    rw [← pendingDevices_drain hl, Computer.pendingDevices, hbitmap, Computer.pendingDevices]
  · rw [hread, drain, read_settleAll hl hlt hb ha]

namespace Drained
variable (h : m.Drained line m') (hl : 3 ≤ line.toNat ∧ line.toNat ≤ 7)
include h

theorem bitmap_eq_zero (hline : line ≠ Bus.terminalLine) : m'.bitmap line = 0 := by
  refine Computer.bitmap_eq_zero ?_
  rw [h.pending, List.filter_eq_nil_iff]
  intro dev _ hdouble
  exact hline (of_decide_eq_true hdouble).1

include hl

theorem read_eq (ha : a.toNat ≠ 268435520 + 4 * (line.toNat - 3))
    (ha' : a.toNat < 268435540 + 128 * (line.toNat - 3) ∨
      268435668 + 128 * (line.toNat - 3) ≤ a.toNat) : m'.read a = m.read a := by
  refine h.others a ?_ fun dev hd w hw => ?_
  · rintro rfl
    exact ha (Bus.toNat_bitmapAddress hl)
  · rintro rfl
    have hdev := Computer.lt_of_mem_pendingDevices hd
    have haddr := Bus.toNat_blockWord hl hdev hw
    omega

theorem read_of_isOutside (ha : Bus.IsOutside a) : m'.read a = m.read a := by
  have hout := Bus.isOutside_iff.mp ha
  exact h.read_eq hl (by omega) (by omega)

theorem intervalTimer_eq : m'.intervalTimer = m.intervalTimer := by
  have hval : Bus.intervalTimer.toNat = 268435488 := rfl
  exact h.read_eq hl (by omega) (by omega)

theorem bitmap_of_ne {line' : Word} (hl' : 3 ≤ line'.toNat ∧ line'.toNat ≤ 7) (hne : line' ≠ line) :
    m'.read (Bus.bitmapAddress line') = m.read (Bus.bitmapAddress line') := by
  have hval := Bus.toNat_bitmapAddress hl'
  have hne' : line'.toNat ≠ line.toNat := fun e => hne (UInt32.toNat_inj.mp e)
  exact h.read_eq hl (by omega) (by omega)

theorem device_of_ne {line' : Word} (hl' : 3 ≤ line'.toNat ∧ line'.toNat ≤ 7) (hne : line' ≠ line)
    (hd : dev.toNat < 8) : m'.device line' dev = m.device line' dev := by
  have hne' : line'.toNat ≠ line.toNat := fun e => hne (UInt32.toNat_inj.mp e)
  refine device_congr fun w hw => ?_
  have hval := Bus.toNat_blockWord hl' hd hw
  exact h.read_eq hl (by omega) (by omega)

end Drained

theorem read_drain (hl : 3 ≤ line.toNat ∧ line.toNat ≤ 7) (ha : Bus.IsOutside a) :
    (m.drain line).read a = m.read a :=
  (drained_drain hl rfl).read_of_isOutside hl ha

end Machine
end Nucleus
