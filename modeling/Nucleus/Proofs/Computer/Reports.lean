import Nucleus.Proofs.Computer.Entry
import Nucleus.Proofs.Computer.Orderly
import Nucleus.Proofs.Machine.Draining

/-!
# What devices report

The devices of a line report on channels of their own, and serving one of them does not change what
the others show. So the interrupt of a line drains it on the bus, and completes what could be read
there when it was taken.
-/
namespace Nucleus

theorem Channel.val_ofDevice? {line device : Word} {receive : Bool} {c : Channel}
    (h : Channel.ofDevice? line device receive = .ok c) :
    c.val % 8 = device.toNat ∧ device.toNat < 8 ∧
      c.val < 48 := by
  unfold Channel.ofDevice? at h
  split at h
  · next hd =>
    cases h
    obtain ⟨⟨h3, h7, h8⟩, hr⟩ := hd
    simp only
    split
    · next hb =>
      have := hr hb
      omega
    · omega
  · cases h

theorem Machine.completion?_eq_some {m : Machine} {line device status : Word} {c : Channel}
    (h : m.completion? line device = some (c, status)) :
    Channel.ofDevice? line device (Computer.completion line (m.device line device)).2.1 = .ok c ∧
      (Computer.completion line (m.device line device)).1 = status := by
  unfold Machine.completion? at h
  cases hc : Channel.ofDevice? line device
    (Computer.completion line (m.device line device)).2.1 with
  | error e => simp [hc, Except.toOption] at h
  | ok c' => simpa [hc, Except.toOption] using h

theorem Machine.nodup_completions (m : Machine) (line : Word) :
    ((m.completions line).map (·.1)).Nodup := by
  have hn := Computer.nodup_pendingDevices m line
  unfold Machine.completions
  generalize Computer.pendingDevices m line = devices at hn
  induction devices with
  | nil => simp
  | cons device devices ih =>
    obtain ⟨hd, hn⟩ := List.nodup_cons.mp hn
    cases hc : m.completion? line device with
    | none =>
      rw [List.filterMap_cons_none hc]
      exact ih hn
    | some c =>
      obtain ⟨c, status⟩ := c
      rw [List.filterMap_cons_some hc, List.map_cons, List.nodup_cons]
      refine ⟨fun hm => hd ?_, ih hn⟩
      obtain ⟨⟨c', status'⟩, hm, he⟩ := List.mem_map.mp hm
      obtain ⟨device', hm', hc'⟩ := List.mem_filterMap.mp hm
      obtain rfl : c' = c := he
      have hv := (Channel.val_ofDevice? (Machine.completion?_eq_some hc).1).1
      have hv' := (Channel.val_ofDevice? (Machine.completion?_eq_some hc').1).1
      have hdev : device = device' := UInt32.toNat_inj.mp (hv.symm.trans hv')
      rwa [hdev]

theorem Machine.ne_clock_of_mem_completions {m : Machine} {line : Word} {c : Channel × Word}
    (h : c ∈ m.completions line) : c.1 ≠ .clock := by
  obtain ⟨device, _, hc⟩ := List.mem_filterMap.mp h
  have hlt := (Channel.val_ofDevice? (Machine.completion?_eq_some hc).1).2.2
  intro hclock
  rw [hclock] at hlt
  exact absurd hlt (by decide)

namespace SavedState
variable {saved : SavedState} {m : Machine}

theorem matter_of_mem_completions {c : Channel × Word} (h : c ∈ saved.completions m) :
    ∃ line, saved.matter = .devices line := by
  unfold completions at h
  split at h
  · next line hm => exact ⟨line, hm⟩
  · cases h

theorem nodup_completions : ((saved.completions m).map (·.1)).Nodup := by
  unfold completions
  split
  · exact m.nodup_completions _
  · exact List.nodup_nil

theorem ne_clock_of_mem_completions {c : Channel × Word} (h : c ∈ saved.completions m) :
    c.1 ≠ .clock := by
  unfold completions at h
  split at h
  · exact Machine.ne_clock_of_mem_completions h
  · cases h

end SavedState

namespace Scene
variable {σ τ : Scene} {key : SemKey} {d : Dispatch} {saved : SavedState} {c : Channel}
  {status : Word}

theorem countP_key {cs : List (Channel × Word)} (hn : (cs.map (·.1)).Nodup) :
    cs.countP (·.1.key = key) = if key ∈ cs.map (·.1.key) then 1 else 0 := by
  have hkeys : (cs.map (·.1.key)).Nodup := by
    have hmap : cs.map (·.1.key) = (cs.map (·.1)).map Channel.key := by simp
    rw [hmap]
    exact hn.map fun _ _ => Channel.key_inj
  rw [← hkeys.count, List.count, List.countP_map]
  exact List.countP_congr fun c _ => by simp

theorem complete_machine (m : Machine) :
    (σ.onMachine m).complete c status = (σ.complete c status).onMachine m := by
  have hvalue : (σ.onMachine m).value c.key = σ.value c.key := by
    rw [value_channel, value_channel]
    rfl
  have hgive : (σ.onMachine m).give c.key = (σ.give c.key).onMachine m := by
    rw [give, give, assign_channel, assign_channel, hvalue]
    rfl
  have hwoken : (σ.onMachine m).woken? c.key = σ.woken? c.key := by
    rw [woken?, woken?, hvalue]
    rfl
  unfold complete
  rw [hgive, hwoken, hvalue]
  cases σ.woken? c.key with
  | some q => rfl
  | none =>
    simp only
    split <;> rfl

theorem serve_eq (line device : Word) :
    σ.serve line device = (σ.completeAll (σ.machine.completion? line device).toList).onMachine
      (σ.machine.settleDevice line device) := by
  unfold serve
  cases hc : Channel.ofDevice? line device
    (Computer.completion line (σ.machine.device line device)).2.1 with
  | error e =>
    have hnone : σ.machine.completion? line device = none := by
      simp [Machine.completion?, hc, Except.toOption]
    simp only [hc, hnone]
    rfl
  | ok c =>
    have hsome : σ.machine.completion? line device =
        some (c, (Computer.completion line (σ.machine.device line device)).1) := by
      simp [Machine.completion?, hc, Except.toOption]
    simp only [hc, hsome]
    exact complete_machine _

theorem machine_complete (c : Channel) (status : Word) :
    (σ.complete c status).machine = σ.machine := by
  have hgive : (σ.give c.key).machine = σ.machine := by rw [give, assign_channel]
  unfold complete
  split
  · exact hgive
  · split <;> exact hgive

theorem machine_completeAll (cs : List (Channel × Word)) :
    (σ.completeAll cs).machine = σ.machine := by
  induction cs generalizing σ with
  | nil => rfl
  | cons c cs ih => exact (ih (σ := σ.complete c.1 c.2)).trans (machine_complete _ _)

theorem completeAll_machine (m : Machine) (cs : List (Channel × Word)) :
    (σ.onMachine m).completeAll cs = (σ.completeAll cs).onMachine m := by
  induction cs generalizing σ with
  | nil => rfl
  | cons c cs ih =>
    have hstep : (σ.onMachine m).completeAll (c :: cs) =
        ((σ.onMachine m).complete c.1 c.2).completeAll cs := rfl
    rw [hstep, complete_machine, ih]
    rfl

/-- Serving a device does not change what the others report. -/
theorem serveAll_eq {line : Word} (hl : 3 ≤ line.toNat ∧ line.toNat ≤ 7) {devices : List Word}
    (hd : ∀ device ∈ devices, device.toNat < 8) (hn : devices.Nodup) :
    σ.serveAll line devices =
      (σ.completeAll (devices.filterMap (σ.machine.completion? line))).onMachine
      (σ.machine.settleAll line devices) := by
  induction devices generalizing σ with
  | nil => rfl
  | cons device devices ih =>
    obtain ⟨hnew, hn⟩ := List.nodup_cons.mp hn
    obtain ⟨hdev, hd⟩ := List.forall_mem_cons.mp hd
    have hothers : devices.filterMap ((σ.machine.settleDevice line device).completion? line) =
        devices.filterMap (σ.machine.completion? line) := by
      refine List.filterMap_congr fun device' hm => ?_
      rw [Machine.completion?, Machine.device_settleDevice_of_ne hl hdev
        (hd device' hm) fun e => hnew (e ▸ hm), Machine.completion?]
    have hstep : σ.serveAll line (device :: devices) =
        (σ.serve line device).serveAll line devices := rfl
    have hmachine : (σ.serve line device).machine = σ.machine.settleDevice line device := by
      rw [serve_eq]
      rfl
    rw [hstep, ih hd hn, hmachine, hothers, Machine.settleAll_cons, serve_eq, completeAll_machine]
    cases hc : σ.machine.completion? line device with
    | none =>
      rw [List.filterMap_cons_none hc]
      rfl
    | some c =>
      rw [List.filterMap_cons_some hc]
      rfl

theorem matter_eq_devices {line : Word} (h : saved.matter = .devices line) :
    saved.trapCode = 0 ∧ 3 ≤ line.toNat ∧ line.toNat ≤ 7 := by
  unfold SavedState.matter at h
  split at h
  · next hroute =>
    refine ⟨Route.ofCode_eq_interrupt_iff.mp hroute, ?_⟩
    split at h
    · cases h
    · next n hn =>
      have hmem := List.mem_of_find?_eq_some hn
      split at h
      · cases h
      · next htimer =>
        split at h
        · cases h
        · next hinterval =>
          cases h
          simp only [Bus.timerLine, Bus.intervalLine] at htimer hinterval
          have hn8 : n < 8 := by
            simp at hmem
            omega
          rw [UInt32.toNat_ofNat_of_lt' (Nat.lt_trans hn8 (by decide))]
          simp at hmem
          omega
  · split at h
    · cases h
    · split at h
      · cases h
      · split at h <;> cases h
  · cases h

theorem matter_eq_tick (h : saved.matter = .tick) :
    saved.trapCode = 0 ∧ Computer.servedLine? saved = some Bus.intervalLine := by
  unfold SavedState.matter at h
  split at h
  · next hroute =>
    refine ⟨Route.ofCode_eq_interrupt_iff.mp hroute, ?_⟩
    split at h
    · cases h
    · next n hn =>
      split at h
      · cases h
      · split at h
        · next hinterval => rw [hn, hinterval]
        · cases h
  · split at h
    · cases h
    · split at h
      · cases h
      · split at h <;> cases h
  · cases h

theorem Effect.of_tick (h : σ.Effect saved d τ) (hm : saved.matter = .tick) :
    σ.tick.Continued saved d τ := by
  have hother : ∀ {m}, saved.matter = m → m = .tick := fun h => h.symm.trans hm
  cases h with
  | unasked _ hz => exact (hz (matter_eq_tick hm).1).elim
  | ticked _ h => exact h
  | spurious hm' | sliceEnded hm' | sliceIdle hm' | drained hm' | served hm'
  | passedUp hm' | died hm' =>
    cases hother hm'

/-- To serve the devices of an interrupt is to complete what they report and to drain their line. -/
theorem serveAll_completions {line : Word} (hm : saved.matter = .devices line) :
    σ.serveAll line (Computer.pendingDevices σ.machine line) =
      (σ.completeAll (saved.completions σ.machine)).onMachine (σ.machine.drain line) := by
  rw [serveAll_eq (matter_eq_devices hm).2 (fun _ => Computer.lt_of_mem_pendingDevices)
    (Computer.nodup_pendingDevices σ.machine line)]
  simp only [SavedState.completions, hm, Machine.completions, Machine.drain]

theorem Effect.continued (h : σ.Effect saved d τ) {line : Word}
    (hm : saved.matter = .devices line) :
    ((σ.completeAll (saved.completions σ.machine)).onMachine (σ.machine.drain line)).Continued saved
      d τ := by
  have hother : ∀ {m}, saved.matter = m → m = .devices line := fun h => h.symm.trans hm
  cases h with
  | unasked _ hz => exact (hz (matter_eq_devices hm).1).elim
  | drained hm' h =>
    cases hother hm'
    rwa [serveAll_completions hm] at h
  | spurious hm' | sliceEnded hm' | sliceIdle hm' | ticked hm' | served hm'
  | passedUp hm' | died hm' =>
    cases hother hm'

end Scene

end Nucleus
