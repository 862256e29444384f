import Nucleus.Proofs.Computer.Reading
import Nucleus.Proofs.Run

/-!
# Counts

The counts that a kernel keeps are the counts of what they stand for. A count that would drop below
zero stops an entry with a fault, so that every run comes to its end says that none ever does.
-/
namespace Nucleus

structure Kernel.Counted (k : Kernel) : Prop where
  processes : k.processCount = k.table.live.length
  free : k.table.freeCount + k.processCount = maxProcesses
  nodup_free : k.table.free.Nodup
  mem_free : ∀ i, i ∈ k.table.free ↔ (k.table.slots.get i).location = .free
  softBlocks : k.softBlockCount = k.table.live.countP (·.WaitsSoft)

theorem Kernel.Sound.counted {k : Kernel} {v : View} (h : k.Sound v) : k.Counted where
  processes := h.length_live
  free := by
    rw [Nat.add_comm]
    exact h.processes
  nodup_free := h.registers.pool.nodup
  mem_free := h.registers.pool.mem_free_iff
  softBlocks := h.softBlocked_eq

/-- Processes created since the counters were `old`, less those killed. -/
def Counters.grown (old new : Counters) : Word :=
  (new.created.value - old.created.value) - (new.killed.value - old.killed.value)

namespace Computer

theorem grown_of_balance {s t : Computer} (hs : s.kernel.processCount = 0)
    (hb : t.balance = s.balance) :
    s.journal.counters.grown t.journal.counters = UInt32.ofNat t.kernel.processCount := by
  unfold balance at hb
  unfold Counters.grown
  rw [hs] at hb
  generalize UInt32.ofNat t.kernel.processCount = n at hb ⊢
  have hz : UInt32.ofNat 0 = 0 := rfl
  rw [hz] at hb
  grind

/-- The counts are right from the beginning and after every entry of every run. -/
theorem turns_counted (timing : Timing) (machine : Machine) (journal : Journal)
    (calls : List (Machine × Entry)) : (Kernel.initial timing).Counted ∧ ∃ turns,
      ({ kernel := .initial timing, machine, journal } : Computer).turns calls = .ok turns ∧
        ∀ turn ∈ turns, turn.after.kernel.Counted ∧
          journal.counters.grown turn.after.journal.counters =
            UInt32.ofNat turn.after.kernel.processCount := by
  have h := Kernel.sound_initial timing
  generalize hs : ({ kernel := .initial timing, machine, journal } : Computer) = s
  have hk : s.kernel = .initial timing := by rw [← hs]
  have hj : s.journal = journal := by rw [← hs]
  have hzero : s.kernel.processCount = 0 := by rw [hk]; rfl
  rw [← hk] at h ⊢
  refine ⟨h.counted, turns_of_sound (Q := fun t => t.kernel.Counted ∧
    journal.counters.grown t.journal.counters = UInt32.ofNat t.kernel.processCount)
    h rfl (fun t w hw hb => ⟨hw.counted, ?_⟩) calls⟩
  rw [← hj]
  exact grown_of_balance hzero hb

end Computer
end Nucleus
