import Nucleus.Proofs.Computer.Reading
import Nucleus.Proofs.Run

/-!
# Consistency

Tags, walks, look-ups and links of a kernel tell one story, whatever entries it has been through and
whatever the machine did in between.
-/
namespace Nucleus
namespace Kernel

/-- A handle that is written down somewhere in the kernel. -/
inductive Keeps (k : Kernel) (p : Handle) : Prop
  | current : k.current = some p → Keeps k p
  | ready : k.ready.tail = some p → Keeps k p
  | queue (i : Fin directorySize) : (k.store.directory.entry i).queue.tail = some p → Keeps k p
  | link {d : Descriptor} (c : Chain) : d ∈ k.table.live →
      (d.link c).next = some p ∨ (d.link c).prev = some p → Keeps k p
  | parent {d : Descriptor} : d ∈ k.table.slots.toList → d.parent = some p → Keeps k p
  | children {d : Descriptor} : d ∈ k.table.slots.toList → d.children.tail = some p → Keeps k p

structure Consistent (k : Kernel) : Prop where
  ready : ∃ l, k.readyList = .ok l ∧ l.Nodup ∧
    ∀ p, p ∈ l ↔ ∃ d, k.table.find? p = some d ∧ d.location = .ready
  waiting : ∀ key, k.store.directory.isActive key = .ok true →
    ∃ l, k.store.waiters key = .ok l ∧ l ≠ [] ∧ l.Nodup ∧
      ∀ p, p ∈ l ↔ ∃ d, k.table.find? p = some d ∧ d.location = .blocked ∧ d.waitingOn = some key
  blocked : ∀ d ∈ k.table.live, d.location = .blocked →
    ∃ key, d.waitingOn = some key ∧ k.store.directory.isActive key = .ok true
  idle : ∀ d ∈ k.table.live, d.location = .ready ∨ d.location = .unqueued → d.waitingOn = none
  unlinked : ∀ d ∈ k.table.live, d.location = .unqueued → d.queueLink = {}
  increasing : ∃ keys, k.store.directory.keys = .ok keys ∧ keys.Pairwise (·.address < ·.address) ∧
    ∀ key, key ∈ keys ↔ k.store.directory.isActive key = .ok true
  running : ∀ p, k.current = some p → ∃ d, k.table.find? p = some d ∧ d.location = .unqueued
  kept : ∀ p, k.Keeps p → k.table.isLive p

theorem Sound.keeps_live {k : Kernel} {v : View} {p : Handle} (h : k.Sound v) (hp : k.Keeps p) :
    k.table.isLive p := by
  cases hp with
  | current hc =>
    obtain ⟨x, hx, _⟩ := h.running p hc
    exact h.isLive hx
  | ready ht =>
    have hs : (Store.station k.store.directory k.ready .ready).tail = some p := ht
    exact h.isLive_of_mem_queue (h.arranged.shows.queues.tail_mem hs)
  | queue i ht => exact h.isLive_of_queue ht
  | link c hd hl => exact h.isLive_of_link (h.mem_live_iff.mp hd) hl
  | parent hd hp => exact h.isLive_of_parent hd hp
  | children hd ht => exact h.isLive_of_children hd ht

theorem Sound.consistent {k : Kernel} {v : View} (h : k.Sound v) : k.Consistent where
  ready := ⟨_, h.readyList_eq, h.arranged.shows.nodup_queue .ready, fun _ => h.mem_ready_iff⟩
  waiting key ha :=
    have hne := (h.isActive_iff key).mp ha
    ⟨_, h.arranged.waiters_eq key, hne, h.arranged.shows.nodup_queue _,
      fun _ => h.mem_semaphore_iff⟩
  blocked d hd hl := by
    obtain ⟨key, hk, hm⟩ := h.blocked (h.mem_live_iff.mp hd) hl
    exact ⟨key, hk, (h.isActive_iff key).mpr (List.ne_nil_of_mem hm)⟩
  idle d hd hl := by
    refine h.waitingOn_eq_none (h.mem_live_iff.mp hd) ?_
    rcases hl with hl | hl <;> simp [hl]
  unlinked d hd hl := h.queueLink_eq (h.mem_live_iff.mp hd) hl
  increasing := by
    obtain ⟨keys, hk, hsorted, hmem, _⟩ := h.arranged.indexes.keys
    exact ⟨keys, hk, hsorted, fun key => (hmem key).trans (h.isActive_iff key).symm⟩
  running p hp := h.loose_iff.mp (h.running p hp)
  kept _ := h.keeps_live

end Kernel

namespace Computer

/-- A kernel is consistent from the beginning and after every entry of every run. -/
theorem turns_consistent (timing : Timing) (machine : Machine) (calls : List (Machine × Entry)) :
    (initial timing machine).kernel.Consistent ∧
      ∃ turns, (initial timing machine).turns calls = .ok turns ∧
        ∀ turn ∈ turns, turn.after.kernel.Consistent := by
  have h : (initial timing machine).kernel.Sound .empty := Kernel.sound_initial timing
  exact ⟨h.consistent, turns_of_sound (Q := fun s => s.kernel.Consistent) h rfl
    (fun _ _ hw _ => hw.consistent) calls⟩

end Computer
end Nucleus
