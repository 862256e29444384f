import Nucleus.Proofs.History
import Nucleus.Proofs.PassingUp
import Nucleus.Proofs.Semaphore.Depot

/-!
# No entry fails

Every rule of the nucleus whose breach is a fault holds at every step of every entry: handles name
slots of the pool, walks along links and work lists end, counts stay above zero, nothing is queued
or adopted twice, nothing in use is returned, and no list of processes outgrows its bound.

The lists of free slots and of free entries would not fault but forget, had they no room for what is
returned to them. They have room in every store in order, and so between any two operations of an
entry, which find one store in order and leave another (`Store.Arranged.hasRoom`); and in whatever
store a user's operations lead to (`Depot.Reached.hasRoom`).
-/
namespace Nucleus

namespace Table
variable {t u : Table} {p : Handle} {d : Descriptor}

theorem free_of_release (hd : t.find? p = some d) (hroom : t.free.length < maxProcesses)
    (hu : t.release p = .ok u) :
    ∃ i : Fin maxProcesses, i.val = p.slot.toNat ∧ u.free = i :: t.free := by
  have hp : p.slot.toNat < maxProcesses := inPool_of_find? hd
  simp only [release, hd, dif_pos hp, pushFree, if_pos hroom] at hu
  split at hu
  · cases hu
    exact ⟨⟨p.slot.toNat, hp⟩, rfl, rfl⟩
  · cases hu

end Table

theorem Directory.free_of_deactivate {d e : Directory} {key : SemKey} {i : Fin directorySize}
    (hi : d.find? key = .ok (some i)) (hroom : d.free.length < directorySize)
    (he : d.deactivate key = .ok e) : e.free = i :: d.free := by
  cases hp : d.predecessor key with
  | error f =>
    rw [find?, hp] at hi
    cases hi
  | ok prev =>
    -- the search and the removal look behind the same predecessor
    simp only [find?, hp, ok_bind] at hi
    simp only [deactivate, hp, ok_bind, pushFree, if_pos hroom] at he
    cases hn : d.entries[prev].next with
    | none =>
      rw [hn] at hi
      cases hi
    | some j =>
      simp only [hn, pure_eq_ok, Except.ok.injEq, Option.ite_none_right_eq_some] at hi he
      obtain ⟨-, hij⟩ := hi
      rw [← he, ← Option.some.inj hij]

namespace Store
variable {s : Store}

/-- Nothing that is returned is forgotten: the slot of a process that is released and the entry of a
semaphore that is taken from the chain come in front of what their free lists hold. -/
structure HasRoom (s : Store) : Prop where
  slots : ∀ p u, s.table.isLive p → s.table.release p = .ok u →
    ∃ i : Fin maxProcesses, i.val = p.slot.toNat ∧ u.free = i :: s.table.free
  entries : ∀ key e, s.directory.isActive key = .ok true → s.directory.deactivate key = .ok e →
    ∃ i, s.directory.find? key = .ok (some i) ∧ e.free = i :: s.directory.free

theorem Queues.hasRoom {queue : SemKey → List Handle} (h : s.Queues queue) : s.HasRoom where
  slots p u hp hu := by
    obtain ⟨d, hd⟩ := Option.isSome_iff_exists.mp hp
    exact Table.free_of_release hd (h.pool.length_free_lt hd) hu
  entries key e hkey he := by
    have hactive := (h.indexes.isActive_iff key).mp hkey
    obtain ⟨i, hi, _⟩ := h.indexes.find?_some key hactive
    exact ⟨i, hi, Directory.free_of_deactivate hi (h.indexes.length_free_lt hactive) he⟩

theorem Arranged.hasRoom {ready : Ring} {v : View} (h : s.Arranged ready v) : s.HasRoom :=
  h.queues.hasRoom

end Store

theorem Depot.Reached.hasRoom {σ : Type} [SemaphoreCells σ] {depot : Depot σ} (h : depot.Reached) :
    depot.store.HasRoom := by
  obtain ⟨list, hk⟩ := h.kept
  exact hk.queues.hasRoom

/-- Nothing is missing. The slots that are not in use are in the list of free slots, once each, and
every entry of the directory is one of its ends, in the chain or in the list of free entries, and
only one of these. -/
structure Kernel.Whole (k : Kernel) : Prop where
  nodup : k.table.free.Nodup
  slots : ∀ i, i ∈ k.table.free ↔ (k.table.slots.get i).location = .free
  processes : k.processCount + k.table.free.length = maxProcesses
  entries : ∃ path, k.store.directory.Threads Directory.low path ∧
    (Directory.low :: Directory.high :: (path ++ k.store.directory.free)).Perm
      (List.finRange directorySize)

theorem Kernel.Sound.whole {k : Kernel} {v : View} (h : k.Sound v) : k.Whole where
  nodup := h.arranged.shows.registers.pool.nodup
  slots := h.arranged.shows.registers.pool.mem_free_iff
  processes := h.processes
  entries := by
    obtain ⟨path, hchained, _⟩ := h.arranged.indexes
    exact ⟨path, hchained.threads, hchained.perm⟩

/-- The addresses of the words from `base` on, each beside the sum that it stands for. -/
def Word.walk (base : Word) (sum n : Nat) : List (Nat × Word) :=
  (List.range n).map fun i => (sum + 4 * i, wordAt base i)

namespace Turn

/-- The addresses that handling the turn goes through word by word, each beside the sum that it
stands for: those of the state from which a process is created, or those of the state and the
context of a pass-up. -/
def walked (turn : Turn) : List (Nat × Word) :=
  match turn.entry with
  | .exception saved =>
    match saved.matter, turn.before.kernel.current with
    | .request (.createProcess address _), some _ => Word.walk address address.toNat stateWords
    | .passUp c _, some p =>
      match (turn.before.kernel.table.find? p).bind (·.support) with
      | some area =>
        Word.walk (area.stateAddress c) (area.address.toNat + 4 + 140 * c.index.toNat) stateWords ++
          Word.walk (area.contextAddress c) (area.address.toNat + 284 + 12 * c.index.toNat) 3
      | none => []
    | _, _ => []
  | .start _ | .schedule => []

/-- As long as the sums fit into a word, no address wraps around. -/
theorem walked_straight (turn : Turn) : ∀ a ∈ turn.walked, a.1 < 2 ^ 32 → a.2.toNat = a.1 := by
  have hwalk : ∀ {base : Word} {sum n : Nat},
      (∀ i, sum + 4 * i < 2 ^ 32 → (wordAt base i).toNat = sum + 4 * i) →
      ∀ a ∈ Word.walk base sum n, a.1 < 2 ^ 32 → a.2.toNat = a.1 := by
    intro base sum n hword a ha hlt
    obtain ⟨i, _, rfl⟩ := List.mem_map.mp ha
    exact hword i hlt
  unfold walked
  split
  · split
    · exact hwalk fun i hi => toNat_wordAt hi
    · split
      · intro a ha
        rcases List.mem_append.mp ha with ha | ha
        · exact hwalk (fun i hi => SupportArea.toNat_stateWord hi) a ha
        · exact hwalk (fun i hi => SupportArea.toNat_contextWord hi) a ha
      · simp
    · simp
  · simp
  · simp

end Turn

/-- Every run comes to its end without a fault, whatever its entries and whatever becomes of the
machine between them. Before and after every turn nothing is missing from the free lists, and in
every turn an address whose sum fits into a word is that sum. -/
theorem Computer.turns_intact (timing : Timing) (machine : Machine)
    (calls : List (Machine × Entry)) :
    ∃ turns, (initial timing machine).turns calls = .ok turns ∧ ∀ turn ∈ turns,
      turn.before.kernel.Whole ∧ turn.after.kernel.Whole ∧ ∀ a ∈ turn.walked,
        a.1 < 2 ^ 32 → a.2.toNat = a.1 := by
  refine turns_of_enter (I := fun s => ∃ v, s.kernel.Sound v) (E := fun _ => True)
    ⟨.empty, Kernel.sound_initial timing⟩ (fun _ _ => trivial) fun s machine e ⟨v, hv⟩ _ => ?_
  obtain ⟨d, t, w, he, hw, _⟩ := enter_sound (sound_onMachine hv machine) e
  exact ⟨d, t, he, ⟨w, hw⟩, hv.whole, hw.whole, Turn.walked_straight _⟩

end Nucleus
