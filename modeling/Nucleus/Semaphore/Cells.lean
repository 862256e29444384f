import Nucleus.Device.Channel
import Nucleus.Machine.Basic

/-!
# Semaphore integers

The integer of a semaphore is kept apart from its queue. The nucleus keeps those of its own
semaphores in a table of channels and finds every other one in memory, at the address that is its
key. Any store that gives each key a value will do for the operations on semaphores; `CellMap` is a
plain one.
-/
namespace Nucleus

/-- A store of semaphore integers. -/
class SemaphoreCells (σ : Type) where
  value : σ → SemKey → Int32
  assign : σ → SemKey → Int32 → σ

/-- Integers by key, in increasing order of the keys; an absent key has the integer zero. -/
structure CellMap where
  entries : List (SemKey × Int32) := []

namespace CellMap

def value (m : CellMap) (k : SemKey) : Int32 := (m.entries.lookup k).getD 0

/-- Places `k` among entries in increasing order, over an entry for the same key. -/
def place (k : SemKey) (v : Int32) : List (SemKey × Int32) → List (SemKey × Int32)
  | [] => [(k, v)]
  | (j, w) :: rest =>
    if k = j then (k, v) :: rest
    else if k.address < j.address then (k, v) :: (j, w) :: rest
    else (j, w) :: place k v rest

def assign (m : CellMap) (k : SemKey) (v : Int32) : CellMap := ⟨place k v m.entries⟩

instance : SemaphoreCells CellMap := ⟨value, assign⟩

theorem lookup_place (k j : SemKey) (v : Int32) (es : List (SemKey × Int32)) :
    (place k v es).lookup j = if j = k then some v else es.lookup j := by
  induction es with
  | nil => by_cases h : j = k <;> simp [place, List.lookup_cons, h, beq_eq_false_iff_ne.mpr]
  | cons e es ih =>
    obtain ⟨i, w⟩ := e
    by_cases hki : k = i
    · subst hki
      by_cases h : j = k
      · simp [place, h]
      · simp [place, List.lookup_cons, h, beq_eq_false_iff_ne.mpr h]
    · by_cases hlt : k.address < i.address
      · by_cases h : j = k
        · simp [place, hki, hlt, h]
        · simp [place, List.lookup_cons, hki, hlt, h, beq_eq_false_iff_ne.mpr h]
      · by_cases h : j = i
        · subst h
          simp [place, hki, hlt, Ne.symm hki]
        · simp [place, List.lookup_cons, hki, hlt, ih, beq_eq_false_iff_ne.mpr h]

theorem value_assign (m : CellMap) (k j : SemKey) (v : Int32) :
    (m.assign k v).value j = if j = k then v else m.value j := by
  simp only [value, assign, lookup_place]
  split <;> simp

end CellMap

/-- The integers of the nucleus: a table for its own semaphores, memory for all others. -/
structure NucleusCells where
  channels : Vector Int32 channelCount
  machine : Machine

namespace NucleusCells

def value (c : NucleusCells) (k : SemKey) : Int32 :=
  match Channel.slot? k with
  | some i => c.channels[i]
  | none => (c.machine.read k.address).toInt32

def assign (c : NucleusCells) (k : SemKey) (v : Int32) : NucleusCells :=
  match Channel.slot? k with
  | some i => { c with channels := c.channels.set i v }
  | none => { c with machine := c.machine.write k.address v.toUInt32 }

instance : SemaphoreCells NucleusCells := ⟨value, assign⟩

end NucleusCells

end Nucleus
