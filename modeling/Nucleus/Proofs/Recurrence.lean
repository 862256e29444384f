import Nucleus.Proofs.Authority
import Nucleus.Proofs.Process.Generations

/-!
# Handles that are kept

A program may keep the handle of a process that has ended. It names nobody as long as fewer than
65536 processes are born in the slot, whatever the nucleus does in the meantime. When as many have
been born it names the last of them.
-/
namespace Nucleus
open Table

namespace Turn

def births (turn : Turn) : List Handle :=
  (turn.after.kernel.table.live.map (·.handle)).filter turn.bears

variable {s t : Computer} {v w : View} {saved : SavedState} {d : Dispatch} {p q child : Handle}

theorem mem_births (turn : Turn) : q ∈ turn.births ↔ turn.bears q := by
  rw [births, List.mem_filter, and_iff_right_iff_imp]
  intro hq
  have hlive : turn.after.kernel.table.isLive q := (Bool.and_eq_true_iff.mp hq).2
  obtain ⟨x, hx⟩ := Option.isSome_iff_exists.mp hlive
  exact List.mem_map.mpr ⟨x, mem_live_of_find? hx, (find?_eq_some_iff.mp hx).2.2.1⟩

/-- In a slot that was free somebody has been born, or it still is. -/
theorem vacant_next {e : Entry} (ht : t.kernel.Sound w) (hq : takes (Turn.mk s e d t).births q = 0)
    (hfree : (s.kernel.table.entry q).location = .free) :
    (t.kernel.table.entry q).location = .free := by
  by_contra hl
  obtain ⟨hlive, hslot⟩ := ht.registers.pool.isLive_entry hl
  have hdead : ¬s.kernel.table.isLive (t.kernel.table.entry q).handle := by
    intro hold
    have hused := (entry_of_isLive hold).2
    rw [entry_congr hslot] at hused
    exact hused hfree
  have hborn : (Turn.mk s e d t).bears (t.kernel.table.entry q).handle :=
    Bool.and_eq_true_iff.mpr ⟨by simpa using hdead, hlive⟩
  exact List.countP_eq_zero.mp hq _ ((mem_births _).mpr hborn) (decide_eq_true hslot)

section
variable (h : s.kernel.Sound v) (ht : t.kernel.Sound w) {e : Entry}
include h ht

theorem births_eq_nil (hkin : ∀ q, w.kin.parent q ≠ none → v.kin.parent q ≠ none) :
    (Turn.mk s e d t).births = [] := by
  refine List.eq_nil_iff_forall_not_mem.mpr fun q hq => ?_
  obtain ⟨hdead, hlive⟩ := (History.bears_iff h ht).mp ((mem_births _).mp hq)
  exact hkin q hlive hdead

theorem births_eq_singleton (hn : v.process child = none) (hkin : w.kin = v.kin.bear p child) :
    (Turn.mk s e d t).births = [child] := by
  have hnodup : (Turn.mk s e d t).births.Nodup := ht.registers.pool.nodup_live.filter _
  have hmem : ∀ q, q ∈ (Turn.mk s e d t).births ↔ q ∈ [child] := by
    intro q
    rw [mem_births, List.mem_singleton]
    exact bears_iff_of_born h ht hn hkin
  exact List.perm_singleton.mp
    ((List.perm_ext_iff_of_nodup hnodup (List.nodup_singleton child)).mpr hmem)

end

section
variable (h : s.kernel.Sound v) (ht : t.kernel.Sound w)
  (heffect : (s.scene v).Effect saved d (t.scene w))
include h ht heffect

theorem generation_next : w.generation q.slot =
    v.generation q.slot + UInt16.ofNat (takes (Turn.mk s (.exception saved) d t).births q) := by
  have hquiet : w.kin.generation = v.kin.generation →
      (∀ q, w.kin.parent q ≠ none → v.kin.parent q ≠ none) → w.generation q.slot =
        v.generation q.slot + UInt16.ofNat (takes (Turn.mk s (.exception saved) d t).births q) := by
    intro hsame hold
    rw [births_eq_nil h ht hold]
    exact (congrFun hsame q.slot).trans (UInt16.add_zero _).symm
  cases heffect.kinship with
  | kept hkin =>
    have hkin' : w.kin = v.kin := hkin
    exact hquiet (by rw [hkin']) (by simp [hkin'])
  | @born p child _ _ _ hn hkin hg =>
    have hkin' : w.kin = v.kin.bear p child := hkin
    have hgeneration : w.generation = Function.update v.generation child.slot child.generation :=
      congrArg Kin.generation hkin'
    rw [births_eq_singleton h ht hn hkin', hgeneration, takes_singleton]
    by_cases hs : child.slot = q.slot
    · rw [← hs, Function.update_self, if_pos rfl]
      exact hg
    · rw [Function.update_of_ne (Ne.symm hs), if_neg hs]
      exact (UInt16.add_zero _).symm
  | @ended _ _ l _ _ _ hkin =>
    have hkin' : w.kin = v.kin.without l := hkin
    refine hquiet (by rw [hkin', Kin.without]) fun q hq => ?_
    rw [hkin'] at hq
    exact fun hdead => hq (by simp [Kin.without, hdead])

theorem aged : s.kernel.table.Aged (Turn.mk s (.exception saved) d t).births t.kernel.table where
  generation q := by
    rw [ht.generation_eq, h.generation_eq]
    exact generation_next h ht heffect
  vacant _ hq hfree := vacant_next ht hq hfree

theorem returned (hp : (Turn.mk s (.exception saved) d t).loses p) : t.kernel.table.Returned p := by
  obtain ⟨hlive, hgone⟩ := (loses_iff h ht).mp hp
  obtain ⟨_, _, l, _, _, hkin, _⟩ := heffect.kinship.of_gone hlive hgone
  have hkin' : w.kin = v.kin.without l := hkin
  have hname := (entry_of_isLive ((h.isLive_iff_kin p).mpr hlive)).1
  constructor
  · have hsame : w.generation = v.generation := congrArg Kin.generation hkin'
    rw [ht.generation_eq, hsame, ← h.generation_eq, hname]
  · by_contra hl
    obtain ⟨hlive', hslot⟩ := ht.registers.pool.isLive_entry hl
    have hold : s.kernel.table.isLive (t.kernel.table.entry p).handle := by
      rw [ht.isLive_iff_kin, hkin'] at hlive'
      rw [h.isLive_iff_kin]
      exact fun hdead => hlive' (by simp [Kin.without, hdead])
    have hsame := (entry_of_isLive hold).1
    rw [entry_congr hslot, hname] at hsame
    rw [← hsame, ht.isLive_iff_kin] at hlive'
    exact hlive' hgone

end

end Turn

namespace History
variable {timing : Timing} {machine : Machine} {first : SavedState} {later past : List Turn}
  {turn : Turn}
variable {s : Computer} {v : View}

/-- The pool ages by the births of the turns that follow. -/
theorem aged (h : History timing machine first (later ++ turn :: past) s v) :
    turn.after.kernel.table.Aged (later.flatMap (·.births)) s.kernel.table := by
  induction later generalizing s v with
  | nil =>
    rw [h.last]
    exact .refl _
  | cons latest later ih =>
    rw [List.cons_append] at h
    generalize hhistory : later ++ turn :: past = history at h
    cases h with
    | start =>
      exact (List.append_ne_nil_of_right_ne_nil later (List.cons_ne_nil turn past) hhistory).elim
    | @next _ s _ v w m saved d h ht _ heffect =>
      rw [← hhistory] at h
      have hnext := Turn.aged (s := s.onMachine m) h.sound ht heffect
      exact ((ih h).trans hnext).perm List.perm_append_comm

theorem returned (h : History timing machine first (turn :: past) s v) {p : Handle}
    (hp : turn.loses p) : s.kernel.table.Returned p := by
  cases h with
  | start => exact (Turn.not_loses_start hp).elim
  | @next _ s _ v _ m _ _ h ht _ heffect =>
    exact Turn.returned (s := s.onMachine m) h.sound ht heffect hp

end History

/-- What becomes of the handle of a process that ends, whatever happens before and after. -/
theorem Computer.turns_recur (timing : Timing) (machine : Machine) (first : SavedState)
    (calls : List (Machine × SavedState)) :
    ∃ turns, (initial timing machine).turns
        ((machine, .start first) :: calls.map fun call => (call.1, .exception call.2)) = .ok turns ∧
      ∀ last later turn past p, last :: later ++ turn :: past <:+ turns.reverse → turn.loses p →
        last.after.kernel.table.Recurs p (takes ((last :: later).flatMap (·.births)) p) := by
  obtain ⟨turns, hrun, hhistory⟩ := turns_history timing machine first calls
  refine ⟨turns, hrun, fun last later turn past p hsuffix hp => ?_⟩
  obtain ⟨_, w, hw⟩ := hhistory last (later ++ turn :: past) hsuffix
  have hw' : History timing machine first (last :: later ++ turn :: past) last.after w := hw
  obtain ⟨_, hturn⟩ := hw'.of_suffix (List.suffix_append (last :: later) (turn :: past))
  exact hw'.aged.recurs (hturn.returned hp)

/-- A handle is stale until its slot has been taken 65536 times: in the pool, whatever is taken and
returned, and in the nucleus, whatever it is asked to do. -/
theorem handles_recur (before after : List Call) (timing : Timing) (machine : Machine)
    (first : SavedState) (calls : List (Machine × SavedState)) :
    (∃ given t, Table.empty.calls before = .ok (given, t) ∧ ∀ p, t.isLive p →
      ∃ u, t.release p = .ok u ∧ ¬u.isLive p ∧ ∃ taken w, u.calls after = .ok (taken, w) ∧
        w.Recurs p (takes taken p)) ∧
    ∃ turns, (Computer.initial timing machine).turns
        ((machine, .start first) :: calls.map fun call => (call.1, .exception call.2)) = .ok turns ∧
      ∀ last later turn past p, last :: later ++ turn :: past <:+ turns.reverse → turn.loses p →
        last.after.kernel.table.Recurs p (takes ((last :: later).flatMap (·.births)) p) :=
  ⟨recurs_after_release before after, Computer.turns_recur timing machine first calls⟩

end Nucleus
