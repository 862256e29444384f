import Nucleus.Proofs.Computer.Resuming
import Nucleus.Proofs.Genealogy

/-!
# Who may end whom

Processes end only together with everything below one of them, and only by the running process
above: it asks for that, or it has an exception to be passed up and no support level. It may name
itself by zero, and itself or a process below it by the word of its handle. Every other word names
nobody, and to ask for the end of nobody changes nothing but the state of the caller. The word that
a creation answers with names the new process and no other.
-/
namespace Nucleus
open Relation

namespace Turn

/-- Is `q` live up to this turn only? -/
def loses (turn : Turn) (q : Handle) : Bool :=
  turn.before.kernel.table.isLive q && !turn.after.kernel.table.isLive q

def EndsFamily (turn : Turn) (root : Handle) : Prop :=
  ∀ q, turn.loses q ↔ ReflTransGen turn.before.kernel.table.IsChild q root

/-- The running process `c` has an exception to be passed up and no support level. -/
def Unsupported (turn : Turn) (c : Handle) : Prop :=
  ∃ saved kind state d, turn.entry = .exception saved ∧ saved.matter = .passUp kind state ∧
    turn.before.kernel.current = some c ∧
    turn.before.kernel.table.find? c = some d ∧ d.support = none

/-- The caller `c` is told that nobody is named `target`. Apart from its state, the count of
requests and two messages everything is as it was. -/
structure Refuses (turn : Turn) (saved : SavedState) (c : Handle) (target : Word) : Prop where
  load : turn.dispatch = .load (saved.pastInstruction.setV0 0xFFFFFFFF)
  after : ∃ table, turn.before.kernel.table.modify c
      ({ · with state := saved.pastInstruction.setV0 0xFFFFFFFF }) = .ok table ∧
    turn.after = { turn.before with
      kernel := turn.before.kernel.setTable table
      journal := ((turn.before.journal.count fun n =>
        { n with requests := n.requests.increment }).note
          (.requested c (.terminateProcess target))).note (.badTarget c target) }

/-- The caller goes on with `x`, whose second result register names the new
process `child` and no other. -/
structure Introduces (turn : Turn) (x : SavedState) (child : Handle) : Prop where
  born : ∀ q, turn.bears q ↔ q = child
  nonzero : x.register .v1 ≠ 0
  decodes : Handle.ofWord? (x.register .v1) = some child
  alone : ∀ q, turn.after.kernel.table.isLive q → q.toWord = x.register .v1 → q = child

structure Authorized (turn : Turn) : Prop where
  family : (∀ q, ¬turn.loses q) ∨ ∃ c root, turn.before.kernel.current = some c ∧
    ReflTransGen turn.before.kernel.table.IsChild root c ∧ turn.EndsFamily root
  cause : ∀ q, turn.loses q →
    ∃ c, (∃ target, turn.served? = some (c, .terminateProcess target)) ∨ turn.Unsupported c
  unsupported : ∀ c, turn.Unsupported c → turn.EndsFamily c
  itself : ∀ c, turn.served? = some (c, .terminateProcess 0) → turn.EndsFamily c
  named : ∀ saved c p, turn.entry = .exception saved →
    turn.served? = some (c, .terminateProcess p.toWord) → turn.before.kernel.table.isLive p →
    ReflTransGen turn.before.kernel.table.IsChild p c → turn.EndsFamily p ∧
      (turn.after.kernel.table.isLive c → turn.after.kernel.current = some c ∧
        turn.dispatch = .load (saved.pastInstruction.setV0 0))
  unnamed : ∀ saved c target, turn.entry = .exception saved →
    turn.served? = some (c, .terminateProcess target) → target ≠ 0 →
    (∀ p, turn.before.kernel.table.isLive p → ReflTransGen turn.before.kernel.table.IsChild p c →
      target ≠ p.toWord) → turn.Refuses saved c target
  created : ∀ c address support, turn.served? = some (c, .createProcess address support) →
    turn.after.kernel.current = some c ∧ ∃ x, turn.dispatch = .load x ∧
      (x.register .v0 = 0 → ∃ child, turn.Introduces x child)

end Turn

theorem View.names_zero {v : View} {p : Handle} : v.Names p 0 p := by
  rw [View.Names, if_pos rfl]

theorem View.Names.unique {v : View} {p q q' : Handle} {target : Word} (h : v.Names p target q)
    (h' : v.Names p target q') : q = q' := by
  unfold View.Names at h h'
  split at h
  · next hz =>
    rw [if_pos hz] at h'
    rw [h, h']
  · next hz =>
    rw [if_neg hz] at h'
    exact Option.some.inj (h.1.symm.trans h'.1)

namespace Scene
variable {σ τ : Scene} {p victim : Handle} {d : Dispatch} {saved : SavedState}
  {target address : Word}

theorem Effect.terminates (hσ : σ.Sound) (h : σ.Effect saved d τ)
    (hs : saved.served? σ.current = some (p, .terminateProcess target))
    (hv : σ.view.Names p target victim) :
    ∃ l, σ.view.IsFamily victim l ∧ τ.view.kin = σ.view.kin.without l ∧
      (p ∉ l → τ.current = some p ∧ d = .load (saved.pastInstruction.setV0 0)) := by
  have hc := (SavedState.served?_eq_some.mp hs).2
  have hstate := hσ.state?_setState_running hc saved.pastInstruction
  have hv' :=
    (View.names_congr (kin_setState (p := p) (f := fun _ => saved.pastInstruction))).mpr hv
  cases h.of_served hs with
  | unnamed _ hn => exact (hn victim hv').elim
  | outlived hl hp h hname hf =>
    obtain rfl := hname.unique hv'
    refine ⟨_, (View.isFamily_congr kin_setState).mp hf, ?_, fun _ => ?_⟩
    · rw [h.kin]
      simp [finish]
    · obtain ⟨rfl, x, hx, rfl⟩ := h.loads
      rw [state?_setState, if_pos rfl, state?_finish, if_neg hp, hstate] at hx
      refine ⟨?_, congrArg Dispatch.load (Option.some.inj hx).symm⟩
      simp [setState, alter, finish, hc, hp]
  | ended hl hp h hname hf =>
    obtain rfl := hname.unique hv'
    refine ⟨_, (View.isFamily_congr kin_setState).mp hf, ?_, fun hn => (hn hp).elim⟩
    rw [h.kin]
    simp [finish]
  | consumed hr | blocked hr => cases hr
  | told hr => rcases hr with hr | hr <;> cases hr

theorem Effect.of_unsupported {kind : ExceptionClass} {state : SavedState} {x : Process}
    (h : σ.Effect saved d τ) (hm : saved.matter = .passUp kind state) (hc : σ.current = some p)
    (hx : σ.view.process p = some x) (hs : x.support = none) :
    ∃ l, σ.view.IsFamily p l ∧ τ.view.kin = σ.view.kin.without l := by
  have hother : ∀ {m}, saved.matter = m → m = .passUp kind state := fun h => h.symm.trans hm
  cases h with
  | unasked hn => cases hn.symm.trans hc
  | passedUp _ hc' hx' ha =>
    cases hc'.symm.trans hc
    cases hx'.symm.trans hx
    cases ha.symm.trans hs
  | died _ hc' _ _ h _ _ hf =>
    cases hc'.symm.trans hc
    refine ⟨_, hf, ?_⟩
    rw [h.kin]
    simp [finish]
  | spurious hm | sliceEnded hm | sliceIdle hm | ticked hm | drained hm
  | served hm => cases hother hm

theorem Effect.creates {support : Option SupportArea} (hσ : σ.Sound) (h : σ.Effect saved d τ)
    (hs : saved.served? σ.current = some (p, .createProcess address support)) :
    τ.current = some p ∧
      ((∃ child, σ.view.process child = none ∧ τ.view.kin = σ.view.kin.bear p child ∧
        d = .load ((saved.pastInstruction.setV1 child.toWord).setV0 0)) ∨
      d = .load (saved.pastInstruction.setV0 0xFFFFFFFF)) := by
  have hc := (SavedState.served?_eq_some.mp hs).2
  have hstate := hσ.state?_setState_running hc saved.pastInstruction
  cases h.of_served hs with
  | @created _ _ child _ _ hn h =>
    have hnone := View.process_eq_none_iff_kin.mp hn
    rw [kin_setState, ← View.process_eq_none_iff_kin] at hnone
    have hkin : τ.view.kin = σ.view.kin.bear p child := by
      rw [h.kin]
      simp
    obtain ⟨rfl, x, hx, rfl⟩ := h.loads
    obtain ⟨y, hy, _⟩ := hσ.running p hc
    have hne : p ≠ child := View.ne_of_process hy hnone
    simp only [state?_setState, if_true, state?_enrol, hne, if_false, hstate, Option.map_some,
      Option.some.injEq] at hx
    exact ⟨hc, .inl ⟨child, hnone, hkin, congrArg Dispatch.load hx.symm⟩⟩
  | uncreated h =>
    obtain ⟨rfl, x, hx, rfl⟩ := h.loads
    rw [state?_setState, if_pos rfl, hstate] at hx
    exact ⟨hc, .inr (congrArg Dispatch.load (Option.some.inj hx).symm)⟩
  | consumed hr | blocked hr => cases hr
  | told hr => rcases hr with hr | hr <;> cases hr

end Scene

namespace Computer
variable {s : Computer} {v : View} {p : Handle} {x : Process} {saved : SavedState} {r : Request}
variable {target : Word}

theorem sound_saved (h : s.kernel.Sound v) (hp : v.process p = some x) (saved : SavedState) :
    ∃ w : View,
      (s.kernel.setTable (s.kernel.table.alter p fun d => { d with state := saved })).Sound w ∧
      w.kin = v.kin :=
  ⟨_, sound_setState h hp saved, View.kin_alter fun _ => rfl⟩

theorem exception_unnamed (h : s.kernel.Sound v)
    (hm : saved.matter = .request (.terminateProcess target)) (hc : s.kernel.current = some p)
    (hn : ∀ q, ¬v.Names p target q) {d : Dispatch} {t : Computer}
    (he : s.exception saved = .ok (d, t)) :
    Turn.Refuses ⟨s, .exception saved, d, t⟩ saved p target := by
  obtain ⟨x, hx, _⟩ := h.running p hc
  obtain ⟨e, hfind, _⟩ := h.registers.find? hx
  have hp := Table.inPool_of_find? hfind
  obtain ⟨w, hw, hkin⟩ := sound_saved h hx saved.pastInstruction
  rw [exception_request (SavedState.served?_eq_some.mpr ⟨hm, hc⟩) hp] at he
  obtain ⟨o, ho, hnames⟩ := terminationTarget?_names (p := p)
    (s := s.saving saved p (.terminateProcess target)) hw target
  have hnone : o = none := Option.eq_none_iff_forall_ne_some.mpr fun q hq =>
    hn q ((View.names_congr hkin).mp ((hnames q).mp hq))
  subst hnone
  simp only [serve, terminateProcess, ho, ok_bind, refuse] at he
  rw [reply_saved (s := s) hp rfl] at he
  cases he
  exact ⟨rfl, _, Table.modify_eq hp, rfl⟩

end Computer

theorem Table.slot_lt_of_isLive {t : Table} {p : Handle} (hp : t.isLive p) :
    p.slot.toNat < 65535 := by
  obtain ⟨d, hd⟩ := Option.isSome_iff_exists.mp hp
  have hpool : p.slot.toNat < 20 := Table.inPool_of_find? hd
  omega

namespace Turn
variable {s t : Computer} {v w : View} {p q root : Handle} {saved : SavedState} {d : Dispatch}
variable {l : List Handle}

theorem loses_iff {e : Entry} (h : s.kernel.Sound v) (ht : t.kernel.Sound w) :
    (Turn.mk s e d t).loses q ↔ v.kin.parent q ≠ none ∧ w.kin.parent q = none := by
  have hafter : t.kernel.table.isLive q = false ↔ w.kin.parent q = none := by
    rw [← Bool.not_eq_true, ht.isLive_iff_kin, not_not]
  rw [loses, Bool.and_eq_true, Bool.not_eq_true']
  exact and_congr (h.isLive_iff_kin q) hafter

theorem endsFamily_of_without {e : Entry} (h : s.kernel.Sound v) (ht : t.kernel.Sound w)
    (hroot : ∃ x, v.process root = some x) (hf : v.IsFamily root l)
    (hkin : w.kin = v.kin.without l) : (Turn.mk s e d t).EndsFamily root := by
  intro q
  have hchild : ReflTransGen s.kernel.table.IsChild q root ↔ q ∈ l := by rw [h.isChild_eq, hf q]
  refine (loses_iff h ht).trans (Iff.trans ?_ hchild.symm)
  rw [hkin]
  constructor
  · intro ⟨hlive, hgone⟩
    simpa [Kin.without, hlive] using hgone
  · intro hq
    obtain ⟨x, hx⟩ := View.exists_process_of_below ((hf q).mp hq) hroot
    simp [Kin.without, hq, View.kin_parent hx]

theorem bears_iff_of_born {e : Entry} {child : Handle} (h : s.kernel.Sound v)
    (ht : t.kernel.Sound w) (hn : v.process child = none) (hkin : w.kin = v.kin.bear p child) :
    (Turn.mk s e d t).bears q ↔ q = child := by
  rw [History.bears_iff h ht, hkin]
  constructor
  · intro ⟨hdead, hlive⟩
    by_contra he
    simp [Kin.bear, he, hdead] at hlive
  · rintro rfl
    exact ⟨View.process_eq_none_iff_kin.mp hn, by simp [Kin.bear]⟩

theorem introduces {child : Handle} (h : s.kernel.Sound v) (ht : t.kernel.Sound w)
    (hn : v.process child = none) (hkin : w.kin = v.kin.bear p child) :
    (Turn.mk s (.exception saved) d t).Introduces
      ((saved.pastInstruction.setV1 child.toWord).setV0 0) child := by
  have hlive : t.kernel.table.isLive child :=
    (ht.isLive_iff_kin child).mpr (by simp [hkin, Kin.bear])
  have hslot := Table.slot_lt_of_isLive hlive
  have hword : ((saved.pastInstruction.setV1 child.toWord).setV0 0).register .v1 =
      child.toWord := by
    rw [SavedState.setV0, SavedState.register_setRegister, if_neg (by decide), SavedState.setV1,
      SavedState.register_setRegister, if_pos rfl]
  constructor
  · exact fun q => bears_iff_of_born h ht hn hkin
  · rw [hword]
    exact Handle.toWord_ne_zero hslot
  · rw [hword]
    exact Handle.ofWord?_toWord hslot
  · intro q hq he
    rw [hword] at he
    have hq' := Handle.ofWord?_toWord (Table.slot_lt_of_isLive hq)
    rw [he, Handle.ofWord?_toWord hslot] at hq'
    exact (Option.some.inj hq').symm

section
variable (h : s.kernel.Sound v) (ht : t.kernel.Sound w)
  (heffect : (s.scene v).Effect saved d (t.scene w))
include h ht heffect

theorem ends_of_loses (hq : (Turn.mk s (.exception saved) d t).loses q) :
    ∃ c root, (s.scene v).Ends saved c root ∧
      (Turn.mk s (.exception saved) d t).EndsFamily root := by
  obtain ⟨hlive, hgone⟩ := (loses_iff h ht).mp hq
  obtain ⟨c, root, l, he, hf, hkin, _⟩ := heffect.kinship.of_gone hlive hgone
  obtain ⟨x, hx, _⟩ := h.running c he.current
  have hroot := View.exists_process_of_below he.below ⟨x, hx⟩
  exact ⟨c, root, he, endsFamily_of_without h ht hroot hf hkin⟩

theorem endsFamily_of_names {target : Word}
    (hs : saved.served? s.kernel.current = some (p, .terminateProcess target))
    (hv : v.Names p target q) :
    (Turn.mk s (.exception saved) d t).EndsFamily q ∧ (t.kernel.table.isLive p →
      t.kernel.current = some p ∧ d = .load (saved.pastInstruction.setV0 0)) := by
  obtain ⟨l, hf, hkin, hsurvived⟩ := heffect.terminates (Kernel.Sound.scene h) hs hv
  have hkin' : w.kin = v.kin.without l := hkin
  obtain ⟨x, hx, _⟩ := h.running p (SavedState.served?_eq_some.mp hs).2
  constructor
  · exact endsFamily_of_without h ht (View.exists_process_of_below hv.below ⟨x, hx⟩) hf hkin
  · intro hlive
    apply hsurvived
    intro hp
    rw [ht.isLive_iff_kin, hkin'] at hlive
    simp [Kin.without, hp] at hlive

theorem endsFamily_of_unsupported (hp : (Turn.mk s (.exception saved) d t).Unsupported p) :
    (Turn.mk s (.exception saved) d t).EndsFamily p := by
  obtain ⟨_, kind, state, e, hentry, hm, hc, hfind, hs⟩ := hp
  cases hentry
  have hx := h.registers.process_eq hfind
  obtain ⟨l, hf, hkin⟩ := heffect.of_unsupported hm hc hx hs
  exact endsFamily_of_without h ht ⟨_, hx⟩ hf hkin

theorem authorized (hexception : s.exception saved = .ok (d, t)) :
    (Turn.mk s (.exception saved) d t).Authorized := by
  have hσ := Kernel.Sound.scene h
  constructor
  · by_cases hex : ∃ q, (Turn.mk s (.exception saved) d t).loses q
    · obtain ⟨q, hq⟩ := hex
      obtain ⟨c, root, he, hends⟩ := ends_of_loses h ht heffect hq
      refine .inr ⟨c, root, he.current, ?_, hends⟩
      rw [h.isChild_eq]
      exact he.below
    · exact .inl fun q hq => hex ⟨q, hq⟩
  · intro q hq
    obtain ⟨c, root, he, _⟩ := ends_of_loses h ht heffect hq
    refine ⟨c, ?_⟩
    rcases he with ⟨target, hs, _⟩ | ⟨kind, state, x, hm, hc, hx, hs, _⟩
    · exact .inl ⟨target, hs⟩
    · obtain ⟨e, hfind, rfl⟩ := h.registers.find? hx
      exact .inr ⟨saved, kind, state, e, rfl, hm, hc, hfind, hs⟩
  · intro c hc
    exact endsFamily_of_unsupported h ht heffect hc
  · intro c hs
    exact (endsFamily_of_names h ht heffect hs View.names_zero).1
  · intro saved' c p hentry hs hp hbelow
    cases hentry
    rw [h.isChild_eq] at hbelow
    have hslot := Table.slot_lt_of_isLive hp
    refine endsFamily_of_names h ht heffect hs ?_
    rw [View.Names, if_neg (Handle.toWord_ne_zero hslot)]
    exact ⟨Handle.ofWord?_toWord hslot, hbelow⟩
  · intro saved' c target hentry hs hz hnobody
    cases hentry
    obtain ⟨hm, hc⟩ := SavedState.served?_eq_some.mp hs
    refine Computer.exception_unnamed h hm hc (fun q hq => ?_) hexception
    rw [View.Names, if_neg hz] at hq
    obtain ⟨hword, hbelow⟩ := hq
    obtain ⟨x, hx, _⟩ := h.running c hc
    have hlive := (h.isLive_iff q).mpr (View.exists_process_of_below hbelow ⟨x, hx⟩)
    rw [← h.isChild_eq] at hbelow
    exact hnobody q hlive hbelow (Handle.toWord_of_ofWord? hword).symm
  · intro c address support hs
    obtain ⟨hcurrent, hcases⟩ := heffect.creates hσ hs
    refine ⟨hcurrent, ?_⟩
    rcases hcases with ⟨child, hn, hkin, rfl⟩ | rfl
    · exact ⟨_, rfl, fun _ => ⟨child, introduces h ht hn hkin⟩⟩
    · refine ⟨_, rfl, fun hv0 => ?_⟩
      rw [SavedState.setV0, SavedState.register_setRegister, if_pos rfl] at hv0
      cases hv0

end

theorem not_loses_start {timing : Timing} {machine : Machine} {e : Entry} :
    ¬(Turn.mk (.initial timing machine) e d t).loses q := by
  intro hq
  have hlive : (Computer.initial timing machine).kernel.table.isLive q :=
    (Bool.and_eq_true_iff.mp hq).1
  rw [History.isLive_initial] at hlive
  cases hlive

theorem authorized_start {timing : Timing} {machine : Machine} {first : SavedState} :
    (Turn.mk (.initial timing machine) (.start first) d t).Authorized := by
  constructor
  · exact .inl fun q => not_loses_start
  · exact fun q hq => (not_loses_start hq).elim
  · intro c ⟨_, _, _, _, hentry, _⟩
    cases hentry
  · intro c hs
    cases hs
  · intro saved c p hentry
    cases hentry
  · intro saved c target hentry
    cases hentry
  · intro c address support hs
    cases hs

end Turn

/-- In a run of one start and any exceptions nobody ends but at the word of somebody above. -/
theorem Computer.turns_authorized (timing : Timing) (machine : Machine) (first : SavedState)
    (calls : List (Machine × SavedState)) :
    ∃ turns, (initial timing machine).turns
        ((machine, .start first) :: calls.map fun call => (call.1, .exception call.2)) = .ok turns ∧
      ∀ turn ∈ turns, turn.Authorized := by
  obtain ⟨t, w, _, hstart, ht, _⟩ := start_effect timing machine first
  have hstart' : ((initial timing machine).onMachine machine).enter (.start first) =
      .ok (.load first, t) :=
    hstart
  obtain ⟨rest, hrest, hall⟩ := turns_of_exceptions (I := fun s => ∃ v, s.kernel.Sound v)
    (Q := Turn.Authorized) ⟨w, ht⟩ (fun s machine saved ⟨v, hv⟩ => by
      have hs : (s.onMachine machine).kernel.Sound v := hv
      obtain ⟨d, t, w, he, hw, heffect⟩ := exception_effect_of_sound hs saved
      exact ⟨d, t, he, ⟨w, hw⟩, Turn.authorized hs hw heffect he⟩) calls
  exact ⟨_, turns_cons hstart' hrest, List.forall_mem_cons.mpr ⟨Turn.authorized_start, hall⟩⟩

end Nucleus
