import Nucleus.Proofs.Computer.Kinship
import Nucleus.Proofs.History

/-!
# Genealogies

The live processes are one tree below the first process, along every history of one start and any
exceptions. Who created whom, and when, is told here from the turns alone; the parents and the lists
of children that the nucleus keeps are exactly that. So nobody outlives its creator, and with the
first process everybody ends and the machine halts.
-/
namespace Nucleus
open Relation

namespace Turn

/-- Is `q` live from this turn on? -/
def bears (turn : Turn) (q : Handle) : Bool :=
  !turn.before.kernel.table.isLive q && turn.after.kernel.table.isLive q

end Turn

/-- The process that asked for `q`, when it was born last. -/
def creator? (q : Handle) : List Turn → Option Handle
  | [] => none
  | turn :: past => if turn.bears q then turn.served?.map (·.1) else creator? q past

/-- For how many turns, back from the last one, a process has been live. -/
def lived (history : List Turn) (q : Handle) : Nat :=
  (history.takeWhile fun turn => turn.after.kernel.table.isLive q).length

theorem lived_cons (turn : Turn) (past : List Turn) (q : Handle) :
    lived (turn :: past) q = if turn.after.kernel.table.isLive q then lived past q + 1 else 0 := by
  rw [lived, List.takeWhile_cons]
  split <;> rfl

theorem lived_le_length (history : List Turn) (q : Handle) : lived history q ≤ history.length :=
  (List.takeWhile_prefix _).length_le

/-- The way from `q` up to `root`, from child to parent, which meets nobody twice. -/
structure Table.IsWay (t : Table) (q root : Handle) (way : List Handle) : Prop where
  head : way.head? = some q
  last : way.getLast? = some root
  chain : way.IsChain t.IsChild
  nodup : way.Nodup
  live : ∀ p ∈ way, t.isLive p

/-- The live processes are one tree below `root`, which has grown as the turns so far say. -/
structure Kernel.Rooted (k : Kernel) (root : Handle) (history : List Turn) : Prop where
  ways : ∀ q, k.table.isLive q → ∃ way, k.table.IsWay q root way
  parents : ∀ q d, k.table.find? q = some d → d.parent = creator? q history
  parentless : ∀ q d, k.table.find? q = some d → (d.parent = none ↔ q = root)
  children : ∀ p, k.table.isLive p → ∃ cs, k.table.childrenOf p = .ok cs ∧ cs.Nodup ∧
    (∀ q, q ∈ cs ↔ k.table.isLive q ∧ creator? q history = some p) ∧
    cs.Pairwise fun q q' => lived history q' < lived history q
  outlived : ∀ q p, k.table.isLive q → creator? q history = some p →
    k.table.isLive p ∧ lived history q < lived history p

/-- What a turn adds to the tree below `root`, and what becomes of the others when `root` ends. -/
structure Turn.Grows (turn : Turn) (root : Handle) : Prop where
  births : ∀ q, turn.bears q → (∃ first, turn.entry = .start first ∧ q = root) ∨
    ∃ p address support, turn.served? = some (p, .createProcess address support)
  halts : turn.before.kernel.table.isLive root → ¬turn.after.kernel.table.isLive root →
    turn.after.kernel.table.live = [] ∧ turn.dispatch = .halt

namespace View
variable {v : View} {p q root : Handle}

/-- Every live process but `root` has a parent. -/
def IsRoot (v : View) (root : Handle) : Prop :=
  ∀ q o, v.kin.parent q = some o → (o = none ↔ q = root)

theorem exists_process_above (hw : v.Wf) (h : ReflTransGen v.IsChild q p)
    (hq : ∃ x, v.process q = some x) : ∃ x, v.process p = some x := by
  cases h with
  | refl => exact hq
  | tail _ h => exact hw.parent_live h

theorem exists_way (hw : v.Wf) (h : ReflTransGen v.IsChild q root)
    (hr : ∃ x, v.process root = some x) :
    ∃ way : List Handle, way.head? = some q ∧ way.getLast? = some root ∧ way.IsChain v.IsChild ∧
      way.Nodup ∧ ∀ p ∈ way, ∃ x, v.process p = some x := by
  obtain ⟨l, hchain, hlast⟩ := List.exists_isChain_cons_of_relationReflTransGen h
  refine ⟨q :: l, rfl, ?_, hchain, ?_, ?_⟩
  · rw [List.getLast?_eq_getLast_of_ne_nil (List.cons_ne_nil q l), hlast]
  · -- whoever comes later on the way is above, and nobody is above itself
    have habove : (q :: l).Pairwise (TransGen v.IsChild) :=
      List.isChain_iff_pairwise.mp (hchain.imp fun _ _ => .single)
    refine habove.imp fun {a b} hab e => ?_
    subst e
    exact hw.forest.transGen.asymmetric a a hab hab
  · exact List.IsChain.backwards_cons_induction _ l hchain hlast
      (fun _ _ ⟨x, hx, _⟩ _ => ⟨x, hx⟩) hr

/-- The tree below `root` is as the turns so far have made it. -/
structure Descends (v : View) (root : Handle) (history : List Turn) : Prop where
  root : v.IsRoot root
  parents : ∀ q o, v.kin.parent q = some o → o = creator? q history
  older : ∀ q p, v.IsChild q p → lived history q < lived history p
  ordered : ∀ p, (v.kin.children p).Pairwise fun q q' => lived history q' < lived history q

/-- Whoever is above is older, so the way up ends at the root. -/
theorem Descends.below_root {history : List Turn} (hd : v.Descends root history) (hw : v.Wf)
    (hq : ∃ x, v.process q = some x) : ReflTransGen v.IsChild q root := by
  have hbound : ∀ n q, (∃ x, v.process q = some x) → history.length < lived history q + n →
      ReflTransGen v.IsChild q root := by
    intro n
    induction n with
    | zero =>
      intro q _ hn
      have hle := lived_le_length history q
      omega
    | succ n ih =>
      intro q ⟨x, hx⟩ hn
      have ho := kin_parent hx
      cases hp : x.parent with
      | none => rw [(hd.root q _ ho).mp hp]
      | some p =>
        have hqp : v.IsChild q p := ⟨x, hx, hp⟩
        have hlt := hd.older q p hqp
        exact (ih p (hw.parent_live hqp) (by omega)).head hqp
  exact hbound (history.length + 1) q hq (by omega)

end View

namespace Kernel.Sound
variable {k : Kernel} {v : View} {p q root : Handle} {history : List Turn}

theorem isLive_iff (h : k.Sound v) (q : Handle) : k.table.isLive q ↔ ∃ x, v.process q = some x := by
  rw [h.isLive_eq, Option.isSome_iff_exists]

theorem isLive_iff_kin (h : k.Sound v) (q : Handle) : k.table.isLive q ↔ v.kin.parent q ≠ none := by
  rw [h.isLive_eq, Option.isSome_iff_ne_none, ne_eq, View.process_eq_none_iff_kin]

/-- Being a child of a live process is having been created by it. -/
theorem isChild_iff_creator (h : k.Sound v) (hd : v.Descends root history) :
    v.IsChild q p ↔ k.table.isLive q ∧ creator? q history = some p := by
  rw [View.isChild_iff_kin, h.isLive_iff_kin]
  constructor
  · intro hq
    rw [hq]
    exact ⟨by simp, (hd.parents q _ hq).symm⟩
  · intro ⟨hq, hp⟩
    obtain ⟨o, ho⟩ := Option.ne_none_iff_exists'.mp hq
    rw [ho, hd.parents q o ho, hp]

theorem rooted (h : k.Sound v) (hd : v.Descends root history) : k.Rooted root history where
  ways q hq := by
    have hlive := (h.isLive_iff q).mp hq
    have hbelow := hd.below_root h.arranged.wf hlive
    obtain ⟨way, hhead, hlast, hchain, hnodup, hall⟩ := View.exists_way h.arranged.wf hbelow
      (View.exists_process_above h.arranged.wf hbelow hlive)
    rw [← h.isChild_eq] at hchain
    exact ⟨way, hhead, hlast, hchain, hnodup, fun p hp => (h.isLive_iff p).mpr (hall p hp)⟩
  parents q d hq := hd.parents q _ (View.kin_parent (h.registers.process_eq hq))
  parentless q d hq := hd.root q _ (View.kin_parent (h.registers.process_eq hq))
  children p hp := by
    obtain ⟨d, hfind⟩ := Option.isSome_iff_exists.mp hp
    refine ⟨_, h.childrenOf_eq hfind, h.arranged.shows.nodup_children p, fun q => ?_, hd.ordered p⟩
    rw [h.arranged.wf.mem_children, h.isChild_iff_creator hd]
  outlived q p hq hp := by
    have hchild := (h.isChild_iff_creator hd).mpr ⟨hq, hp⟩
    exact ⟨(h.isLive_iff p).mpr (h.arranged.wf.parent_live hchild), hd.older q p hchild⟩

end Kernel.Sound

namespace History
variable {timing : Timing} {machine : Machine} {first : SavedState} {history past : List Turn}
  {turn : Turn}
variable {s t : Computer} {v w : View} {m : Machine} {saved : SavedState} {d : Dispatch}
  {p q root : Handle}

theorem kin_boot (p : Handle) : (Scene.boot timing machine p first).view.kin =
    ⟨fun q => if q = p then some none else none, fun _ => [],
      Function.update (fun _ => 0) p.slot p.generation⟩ := by
  have hparent : ∀ q, ((Scene.boot timing machine p first).view.process q).map (·.parent) =
      if q = p then some none else none := by
    intro q
    by_cases hq : q = p
    · simp [Scene.boot, Scene.dispatch, View.leave, View.join, View.create, View.alter, hq]
    · simp [Scene.boot, Scene.dispatch, View.leave, View.join, View.create,
        View.alter, View.empty, hq]
  exact congrArg (Kin.mk · _ _) (funext hparent)

theorem lived_pos_iff (h : History timing machine first history s v) :
    0 < lived history q ↔ s.kernel.table.isLive q := by
  obtain ⟨turn, past, rfl, rfl⟩ := h.exists_last
  rw [lived_cons]
  split
  · next hq => simp [hq]
  · next hq => simp [hq]

theorem descends_start (hboot : t.scene w = .boot timing machine p first) :
    w.Descends p [⟨.initial timing machine, .start first, d, t⟩] := by
  have hkin : w.kin = _ := (congrArg (·.view.kin) hboot).trans (kin_boot p)
  have hparent : ∀ q o, w.kin.parent q = some o → q = p ∧ o = none := by
    intro q o hq
    rw [hkin] at hq
    simpa [eq_comm] using hq
  constructor
  · intro q o hq
    simp [hparent q o hq]
  · intro q o hq
    rw [(hparent q o hq).2, creator?]
    split <;> rfl
  · intro q p' hq
    have hnone := (hparent q _ (View.isChild_iff_kin.mp hq)).2
    cases hnone
  · intro p'
    rw [hkin]
    exact .nil

theorem lived_eq_zero (h : History timing machine first history s v) (hq : v.kin.parent q = none) :
    lived history q = 0 := by
  have hdead := (h.sound.isLive_iff_kin q).not.mpr (not_not.mpr hq)
  have hpos := h.lived_pos_iff.not.mpr hdead
  omega

section
variable {e : Entry}

theorem lived_next (ht : t.kernel.Sound w) (hq : w.kin.parent q ≠ none) :
    lived (⟨s.onMachine m, e, d, t⟩ :: past) q = lived past q + 1 := by
  rw [lived_cons, if_pos ((ht.isLive_iff_kin q).mpr hq)]

theorem bears_iff (h : s.kernel.Sound v) (ht : t.kernel.Sound w) :
    (Turn.mk s e d t).bears q ↔ v.kin.parent q = none ∧ w.kin.parent q ≠ none := by
  have hbefore : s.kernel.table.isLive q = false ↔ v.kin.parent q = none := by
    rw [← Bool.not_eq_true, h.isLive_iff_kin, not_not]
  rw [Turn.bears, Bool.and_eq_true, Bool.not_eq_true']
  exact and_congr hbefore (ht.isLive_iff_kin q)

end

section
variable (h : History timing machine first past s v) (hd : v.Descends root past)
  (ht : t.kernel.Sound w) (heffect : ((s.onMachine m).scene v).Effect saved d (t.scene w))
include h hd heffect

theorem isRoot_next : w.IsRoot root := by
  intro q o hq
  rcases heffect.kinship.parent_cases hq with hq | ⟨hn, p, _, _, hserved, rfl⟩
  · exact hd.root q o hq
  · -- the root is live since the caller is, so it is not the newcomer
    have hp : ∃ x, v.process p = some x := by
      obtain ⟨x, hx, _⟩ := h.sound.running p (SavedState.served?_eq_some.mp hserved).2
      exact ⟨x, hx⟩
    have hw := h.sound.arranged.wf
    obtain ⟨y, hy⟩ := View.exists_process_above hw (hd.below_root hw hp) hp
    have hne : q ≠ root := by
      intro he
      rw [he, ← View.process_eq_none_iff_kin] at hn
      cases hn.symm.trans hy
    simp [hne]

include ht

theorem parents_next {o : Option Handle} (hq : w.kin.parent q = some o) :
    o = creator? q (⟨s.onMachine m, .exception saved, d, t⟩ :: past) := by
  rcases heffect.kinship.parent_cases hq with hv | ⟨hn, p, _, _, hserved, rfl⟩
  · have hv' : v.kin.parent q = some o := hv
    have hborn := (bears_iff (s := s.onMachine m) (e := .exception saved) (d := d) (q := q) h.sound
      ht).not.mpr (by simp [hv'])
    rw [creator?, if_neg hborn]
    exact hd.parents q o hv
  · have hborn :=
      (bears_iff (s := s.onMachine m) (e := .exception saved) (d := d) (q := q) h.sound ht).mpr
        ⟨hn, by simp [hq]⟩
    rw [creator?, if_pos hborn]
    exact (congrArg (Option.map (·.1)) hserved).symm

theorem older_next {p : Handle} (hq : w.IsChild q p) :
    lived (⟨s.onMachine m, .exception saved, d, t⟩ :: past) q <
      lived (⟨s.onMachine m, .exception saved, d, t⟩ :: past) p := by
  have hparent := View.isChild_iff_kin.mp hq
  obtain ⟨y, hy⟩ := ht.arranged.wf.parent_live hq
  rw [lived_next ht (by simp [hparent]), lived_next ht (by simp [View.kin_parent hy])]
  rcases heffect.kinship.parent_cases hparent with hv | ⟨hn, p', _, _, hserved, he⟩
  · have hlt := hd.older q p (View.isChild_iff_kin.mpr hv)
    omega
  · obtain rfl := Option.some.inj he
    obtain ⟨x, hx, _⟩ := h.sound.running p (SavedState.served?_eq_some.mp hserved).2
    have hpos := h.lived_pos_iff.mpr ((h.sound.isLive_iff p).mpr ⟨x, hx⟩)
    rw [h.lived_eq_zero hn]
    omega

theorem ordered_next (p : Handle) : (w.kin.children p).Pairwise fun q q' =>
    lived (⟨s.onMachine m, .exception saved, d, t⟩ :: past) q' <
      lived (⟨s.onMachine m, .exception saved, d, t⟩ :: past) q := by
  have hage : ∀ q ∈ w.kin.children p,
      lived (⟨s.onMachine m, .exception saved, d, t⟩ :: past) q = lived past q + 1 := fun q hq => by
    have hchild := View.isChild_iff_kin.mp ((ht.arranged.wf.mem_children p q).mp hq)
    exact lived_next ht (by simp [hchild])
  rcases heffect.kinship.children_cases p with hsub | ⟨child, hn, hjoin⟩
  · refine ((hd.ordered p).sublist hsub).imp_of_mem fun {a b} ha hb hlt => ?_
    rw [hage a ha, hage b hb]
    omega
  · -- the newcomer is the youngest
    have hjoin' : w.kin.children p = v.kin.children p ++ [child] := hjoin
    rw [hjoin'] at hage ⊢
    refine List.pairwise_append.mpr ⟨?_, List.pairwise_singleton _ _, fun a ha b hb => ?_⟩
    · refine (hd.ordered p).imp_of_mem fun {a b} ha hb hlt => ?_
      rw [hage a (by simp [ha]), hage b (by simp [hb])]
      omega
    · obtain rfl := List.mem_singleton.mp hb
      have hchild := View.isChild_iff_kin.mp ((h.sound.arranged.wf.mem_children p a).mp ha)
      have hpos := h.lived_pos_iff.mpr ((h.sound.isLive_iff_kin a).mpr (by simp [hchild]))
      rw [hage a (by simp [ha]), hage b (by simp), h.lived_eq_zero hn]
      omega

theorem descends_next : w.Descends root (⟨s.onMachine m, .exception saved, d, t⟩ :: past) where
  root := isRoot_next h hd heffect
  parents _ _ := parents_next h hd ht heffect
  older _ _ := older_next h hd ht heffect
  ordered := ordered_next h hd ht heffect

end

theorem exists_root (h : History timing machine first history s v) :
    ∃ root, history.getLast?.bind (·.after.kernel.current) = some root ∧
      v.Descends root history := by
  induction h with
  | @start t w p ht hs hboot =>
    have hcurrent : t.kernel.current = some p := congrArg Scene.current hboot
    exact ⟨p, hcurrent, descends_start hboot⟩
  | next h ht hs heffect ih =>
    obtain ⟨root, hlast, hd⟩ := ih
    refine ⟨root, ?_, descends_next h hd ht heffect⟩
    obtain ⟨turn, past, rfl, _⟩ := h.exists_last
    rwa [List.getLast?_cons_cons]

theorem live_eq_nil (h : s.kernel.Sound v) (hd : v.Descends root past) (ht : t.kernel.Sound w)
    (heffect : ((s.onMachine m).scene v).Effect saved d (t.scene w))
    (hlive : s.kernel.table.isLive root) (hgone : ¬t.kernel.table.isLive root) :
    t.kernel.table.live = [] := by
  rw [h.isLive_iff_kin] at hlive
  rw [ht.isLive_iff_kin, not_not] at hgone
  obtain ⟨p, victim, l, _, hf, hkin, hroot⟩ := heffect.kinship.of_gone hlive hgone
  have hkin' : w.kin = v.kin.without l := hkin
  -- nobody is above the root, so the family that ends is its own
  have hvictim : root = victim := by
    rcases ReflTransGen.cases_head ((hf root).mp hroot) with he | ⟨p, hp, _⟩
    · exact he
    · have hnone := (hd.root root _ (View.isChild_iff_kin.mp hp)).mpr rfl
      cases hnone
  subst hvictim
  have hall : ∀ q, w.kin.parent q = none := by
    intro q
    rw [hkin']
    by_cases hq : v.process q = none
    · simp [Kin.without, View.process_eq_none_iff_kin.mp hq]
    · have hbelow := hd.below_root h.arranged.wf (Option.ne_none_iff_exists'.mp hq)
      simp [Kin.without, (hf q).mpr hbelow]
  refine List.eq_nil_iff_forall_not_mem.mpr fun e he => ?_
  have hfind := ht.registers.process_eq (ht.mem_live_iff.mp he)
  cases (View.process_eq_none_iff_kin.mpr (hall _)).symm.trans hfind

theorem isLive_initial (q : Handle) :
    (Computer.initial timing machine).kernel.table.isLive q = false :=
  Kernel.Sound.isLive_eq (Kernel.sound_initial timing) q

theorem getLast?_cons (h : History timing machine first past s v) (turn : Turn) :
    (turn :: past).getLast? = past.getLast? := by
  obtain ⟨latest, past, rfl, _⟩ := h.exists_last
  exact List.getLast?_cons_cons

theorem grows (h : History timing machine first (turn :: past) t w)
    (hroot : (turn :: past).getLast?.bind (·.after.kernel.current) = some root)
    (henter : turn.before.enter turn.entry = .ok (turn.dispatch, turn.after)) :
    turn.Grows root := by
  cases h with
  | @start _ _ p ht hs hboot =>
    constructor
    · intro q hq
      have hcurrent : t.kernel.current = some root := hroot
      obtain rfl : p = root := Option.some.inj ((congrArg Scene.current hboot).symm.trans hcurrent)
      have hkin : w.kin = _ := (congrArg (·.view.kin) hboot).trans (kin_boot p)
      have hlive : t.kernel.table.isLive q := (Bool.and_eq_true_iff.mp hq).2
      rw [ht.isLive_iff_kin, hkin] at hlive
      have hqp : q = p := by simpa using hlive
      exact .inl ⟨first, rfl, hqp⟩
    · intro hlive
      cases (isLive_initial root).symm.trans hlive
  | @next _ s _ v _ m saved d h ht hs heffect =>
    constructor
    · intro q hq
      obtain ⟨hn, hlive⟩ := (bears_iff (s := s.onMachine m) h.sound ht).mp hq
      obtain ⟨o, ho⟩ := Option.ne_none_iff_exists'.mp hlive
      rcases heffect.kinship.parent_cases ho with hv | ⟨_, p, address, support, hserved, _⟩
      · cases hn.symm.trans hv
      · exact .inr ⟨p, address, support, hserved⟩
    · intro hlive hgone
      have hnil : t.kernel.table.live = [] := by
        obtain ⟨root', hroot', hd⟩ := h.exists_root
        rw [h.getLast?_cons] at hroot
        cases hroot'.symm.trans hroot
        exact live_eq_nil h.sound hd ht heffect hlive hgone
      refine ⟨hnil, ?_⟩
      obtain ⟨_, _, he, _, hexact⟩ :=
        Computer.exception_exact (s := s.onMachine m) h.sound h.settled saved
      cases he.symm.trans henter
      have hcurrent : t.kernel.current = none := by
        refine Option.eq_none_iff_forall_ne_some.mpr fun p hp => ?_
        obtain ⟨x, hx, _⟩ := ht.running p hp
        obtain ⟨e, he, _⟩ := ht.registers.find? hx
        have hmem := Table.mem_live_of_find? he
        rw [hnil] at hmem
        cases hmem
      refine (hexact.halts hcurrent fun code hpanic => ?_).mpr hnil
      have hsame : t = s.onMachine m := hexact.unchanged code hpanic
      rw [hsame] at hgone
      exact hgone hlive

end History

/-- In a run of one start and any exceptions the live processes are one tree below the first process
after every turn. -/
theorem Computer.turns_rooted (timing : Timing) (machine : Machine) (first : SavedState)
    (calls : List (Machine × SavedState)) :
    ∃ turns root, (initial timing machine).turns
        ((machine, .start first) :: calls.map fun call => (call.1, .exception call.2)) = .ok turns ∧
      turns.head?.bind (·.after.kernel.current) = some root ∧
      ∀ turn past, turn :: past <:+ turns.reverse →
        turn.after.kernel.Rooted root (turn :: past) ∧ turn.Grows root := by
  obtain ⟨turns, hrun, hhistory⟩ := turns_history timing machine first calls
  have hlast : ∀ turn past, turn :: past <:+ turns.reverse →
      (turn :: past).getLast? = turns.head? := by
    intro turn past ⟨later, hlater⟩
    rw [← List.getLast?_reverse, ← hlater,
      List.getLast?_append_of_ne_nil later (List.cons_ne_nil turn past)]
  obtain ⟨d, t, rest, _, _, rfl⟩ := turns_cons_eq_ok hrun
  obtain ⟨_, w, hw⟩ := hhistory ⟨_, _, d, t⟩ [] (List.reverse_cons ▸ List.suffix_append ..)
  obtain ⟨root, hroot, _⟩ := hw.exists_root
  refine ⟨_, root, hrun, hroot, fun turn past hsuffix => ?_⟩
  obtain ⟨_, w, hw⟩ := hhistory turn past hsuffix
  obtain ⟨root', hroot', hd⟩ := hw.exists_root
  rw [hlast turn past hsuffix] at hroot'
  cases hroot'.symm.trans hroot
  rw [← hlast turn past hsuffix] at hroot'
  have hmem := List.mem_reverse.mp (hsuffix.subset (List.mem_cons_self ..))
  exact ⟨hw.sound.rooted hd, hw.grows hroot' (enter_of_mem_turns hrun turn hmem)⟩

end Nucleus
