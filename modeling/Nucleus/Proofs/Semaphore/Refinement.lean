import Nucleus.Proofs.Semaphore.Lists

/-!
# Stores refine maps

A store begins with nobody waiting and is then used in any order: processes are put on semaphores
and taken off again, and between these operations the table may be changed by others. At every
moment there is a map that can be read off the store (`Mirrors`), and every operation does to the
store what it does to one list of the map (`Acts`).
-/
namespace Nucleus

/-- What others may make of the table: whoever waits goes on waiting where he does, next to the same
neighbours, and nobody else is said to wait. -/
structure Table.Spares (t u : Table) : Prop where
  pool : u.Pooled
  waiting : ∀ p key, (∃ d, u.find? p = some d ∧ d.waitingOn = some key) ↔
    ∃ d, t.find? p = some d ∧ d.waitingOn = some key
  links : ∀ p d, t.find? p = some d → d.waitingOn.isSome → (u.entry p).link .queue = d.link .queue
  tagged : ∀ p d, u.find? p = some d → (d.waitingOn.isSome ↔ d.location = .blocked)

theorem Table.Pooled.spares_alloc {t u : Table} {p : Handle} (h : t.Pooled)
    (ht : ∀ q d, t.find? q = some d → (d.waitingOn.isSome ↔ d.location = .blocked))
    (ha : t.alloc = some (p, u)) : t.Spares u := by
  obtain ⟨-, hfree, -, he, hpool⟩ := h.alloc ha
  have hfind := h.find?_alloc ha
  have hnone : t.find? p = none := Table.find?_of_free hfree rfl
  refine ⟨hpool, fun q key => ?_, fun q d hd _ => ?_, fun q d hd => ?_⟩
  · rw [hfind]
    by_cases hq : q = p
    · simp [hq, hnone]
    · rw [if_neg hq]
  · have hs : q.slot ≠ p.slot := fun hs => by
      rw [Table.find?_of_free hfree hs] at hd
      cases hd
    rw [he, if_neg hs, Table.entry_of_find? hd]
  · rcases ite_eq_iff.mp ((hfind q).symm.trans hd) with ⟨_, hd⟩ | ⟨_, hd⟩
    · cases hd
      simp
    · exact ht q d hd

namespace Store
variable {s s' : Store} {queue : SemKey → List Handle} {key : SemKey} {p : Handle}
  {l m ps : List Handle}
variable {w : Option SemKey}

/-- What a store comes to when only processes in no queue are put on a semaphore. P puts a process
there when it leaves the integer negative; what the integers are is of no account. -/
inductive Reached : Store → Prop
  | empty : Reached .empty
  | share {s : Store} {u : Table} : Reached s → s.table.Spares u → Reached { s with table := u }
  | enqueue {s s' : Store} {key : SemKey} {p : Handle} :
      Reached s → s.table.Unlinked .queue p → s.enqueue key p = .ok (.ok s') → Reached s'
  | dequeue {s s' : Store} {key : SemKey} {o : Option Handle} : Reached s →
      s.dequeue key = .ok (o, s') → Reached s'
  | withdraw {s s' : Store} {p : Handle} {o : Option Handle} : Reached s →
      s.withdraw p = .ok (o, s') → Reached s'
  | wait {σ : Type} [SemaphoreCells σ] {s s' : Store} {cells cells' : σ} {key : SemKey}
      {p : Handle} {b : Bool} :
      Reached s → (¬0 ≤ SemaphoreCells.value cells key - 1 → s.table.Unlinked .queue p) →
      s.wait cells key p = .ok (.ok b, s', cells') → Reached s'
  | signal {σ : Type} [SemaphoreCells σ] {s s' : Store} {cells cells' : σ} {key : SemKey}
      {o : Option Handle} :
      Reached s → s.signal cells key = .ok (o, s', cells') → Reached s'
  | broadcast {σ : Type} [SemaphoreCells σ] {s s' : Store} {cells cells' : σ} {key : SemKey}
      {l : List Handle} :
      Reached s → s.broadcast cells key = .ok (l, s', cells') → Reached s'

/-- The map is the same but for the list of `key`, which is `l` now; the processes `ps` wait as `w`
says, and can be put on a semaphore again when they wait for nothing. Nothing else in any descriptor
changed but links, and these only where the list was and in `ps`. -/
structure Relisted (s s' : Store) (queue : SemKey → List Handle) (key : SemKey) (l ps : List Handle)
    (w : Option SemKey) : Prop where
  mirrors : s'.Mirrors (Function.update queue key l)
  shifted : Table.Shifted (ps ++ queue key) ps w s.table s'.table
  unlinked : w = none → ∀ p ∈ ps, s'.table.Unlinked .queue p

/-- What the operations make of a store in which `queue` is the map. -/
structure Acts (s : Store) (queue : SemKey → List Handle) : Prop where
  enqueue : ∀ key p, s.table.Unlinked .queue p → ∃ s', s.enqueue key p = .ok (.ok s') ∧
    s.Relisted s' queue key (queue key ++ [p]) [p] (some key)
  dequeue_nil : ∀ key, queue key = [] → s.dequeue key = .ok (none, s)
  dequeue : ∀ key p l, queue key = p :: l → ∃ s', s.dequeue key = .ok (some p, s') ∧
    s.Relisted s' queue key l [p] none
  withdraw : ∀ key, ∀ p ∈ queue key, ∃ s', s.withdraw p = .ok (some p, s') ∧
    s.Relisted s' queue key ((queue key).erase p) [p] none
  withdraw_other : ∀ p, (∀ d, s.table.find? p = some d → d.location ≠ .blocked) →
    s.withdraw p = .ok (none, s)
  wait : ∀ {σ : Type} [SemaphoreCells σ] (cells : σ) key p, 0 ≤ SemaphoreCells.value cells key - 1 →
    s.wait cells key p =
      .ok (.ok false, s, SemaphoreCells.assign cells key (SemaphoreCells.value cells key - 1))
  wait_blocks : ∀ {σ : Type} [SemaphoreCells σ] (cells : σ) key p,
    ¬0 ≤ SemaphoreCells.value cells key - 1 → s.table.Unlinked .queue p → ∃ s', s.wait cells key p =
        .ok (.ok true, s', SemaphoreCells.assign cells key (SemaphoreCells.value cells key - 1)) ∧
      s.Relisted s' queue key (queue key ++ [p]) [p] (some key)
  signal : ∀ {σ : Type} [SemaphoreCells σ] (cells : σ) key,
    ¬SemaphoreCells.value cells key + 1 ≤ 0 ∨ queue key = [] → s.signal cells key =
      .ok (none, s, SemaphoreCells.assign cells key (SemaphoreCells.value cells key + 1))
  signal_wakes : ∀ {σ : Type} [SemaphoreCells σ] (cells : σ) key p l,
    SemaphoreCells.value cells key + 1 ≤ 0 → queue key = p :: l → ∃ s', s.signal cells key =
        .ok (some p, s', SemaphoreCells.assign cells key (SemaphoreCells.value cells key + 1)) ∧
      s.Relisted s' queue key l [p] none
  broadcast : ∀ {σ : Type} [SemaphoreCells σ] (cells : σ) key, ∃ s',
    s.broadcast cells key = .ok (queue key, s', SemaphoreCells.assign cells key 0) ∧
      s.Relisted s' queue key [] (queue key) none

namespace Lists

theorem empty : Lists .empty fun _ => [] := by
  have hnone : ∀ p d, Table.empty.find? p = some d → False := fun p d hd => by
    obtain ⟨hp, rfl, -, hl⟩ := Table.find?_eq_some_iff.mp hd
    have hp' : p.slot.toNat < maxProcesses := hp
    simp [Table.entry, Table.empty, hp'] at hl
  refine ⟨⟨.empty, by simpa [Store.empty] using Directory.Indexes.empty,
    fun key => ?_, fun key p => ?_⟩, fun p d hd => (hnone p d hd).elim⟩
  · have hring : Store.empty.directory.ringAt key = {} := by
      simp [Store.empty, Directory.ringAt, Directory.Indexes.empty.find?_none]
    exact hring ▸ .nil
  · refine iff_of_false (by simp) ?_
    rintro ⟨d, hd, _⟩
    exact hnone p d hd

theorem share {u : Table} (h : s.Lists queue) (hu : s.table.Spares u) :
    Lists { s with table := u } queue where
  pool := hu.pool
  indexes := h.indexes
  holds key := by
    refine (h.holds key).congr fun p hp => ?_
    obtain ⟨d, hd, hw⟩ := (h.waiting key p).mp hp
    rw [Table.entry_of_find? hd]
    exact hu.links p d hd (by rw [hw]; rfl)
  waiting key p := (h.waiting key p).trans (hu.waiting p key).symm
  tagged := hu.tagged

theorem relisted (h : s'.Lists (Function.update queue key l))
    (hs : Table.Shifted m ps w s.table s'.table) (hm : m ⊆ ps ++ queue key)
    (hu : w = none → ∀ p ∈ ps, s'.table.Unlinked .queue p) : s.Relisted s' queue key l ps w :=
  ⟨h.mirrors, hs.mono hm, hu⟩

theorem acts (h : s.Lists queue) : s.Acts queue where
  enqueue key p hp := by
    obtain ⟨s', he, hl, hs⟩ := h.enqueue hp key
    exact ⟨s', he, hl.relisted hs (by simp) (by simp)⟩
  dequeue_nil key hq := h.dequeue_nil hq
  dequeue key p l hq := by
    obtain ⟨s', hd, hl, hs, hu⟩ := h.dequeue hq
    exact ⟨s', hd, hl.relisted hs (by simp) (by simpa using hu)⟩
  withdraw key p hm := by
    obtain ⟨s', hd, hl, hs, hu⟩ := h.withdraw hm
    exact ⟨s', hd, hl.relisted hs (by simp) (by simpa using hu)⟩
  withdraw_other p hp := by
    refine h.withdraw_of_notMem fun key hm => ?_
    obtain ⟨d, hd, hb, _⟩ := (h.mirrors.mem key p).mp hm
    exact hp d hd hb
  wait cells key p hv := if_pos hv
  wait_blocks cells key p hv hp := by
    obtain ⟨s', he, hl, hs⟩ := h.enqueue hp key
    exact ⟨s', wait_of_enqueue hv he, hl.relisted hs (by simp) (by simp)⟩
  signal cells key hv := by
    by_cases hle : SemaphoreCells.value cells key + 1 ≤ 0
    · exact signal_of_dequeue hle (h.dequeue_nil (hv.resolve_left fun hn => hn hle))
    · exact if_neg hle
  signal_wakes cells key p l hv hq := by
    obtain ⟨s', hd, hl, hs, hu⟩ := h.dequeue hq
    exact ⟨s', signal_of_dequeue hv hd, hl.relisted hs (by simp) (by simpa using hu)⟩
  broadcast cells key := by
    obtain ⟨s', hd, hl, hs, hu⟩ := h.drain (h.holds key).length_le
    exact ⟨s', broadcast_of_drain hd, hl.relisted hs (by simp) fun _ => hu⟩

theorem after_dequeue (h : s.Lists queue) (key : SemKey) :
    ∃ o s' queue', s.dequeue key = .ok (o, s') ∧ s'.Lists queue' := by
  cases hq : queue key with
  | nil => exact ⟨none, s, queue, h.dequeue_nil hq, h⟩
  | cons p l =>
    obtain ⟨s', hd, hl, _⟩ := h.dequeue hq
    exact ⟨some p, s', _, hd, hl⟩

end Lists

theorem Reached.lists (h : s.Reached) : ∃ queue, s.Lists queue := by
  induction h with
  | empty => exact ⟨_, .empty⟩
  | share _ hu ih =>
    obtain ⟨queue, hl⟩ := ih
    exact ⟨queue, hl.share hu⟩
  | enqueue _ hp he ih =>
    obtain ⟨queue, hl⟩ := ih
    obtain ⟨t, he', ht, _⟩ := hl.enqueue hp _
    cases he.symm.trans he'
    exact ⟨_, ht⟩
  | @dequeue _ _ key _ _ hd ih =>
    obtain ⟨queue, hl⟩ := ih
    obtain ⟨o, t, queue', hd', ht⟩ := hl.after_dequeue key
    cases hd.symm.trans hd'
    exact ⟨queue', ht⟩
  | @withdraw _ _ p _ _ hw ih =>
    obtain ⟨queue, hl⟩ := ih
    by_cases hm : ∃ key, p ∈ queue key
    · obtain ⟨key, hm⟩ := hm
      obtain ⟨t, hw', ht, _⟩ := hl.withdraw hm
      cases hw.symm.trans hw'
      exact ⟨_, ht⟩
    · cases hw.symm.trans (hl.withdraw_of_notMem (not_exists.mp hm))
      exact ⟨queue, hl⟩
  | @wait _ _ _ _ cells _ key p _ _ hp hw ih =>
    obtain ⟨queue, hl⟩ := ih
    by_cases hv : 0 ≤ SemaphoreCells.value cells key - 1
    · cases hw.symm.trans (if_pos hv)
      exact ⟨queue, hl⟩
    · obtain ⟨t, he, ht, _⟩ := hl.enqueue (hp hv) key
      cases hw.symm.trans (wait_of_enqueue hv he)
      exact ⟨_, ht⟩
  | @signal _ _ _ _ cells _ key _ _ hs ih =>
    obtain ⟨queue, hl⟩ := ih
    by_cases hv : SemaphoreCells.value cells key + 1 ≤ 0
    · obtain ⟨o, t, queue', hd, ht⟩ := hl.after_dequeue key
      cases hs.symm.trans (signal_of_dequeue hv hd)
      exact ⟨queue', ht⟩
    · cases hs.symm.trans (if_neg hv)
      exact ⟨queue, hl⟩
  | @broadcast _ _ _ _ cells _ key _ _ hb ih =>
    obtain ⟨queue, hl⟩ := ih
    obtain ⟨t, hd, ht, _⟩ := hl.drain (hl.holds key).length_le
    cases hb.symm.trans (broadcast_of_drain hd)
    exact ⟨_, ht⟩

/-- At every moment there is a map to be read off, and whatever is done
to the store is done to it. -/
theorem Reached.refines (h : s.Reached) : ∃ queue, s.Mirrors queue ∧ s.Acts queue := by
  obtain ⟨queue, hl⟩ := h.lists
  exact ⟨queue, hl.mirrors, hl.acts⟩

def hire (s : Store) : Store := (s.table.alloc.map fun a => { s with table := a.2 }).getD s

def put (s : Store) (key : SemKey) (p : Handle) : Store :=
  match s.enqueue key p with
  | .ok (.ok s') => s'
  | _ => s

theorem Reached.hire (h : s.Reached) : s.hire.Reached := by
  unfold Store.hire
  cases ha : s.table.alloc with
  | none => exact h
  | some a =>
    obtain ⟨queue, hl⟩ := h.lists
    exact h.share (hl.pool.spares_alloc hl.tagged ha)

theorem Reached.put (h : s.Reached) (hp : (s.table.find? p).map (·.link .queue) = some {})
    (key : SemKey) : (s.put key p).Reached := by
  obtain ⟨queue, hl⟩ := h.lists
  have hu : s.table.Unlinked .queue p := Option.map_eq_some_iff.mp hp
  obtain ⟨s', he, _⟩ := hl.enqueue hu key
  have hs : s.put key p = s' := by simp [Store.put, he]
  exact hs ▸ h.enqueue hu he

/-- Two processes wait at the lowest address and one at the highest. -/
def bothEnds : Store :=
  ((Store.empty.hire.hire.hire.put .lowest ⟨0, 1⟩).put .highest ⟨1, 1⟩).put .lowest ⟨2, 1⟩

theorem bothEnds_reached : bothEnds.Reached :=
  (((Reached.empty.hire.hire.hire.put (by decide +kernel) _).put (by decide +kernel) _).put
    (by decide +kernel) _)

/-- The first of the two is withdrawn, and then the other taken: nobody waits at the lowest address
any more. -/
theorem bothEnds_refines : ∃ s₁ s₂, bothEnds.withdraw ⟨0, 1⟩ = .ok (some ⟨0, 1⟩, s₁) ∧
    s₁.dequeue .lowest = .ok (some ⟨2, 1⟩, s₂) ∧ s₂.waiters .lowest = .ok [] ∧
    s₂.waiters .highest = .ok [⟨1, 1⟩] := by
  obtain ⟨queue, hm, ha⟩ := bothEnds_reached.refines
  have hlow : queue .lowest = [⟨0, 1⟩, ⟨2, 1⟩] :=
    Except.ok.inj ((hm.waiters .lowest).symm.trans (by decide +kernel))
  have hhigh : queue .highest = [⟨1, 1⟩] :=
    Except.ok.inj ((hm.waiters .highest).symm.trans (by decide +kernel))
  obtain ⟨s₁, hw, hr⟩ := ha.withdraw .lowest ⟨0, 1⟩ (by simp [hlow])
  have h₁ : s₁.Reached := bothEnds_reached.withdraw hw
  obtain ⟨queue₁, hm₁, ha₁⟩ := h₁.refines
  have hqueue₁ : queue₁ = Function.update queue .lowest [⟨2, 1⟩] := funext fun k => by
    have hk := Except.ok.inj ((hm₁.waiters k).symm.trans (hr.mirrors.waiters k))
    rw [hk, hlow]
    rfl
  obtain ⟨s₂, hd, hr₂⟩ := ha₁.dequeue .lowest ⟨2, 1⟩ [] (by simp [hqueue₁])
  refine ⟨s₁, s₂, hw, hd, by simpa using hr₂.mirrors.waiters .lowest, ?_⟩
  have hne : SemKey.highest ≠ .lowest := by decide
  simpa [hqueue₁, hne, hhigh] using hr₂.mirrors.waiters .highest

end Store
end Nucleus
