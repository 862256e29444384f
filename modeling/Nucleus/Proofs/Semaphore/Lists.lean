import Nucleus.Proofs.Process.Shows
import Nucleus.Proofs.Semaphore.Room

/-!
# The directory as a map

Apart from its entries and rings the directory is a map: the address of a semaphore leads to the
processes that wait on it, first come first, and is no key of the map while nobody waits. Every
operation of a store changes one list of this map, whatever the address is and wherever in the
directory its entry goes, and in the descriptors nothing but links and what the moved processes say
about themselves. The table is not the directory's alone: whoever else uses it only has to leave
those who wait where they are.
-/
namespace Nucleus

/-- The descriptor of a process that waits on the semaphore `w`, or for nothing. -/
def Descriptor.await (d : Descriptor) (w : Option SemKey) : Descriptor :=
  { d with waitingOn := w, location := if w.isSome then .blocked else .unqueued }

section
variable {t u : Table} {c : Chain} {m : List Handle} {p : Handle} {x : Descriptor}
  {w : Option SemKey}

theorem Descriptor.location_await (d : Descriptor) (w : Option SemKey) :
    (d.await w).location ≠ .free := by
  unfold await
  split <;> simp

@[simp] theorem Descriptor.link_await (d : Descriptor) (w : Option SemKey) (c : Chain) :
    (d.await w).link c = d.link c := by
  cases c <;> rfl

@[simp] theorem Descriptor.handle_await (d : Descriptor) (w : Option SemKey) :
    (d.await w).handle = d.handle := rfl

@[simp] theorem Descriptor.waitingOn_await (d : Descriptor) (w : Option SemKey) :
    (d.await w).waitingOn = w := rfl

theorem Descriptor.location_await_eq_blocked (d : Descriptor) (w : Option SemKey) :
    (d.await w).location = .blocked ↔ w.isSome := by
  unfold await
  split <;> simp_all

theorem Descriptor.await_setLink (d : Descriptor) (w : Option SemKey) (k : Link) (c : Chain) :
    (d.await w).setLink k c = (d.setLink k c).await w := by
  cases c <;> rfl

theorem Table.Relinked.find?_await (hl : Relinked c m t u) (hx : t.find? p = some x)
    {f : Descriptor → Descriptor} (hf : ∀ k, f (x.setLink k c) = (x.setLink k c).await w)
    (q : Handle) : ∃ k, (u.alter p f).find? q =
      (t.find? q).map fun y => if q = p then (y.setLink k c).await w else y.setLink k c := by
  obtain ⟨k, hk⟩ := hl.find? p
  rw [hx, Option.map_some] at hk
  have hhandle : (f (x.setLink k c)).handle = (x.setLink k c).handle := by
    rw [hf]
    rfl
  have hloc : (f (x.setLink k c)).location ≠ .free := by
    rw [hf]
    exact Descriptor.location_await _ w
  have hfind := Table.find?_alter hk hhandle hloc q
  by_cases hq : q = p
  · subst hq
    exact ⟨k, by simp [hfind, hx, hf]⟩
  · obtain ⟨k', hk'⟩ := hl.find? q
    exact ⟨k', by simp [hfind, hq, hk']⟩

end

namespace Table
variable {t u v : Table} {m n ps qs : List Handle} {p : Handle} {w : Option SemKey}

/-- `u` is `t` with other links of the process queues in the slots of `m`, where the processes `ps`
wait as `w` says. -/
structure Shifted (m ps : List Handle) (w : Option SemKey) (t u : Table) : Prop where
  free : u.free = t.free
  entry : ∀ q, ∃ k, u.entry q =
    if q.slot ∈ ps.map (·.slot) then ((t.entry q).setLink k .queue).await w
    else (t.entry q).setLink k .queue
  link : ∀ q, q.slot ∉ m.map (·.slot) → (u.entry q).link .queue = (t.entry q).link .queue

theorem Relinked.shifted (hl : Relinked .queue m t u) (hp : p.InPool) (w : Option SemKey) :
    Shifted m [p] w t (u.alter p (·.await w)) where
  free := free_alter.trans hl.free
  entry q := by
    obtain ⟨k, hk⟩ := hl.entry q
    exact ⟨k, by simp [entry_alter hp, hk]⟩
  link q hq := by
    rw [← hl.link q hq, entry_alter hp]
    split <;> simp

namespace Shifted

theorem refl (m : List Handle) (w : Option SemKey) (t : Table) : Shifted m [] w t t where
  free := rfl
  entry q := ⟨(t.entry q).queueLink, by simp [Descriptor.setLink]⟩
  link _ _ := rfl

theorem mono (h : Shifted m ps w t u) (hm : m ⊆ n) : Shifted n ps w t u where
  free := h.free
  entry := h.entry
  link q hq := h.link q fun hs => hq (List.map_subset _ hm hs)

theorem trans (h : Shifted m ps w t u) (k : Shifted m qs w u v) : Shifted m (ps ++ qs) w t v where
  free := k.free.trans h.free
  entry q := by
    obtain ⟨a, ha⟩ := h.entry q
    obtain ⟨b, hb⟩ := k.entry q
    refine ⟨b, ?_⟩
    rw [hb, ha, List.map_append]
    by_cases hp : q.slot ∈ ps.map (·.slot) <;> by_cases hq : q.slot ∈ qs.map (·.slot) <;>
      simp [hp, hq, Descriptor.setLink, Descriptor.await]
  link q hq := (k.link q hq).trans (h.link q hq)

theorem unlinked (h : Shifted m ps w t u) (hp : t.Unlinked .queue p)
    (hm : p.slot ∉ m.map (·.slot)) : u.Unlinked .queue p := by
  obtain ⟨d, hd, hl⟩ := hp
  obtain ⟨hpool, rfl, hname, hloc⟩ := find?_eq_some_iff.mp hd
  obtain ⟨k, hk⟩ := h.entry p
  refine ⟨u.entry p, find?_eq_some_iff.mpr ⟨hpool, rfl, ?_, ?_⟩, (h.link p hm).trans hl⟩
  · rw [hk]
    split <;> simpa using hname
  · rw [hk]
    split
    · exact Descriptor.location_await _ _
    · simpa using hloc

end Shifted
end Table

namespace Store
variable {s s' : Store} {queue : SemKey → List Handle} {key : SemKey} {p q : Handle}
  {l m ps : List Handle}
variable {r : Ring} {u : Table} {e : Directory} {w : Option SemKey}

/-- The queues of the semaphores, where those who are said to be blocked say that they wait. -/
structure Lists (s : Store) (queue : SemKey → List Handle) : Prop extends s.Queues queue where
  tagged : ∀ p d, s.table.find? p = some d → (d.waitingOn.isSome ↔ d.location = .blocked)

/-- What can be read off a store in which `queue` is the map: its keys in increasing order, and for
every address whether it is a key, the list and its head. The processes in the list are those that
are blocked there. -/
structure Mirrors (s : Store) (queue : SemKey → List Handle) : Prop where
  keys : ∃ keys : List SemKey, s.directory.keys = .ok keys ∧ keys.Pairwise (·.address < ·.address) ∧
    (∀ key, key ∈ keys ↔ queue key ≠ []) ∧ s.directory.activeCount = keys.length
  isActive : ∀ key, s.directory.isActive key = .ok (decide (queue key ≠ []))
  waiters : ∀ key, s.waiters key = .ok (queue key)
  firstWaiter : ∀ key, s.firstWaiter key = .ok (queue key).head?
  slots : ∀ key, ((queue key).map (·.slot)).Nodup
  mem : ∀ key p, p ∈ queue key ↔
    ∃ d, s.table.find? p = some d ∧ d.location = .blocked ∧ d.waitingOn = some key

namespace Lists

theorem hosts (h : s.Lists queue) : s.table.Hosts .queue s.directory.ringAt queue where
  holds := h.holds
  disjoint _ _ hij _ hp hq := hij (h.eq_of_mem hp hq)

theorem mirrors (h : s.Lists queue) : s.Mirrors queue where
  keys := by
    obtain ⟨keys, hkeys, hsorted, hmem, hlen⟩ := h.indexes.keys
    refine ⟨keys, hkeys, hsorted, hmem, ?_⟩
    rw [Directory.activeCount]
    omega
  isActive := h.isActive_eq
  waiters := h.waiters_eq
  firstWaiter := h.firstWaiter_eq
  slots key := (h.holds key).slots
  mem key p := by
    rw [h.waiting]
    refine exists_congr fun d => and_congr_right fun hd =>
      ⟨fun hw => ⟨(h.tagged p d hd).mp ?_, hw⟩, And.right⟩
    rw [hw]
    rfl

/-- One list is given up for another, in which only `p` comes or goes, and
`p` is said to wait as fits. -/
theorem relist (h : s.Lists queue) (hp : s.table.isLive p) (hl : Table.Relinked .queue m s.table u)
    (hr : u.Hosts .queue (Function.update s.directory.ringAt key r) (Function.update queue key l))
    (hothers : ∀ q, q ≠ p → (q ∈ l ↔ q ∈ queue key))
    (hw : ∀ k, p ∈ Function.update queue key l k ↔ w = some k)
    (hring : e.ringAt = Function.update s.directory.ringAt key r)
    (hidx : e.Indexes fun k => Function.update queue key l k ≠ []) :
    Lists ⟨u.alter p (·.await w), e⟩ (Function.update queue key l) := by
  obtain ⟨x, hx⟩ := Option.isSome_iff_exists.mp hp
  have hpool := Table.inPool_of_find? hx
  obtain ⟨k, hk⟩ := hl.find? p
  rw [hx, Option.map_some] at hk
  have hfind := hl.find?_await (f := (·.await w)) hx fun _ => rfl
  have hmem : ∀ q k, q ≠ p → (q ∈ Function.update queue key l k ↔ q ∈ queue k) := fun q k hq => by
    obtain rfl | hk := eq_or_ne k key
    · rw [Function.update_self, hothers q hq]
    · rw [Function.update_of_ne hk]
  have hpooled : (u.alter p (·.await w)).Pooled :=
    (h.pool.relinked hl).alter hk rfl (Descriptor.location_await _ _)
  refine ⟨⟨hpooled, hidx, fun k' => ?holds,
    fun k' q => ?waiting⟩, fun q d hd => ?tagged⟩
  case holds =>
    show (e.ringAt k').Holds _ _ _
    rw [hring]
    refine (hr.holds k').congr fun q _ => ?_
    show ((u.alter p _).entry q).link _ = _
    rw [Table.entry_alter hpool]
    split <;> simp
  case waiting =>
    obtain ⟨k'', hq⟩ := hfind q
    by_cases e : q = p
    · subst e
      rw [hw, hq, hx]
      simp
    · rw [hmem q k' e, h.waiting, hq]
      simp [e]
  case tagged =>
    obtain ⟨k'', hq⟩ := hfind q
    rw [hq] at hd
    obtain ⟨y, hy, rfl⟩ := Option.map_eq_some_iff.mp hd
    split
    · rw [Descriptor.waitingOn_await, Descriptor.location_await_eq_blocked]
    · simpa using h.tagged q y hy

theorem enqueue (h : s.Lists queue) (hp : s.table.Unlinked .queue p) (key : SemKey) :
    ∃ s', s.enqueue key p = .ok (.ok s') ∧ s'.Lists (Function.update queue key (queue key ++ [p])) ∧
      Table.Shifted (p :: queue key) [p] (some key) s.table s'.table := by
  have hn := h.notMem_of_unlinked hp
  obtain ⟨x, hx, hlink⟩ := hp
  have hpool := Table.inPool_of_find? hx
  have hlive : s.table.isLive p := Option.isSome_iff_exists.mpr ⟨x, hx⟩
  rw [← Table.entry_of_find? hx] at hlink
  obtain ⟨u, hi, hl, hr⟩ := h.hosts.insert hpool hlink key
  obtain ⟨e, he, hring, hidx⟩ := h.enqueue_eq hlive hn hi
  refine ⟨_, he, h.relist (w := some key) hlive hl hr (fun q hq => by simp [hq])
    (fun k => ?_) hring ?_, hl.shifted hpool (some key)⟩
  · obtain rfl | hk := eq_or_ne k key
    · simp
    · simp [Function.update_of_ne hk, hn, hk.symm]
  · have ha : (fun k => k = key ∨ queue k ≠ []) =
        fun k => Function.update queue key (queue key ++ [p]) k ≠ [] := by
      funext k
      by_cases hk : k = key <;> simp [hk]
    exact ha ▸ hidx

/-- Whoever leaves a list is in no queue any more, and the ring that is
put back is the rest of it. -/
theorem leave (h : s.Lists queue) (hm : p ∈ queue key)
    (hl : Table.Relinked .queue (queue key) s.table u) (hf : (u.entry p).link .queue = {})
    (hr : u.Hosts .queue (Function.update s.directory.ringAt key r)
      (Function.update queue key ((queue key).erase p)))
    (hring : e.ringAt = Function.update s.directory.ringAt key r)
    (hidx : e.Indexes fun k => if k = key then r ≠ {} else queue k ≠ []) :
    Lists ⟨u.alter p (·.await none), e⟩ (Function.update queue key ((queue key).erase p)) ∧
      Table.Shifted (queue key) [p] none s.table (u.alter p (·.await none)) ∧
      (u.alter p (·.await none)).Unlinked .queue p := by
  have hpool := (h.holds key).inPool p hm
  have hlive := h.isLive hm
  have hnodup := (h.holds key).nodup
  refine ⟨h.relist hlive hl hr (fun q hq => List.mem_erase_of_ne hq) (fun k => ?_) hring ?_,
    hl.shifted hpool none, ?_⟩
  · obtain rfl | hk := eq_or_ne k key
    · simp [hnodup.not_mem_erase]
    · have hn : p ∉ queue k := fun hm' => hk (h.eq_of_mem hm' hm)
      simp [Function.update_of_ne hk, hn]
  · have hholds := hr.holds key
    rw [Function.update_self, Function.update_self] at hholds
    have ha : (fun k => if k = key then r ≠ {} else queue k ≠ []) =
        fun k => Function.update queue key ((queue key).erase p) k ≠ [] := by
      funext k
      by_cases hk : k = key
      · simp only [hk, if_true, Function.update_self, ne_eq, hholds.eq_empty_iff]
      · simp [hk]
    exact ha ▸ hidx
  · obtain ⟨x, hx⟩ := Option.isSome_iff_exists.mp hlive
    obtain ⟨k, hk⟩ := hl.find?_await (f := (·.await none)) hx (fun _ => rfl) p
    rw [hx, Option.map_some, if_pos rfl] at hk
    refine ⟨_, hk, ?_⟩
    rw [← Table.entry_of_find? hk, Table.entry_alter hpool, if_pos rfl, Descriptor.link_await, hf]

theorem dequeue (h : s.Lists queue) (hq : queue key = p :: l) :
    ∃ s', s.dequeue key = .ok (some p, s') ∧ s'.Lists (Function.update queue key l) ∧
      Table.Shifted (queue key) [p] none s.table s'.table ∧ s'.table.Unlinked .queue p := by
  have hm : p ∈ queue key := by simp [hq]
  have he : (queue key).erase p = l := by simp [hq]
  obtain ⟨r, u, hpop, hl, hf, hr⟩ := h.hosts.pop hq
  obtain ⟨e, hd, hring, hidx⟩ := h.dequeue_eq hm hpop
  exact ⟨_, hd, he ▸ h.leave hm hl hf (he.symm ▸ hr) hring hidx⟩

theorem withdraw (h : s.Lists queue) (hm : p ∈ queue key) :
    ∃ s', s.withdraw p = .ok (some p, s') ∧
      s'.Lists (Function.update queue key ((queue key).erase p)) ∧
      Table.Shifted (queue key) [p] none s.table s'.table ∧ s'.table.Unlinked .queue p := by
  obtain ⟨r, u, hrem, hl, hf, hr⟩ := h.hosts.remove hm
  obtain ⟨e, hw, hring, hidx⟩ := h.withdraw_eq hm hrem
  exact ⟨_, hw, h.leave hm hl hf hr hring hidx⟩

theorem withdraw_of_notMem (h : s.Lists queue) (hn : ∀ key, p ∉ queue key) :
    s.withdraw p = .ok (none, s) := by
  cases hw : (s.table.find? p).bind (·.waitingOn) with
  | none => simp [Store.withdraw, hw]
  | some key =>
    obtain ⟨d, hd, hk⟩ := Option.bind_eq_some_iff.mp hw
    exact (hn key ((h.waiting key p).mpr ⟨d, hd, hk⟩)).elim

theorem drain {n : Nat} (h : s.Lists queue) (hn : (queue key).length ≤ n) :
    ∃ s', s.drain key n = .ok (queue key, s') ∧ s'.Lists (Function.update queue key []) ∧
      Table.Shifted (queue key) (queue key) none s.table s'.table ∧
      ∀ p ∈ queue key, s'.table.Unlinked .queue p := by
  generalize hq : queue key = l at hn ⊢
  induction l generalizing n s queue with
  | nil =>
    have hd := h.dequeue_nil hq
    have hself : Function.update queue key [] = queue := Function.update_eq_self_iff.mpr hq.symm
    refine ⟨s, ?_, hself.symm ▸ h, .refl _ _ _, by simp⟩
    cases n <;> simp [Store.drain, hd]
  | cons p l ih =>
    obtain ⟨n, rfl⟩ : ∃ m, n = m + 1 := ⟨n - 1, by simp at hn; omega⟩
    obtain ⟨s₁, hd₁, h₁, hs₁, hp₁⟩ := h.dequeue hq
    obtain ⟨s₂, hd₂, h₂, hs₂, hp₂⟩ := ih h₁ (Function.update_self ..) (by simpa using hn)
    rw [Function.update_idem] at h₂
    have hslots := (h.holds key).slots
    rw [hq] at hs₁ hslots
    have hp : p.slot ∉ l.map (·.slot) := (List.nodup_cons.mp hslots).1
    refine ⟨s₂, by simp [Store.drain, hd₁, hd₂], h₂, hs₁.trans (hs₂.mono (by simp)), ?_⟩
    rintro q (_ | ⟨_, hm⟩)
    · exact hs₂.unlinked hp₁ hp
    · exact hp₂ q hm

end Lists
end Store
end Nucleus
