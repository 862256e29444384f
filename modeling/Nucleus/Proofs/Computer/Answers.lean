import Nucleus.Proofs.Computer.Termination

/-!
# Answers

What every entry must leave behind: a sound kernel, the balance of created and killed processes, and
a dispatch that fits the kernel. A kernel is attended when nobody but the running process stands
nowhere, and settled when in addition nobody is ready while nobody runs. `Stays` is the same for an
operation in the middle of an entry, which neither starts nor stops the running process.
-/
namespace Nucleus

variable {v w : View}

def Kernel.Attended (k : Kernel) (v : View) : Prop := ∀ p, v.Loose p → k.current = some p

structure Kernel.Settled (k : Kernel) (v : View) : Prop where
  attended : k.Attended v
  busy : k.current = none → v.queue .ready = []

def Dispatch.isLoad : Dispatch → Bool
  | load _ | loadContext _ => true
  | wait | halt | panic _ => false

/-- Somebody runs and is loaded, or nobody does and the counts decide. -/
def Dispatch.Fits (d : Dispatch) (k : Kernel) : Prop :=
  if k.current.isSome then d.isLoad = true else d = k.verdict

theorem Dispatch.fits_of_none {d : Dispatch} {k : Kernel} (hc : k.current = none)
    (hd : d = k.verdict) : d.Fits k := by
  simp [Fits, hc, hd]

theorem Dispatch.fits_of_some {d : Dispatch} {k : Kernel} {p : Handle} (hc : k.current = some p)
    (hd : d.isLoad = true) : d.Fits k := by
  simp [Fits, hc, hd]

theorem Kernel.Attended.none_loose {k : Kernel} (h : k.Attended v) (hc : k.current = none)
    (p : Handle) : ¬v.Loose p := fun hp => by
  have hp := h p hp
  rw [hc] at hp
  cases hp

namespace Computer
variable {s t u : Computer} {p : Handle} {x : Process} {b : Word} {quiet quiet' : Prop}
variable {r : Except Fault (Dispatch × Computer)}

def Answers (b : Word) (quiet : Prop) (r : Except Fault (Dispatch × Computer)) : Prop :=
  ∃ d s v, r = .ok (d, s) ∧ s.kernel.Sound v ∧ s.balance = b ∧ d.Fits s.kernel ∧
    (quiet → s.kernel.Settled v)

theorem Answers.mono (h : Answers b quiet r) (hq : quiet' → quiet) : Answers b quiet' r := by
  obtain ⟨d, s, v, hr, hs, hb, hf, hset⟩ := h
  exact ⟨d, s, v, hr, hs, hb, hf, fun q => hset (hq q)⟩

structure Stays (s : Computer) (v : View) (t : Computer) (w : View) : Prop where
  sound : t.kernel.Sound w
  balance : t.balance = s.balance
  current : t.kernel.current = s.kernel.current
  loose : ∀ q, w.Loose q → v.Loose q

namespace Stays

theorem refl (h : s.kernel.Sound v) : Stays s v s v := ⟨h, rfl, rfl, fun _ => id⟩

theorem trans {z : View} (h : Stays s v t w) (k : Stays t w u z) : Stays s v u z :=
  ⟨k.sound, k.balance.trans h.balance, k.current.trans h.current,
    fun q hq => h.loose q (k.loose q hq)⟩

theorem note (h : Stays s v t w) (e : Event) : Stays s v (t.note e) w :=
  ⟨h.sound, h.balance, h.current, h.loose⟩

theorem attended (h : Stays s v t w) (ha : s.kernel.Attended v) : t.kernel.Attended w := fun p hp =>
  h.current.trans (ha p (h.loose p hp))

theorem frame (h : s.kernel.Sound v)
    (hk : t.kernel = { s.kernel with channels := t.kernel.channels, banked := t.kernel.banked })
    (hc : t.journal.counters.created = s.journal.counters.created)
    (hd : t.journal.counters.killed = s.journal.counters.killed) : Stays s v t v where
  sound := by
    rw [hk]
    exact ⟨h.arranged, h.processes, h.softBlocks, h.running⟩
  balance := by
    rw [Computer.balance, Computer.balance, hc, hd, hk]
  current := by rw [hk]
  loose _ := id

theorem alter {store : Store} {f : Process → Process} (h : s.kernel.Sound v)
    (ha : store.Arranged s.kernel.ready (v.alter p f))
    (hf : store.table.free = s.kernel.store.table.free) (hs : ∀ y, (f y).station = y.station) :
    Stays s v { s with kernel := { s.kernel with store } } (v.alter p f) where
  sound := h.rearrange ha hf rfl h.softBlocks fun q hq => (View.loose_alter hs).mpr (h.running q hq)
  balance := rfl
  current := rfl
  loose _ := (View.loose_alter hs).mp

theorem wake {station : Station} (h : s.kernel.Sound v) (hm : p ∈ v.queue station)
    (ha : t.kernel.store.Arranged t.kernel.ready ((v.leave p).join p .ready))
    (hf : t.kernel.store.table.free = s.kernel.store.table.free)
    (hp : t.kernel.processCount = s.kernel.processCount)
    (hs : t.kernel.softBlockCount + (if station.isSoft then 1 else 0) = s.kernel.softBlockCount)
    (hc : t.kernel.current = s.kernel.current) (hb : t.balance = s.balance) :
    Stays s v t ((v.leave p).join p .ready) := by
  have hw := h.arranged.wf
  have hsoft := View.softBlocked_leave hw hm (h.arranged.shows.nodup_queue station)
  rw [← h.softBlocks, ← hs] at hsoft
  refine ⟨h.rearrange ha hf hp ?_ fun q hq => ?_, hb, hc, fun q => (View.loose_wake hw hm).mp⟩
  · rw [View.softBlocked_join, if_neg (by decide), Nat.add_zero]
    exact (Nat.add_right_cancel hsoft).symm
  · rw [hc] at hq
    exact (View.loose_wake hw hm).mpr (h.running q hq)

end Stays

theorem sound_setState (h : s.kernel.Sound v) (hp : v.process p = some x) (state : SavedState) :
    (s.kernel.setTable (s.kernel.table.alter p fun d => { d with state })).Sound
      (v.alter p fun y => { y with state }) := by
  obtain ⟨d, hd, _⟩ := h.arranged.shows.registers.find? hp
  obtain ⟨store, hm, ha, hf⟩ := setState_eq h.arranged hp fun _ => state
  have hst := Stays.alter h ha hf fun _ => rfl
  rw [modifyProcess_alter (Table.inPool_of_find? hd), Except.ok.injEq] at hm
  rw [← hm] at hst
  exact hst.sound

theorem schedule_answers (h : s.kernel.Sound v) :
    Answers s.balance (∀ p, ¬v.Loose p) s.schedule := by
  cases hq : v.queue .ready with
  | nil =>
    obtain ⟨machine, journal, hs, _, _, hc, hk, _⟩ := schedule_nil h.arranged hq
    have hsound : Kernel.Sound { s.kernel with current := none } v :=
      ⟨h.arranged, h.processes, h.softBlocks, fun p hp => by cases hp⟩
    refine ⟨_, _, v, hs, hsound, ?_, Dispatch.fits_of_none rfl rfl, ?_⟩
    · rw [balance, balance, hc, hk]
    · exact fun hl => ⟨fun p hp => (hl p hp).elim, fun _ => hq⟩
  | cons p rest =>
    obtain ⟨x, store, ready, hx, hs, ha, hf⟩ := schedule_cons h.arranged hq
    have hm : p ∈ v.queue .ready := by simp [hq]
    have hloose : ∀ q, (v.leave p).Loose q ↔ v.Loose q ∨ q = p := fun q => View.loose_leave ⟨x, hx⟩
    have hsoft := View.softBlocked_leave h.arranged.wf hm (h.arranged.shows.nodup_queue .ready)
    rw [if_neg (by decide), Nat.add_zero, ← h.softBlocks] at hsoft
    have hsound : Kernel.Sound { s.kernel with
        store, ready, current := some p, stopwatch := .startedAt s.machine } (v.leave p) :=
      h.rearrange ha hf rfl hsoft.symm fun q hq => by
        cases hq
        exact (hloose p).mpr (.inr rfl)
    refine ⟨_, _, v.leave p, hs, hsound, rfl, Dispatch.fits_of_some rfl rfl,
      fun hl => ⟨fun q hq => ?_, fun hn => ?_⟩⟩
    · rcases (hloose q).mp hq with hq | rfl
      · exact (hl q hq).elim
      · rfl
    · cases hn

theorem Stays.schedule_answers (h : Stays s v t w) :
    Answers s.balance (∀ p, ¬v.Loose p) t.schedule := by
  rw [← h.balance]
  exact (Computer.schedule_answers h.sound).mono fun hl p hp => hl p (h.loose p hp)

theorem load_answers (h : Stays s v t w) (hc : t.kernel.current = some p) {d : Dispatch}
    (hd : d.isLoad = true) : Answers s.balance (s.kernel.Attended v) (.ok (d, t)) := by
  refine ⟨d, t, w, rfl, h.sound, h.balance, Dispatch.fits_of_some hc hd,
    fun ha => ⟨h.attended ha, ?_⟩⟩
  rw [hc]
  exact fun hn => by cases hn

theorem resumeOrSchedule_answers (h : Stays s v t w) (state : SavedState) :
    Answers s.balance (s.kernel.Attended v) (t.resumeOrSchedule state) := by
  unfold resumeOrSchedule
  split
  · next hc => exact load_answers h hc rfl
  · next hc => exact h.schedule_answers.mono fun ha => ha.none_loose (h.current.symm.trans hc)

theorem reply_answers (h : Stays s v t w) (hc : t.kernel.current = some p) (value : Word) :
    Answers s.balance (s.kernel.Attended v) (t.reply p value) := by
  obtain ⟨x, hx, _⟩ := h.sound.running p hc
  obtain ⟨store, hr, ha, hf⟩ := reply_eq h.sound.arranged hx value
  rw [hr]
  exact load_answers (h.trans (.alter h.sound ha hf fun _ => rfl)) hc rfl

theorem refuse_answers (h : Stays s v t w) (hc : t.kernel.current = some p) (e : ServiceError) :
    Answers s.balance (s.kernel.Attended v) (t.refuse p e) :=
  reply_answers h hc e.code.toUInt32

theorem resume_answers (h : Stays s v t w) (hc : t.kernel.current = some p) :
    Answers s.balance (s.kernel.Attended v) (t.resume p) := by
  obtain ⟨x, hx, _⟩ := h.sound.running p hc
  obtain ⟨d, hd, _⟩ := process_eq h.sound.arranged hx
  simp only [resume, hd, ok_bind, pure_eq_ok]
  exact load_answers h hc rfl

/-- The running process stands in a queue by now; all others stood in one before. -/
theorem blockCurrent_answers (h : Kernel.Sound { s.kernel with current := none } v)
    (hc : s.kernel.current = some p) (hp : v.process p = some x) :
    Answers s.balance (∀ q, ¬v.Loose q) s.blockCurrent := by
  obtain ⟨store, hm, ha, hf⟩ := charge_eq h.arranged hc hp
  have hst := Stays.alter
    (s := { s with kernel := { s.kernel with stopwatch := .startedAt s.machine, current := none } })
    (v := v) ⟨h.arranged, h.processes, h.softBlocks, h.running⟩ ha hf fun _ => rfl
  simp only [blockCurrent, hm, ok_bind]
  exact (schedule_answers hst.sound).mono fun hl q hq => hl q (hst.loose q hq)

theorem block_answers (h : Stays s v t w) (hc : t.kernel.current = some p) {key : SemKey}
    (ha : u.kernel.store.Arranged u.kernel.ready (w.join p (.semaphore key)))
    (hf : u.kernel.store.table.free = t.kernel.store.table.free)
    (hp : u.kernel.processCount = t.kernel.processCount)
    (hs : u.kernel.softBlockCount =
      t.kernel.softBlockCount + if (Station.semaphore key).isSoft then 1 else 0)
    (hcu : u.kernel.current = t.kernel.current) (hb : u.balance = t.balance) :
    Answers s.balance (s.kernel.Attended v) u.blockCurrent := by
  obtain ⟨x, hx, _⟩ := h.sound.running p hc
  have hsound : Kernel.Sound { u.kernel with current := none } (w.join p (.semaphore key)) := by
    refine h.sound.rearrange ha hf hp ?_ fun q hq => by cases hq
    rw [View.softBlocked_join, ← h.sound.softBlocks]
    exact hs
  rw [← h.balance, ← hb]
  refine (blockCurrent_answers hsound (hcu.trans hc) (View.process_alter_self hx)).mono
    fun hat q hq => ?_
  obtain ⟨hq, hqp⟩ := View.loose_join.mp hq
  exact hqp (Option.some.inj ((h.attended hat q hq).symm.trans hc))

end Computer
end Nucleus
