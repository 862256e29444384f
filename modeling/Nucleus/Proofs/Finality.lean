import Nucleus.Proofs.Verdict

/-!
# Verdicts are final

Once an entry has answered that the nucleus is stuck or that no process is left, no exception
changes that, whatever the devices do. Ticks and completions wake nobody, because nobody waits on
the nucleus's own semaphores; they change the values of these semaphores and nothing else.
-/
namespace Nucleus

/-- Whatever exceptions follow a turn, they are all answered, and each time `Q` holds. -/
def Turn.EverAfter (turn : Turn) (Q : Turn → Prop) : Prop :=
  ∀ calls : List (Machine × SavedState), ∃ later,
    turn.after.turns (calls.map fun call => (call.1, .exception call.2)) = .ok later ∧
    ∀ next ∈ later, Q next

structure Turn.Final (turn : Turn) : Prop where
  deadlock : ∀ n, turn.dispatch = .panic (.deadlock n) → turn.EverAfter fun next =>
    (next.dispatch = .panic (.deadlock n) ∨
        ∃ code, next.dispatch = .panic (.noCurrentProcess code)) ∧
      next.after.kernel.store = turn.after.kernel.store ∧
      next.after.kernel.ready = turn.after.kernel.ready ∧ next.after.kernel.current = none
  halt : turn.dispatch = .halt → turn.EverAfter fun next =>
    (next.dispatch = .halt ∨ ∃ code, next.dispatch = .panic (.noCurrentProcess code)) ∧
      next.after.kernel.table.live = [] ∧ next.after.kernel.current = none

namespace Kernel
variable {k k' k'' : Kernel} {v : View}

/-- Apart from the nucleus's own semaphores the two are the same. -/
def Agrees (k' k : Kernel) : Prop := k' = { k with channels := k'.channels, banked := k'.banked }

theorem Agrees.trans (h : k'.Agrees k) (h' : k''.Agrees k') : k''.Agrees k := by
  cases k
  cases k'
  cases k''
  simp_all [Agrees]

theorem Agrees.store (h : k'.Agrees k) : k'.store = k.store := by rw [h]

theorem Agrees.ready (h : k'.Agrees k) : k'.ready = k.ready := by rw [h]

theorem Agrees.current (h : k'.Agrees k) : k'.current = k.current := by rw [h]

theorem Agrees.verdict (h : k'.Agrees k) : k'.verdict = k.verdict := by
  rw [h]
  rfl

/-- Nobody runs, nobody is ready, and nobody waits for a device or the clock. -/
structure Stuck (k : Kernel) (v : View) : Prop where
  sound : k.Sound v
  idle : k.current = none
  ready : v.queue .ready = []
  hard : k.softBlockCount = 0

theorem Stuck.agrees (h : k.Stuck v) (hk : k'.Agrees k) : k'.Stuck v := by
  rw [hk]
  exact ⟨⟨h.sound.arranged, h.sound.processes, h.sound.softBlocks, h.sound.running⟩,
    h.idle, h.ready, h.hard⟩

theorem Stuck.waiters (h : k.Stuck v) (c : Channel) : v.queue (.semaphore c.key) = [] := by
  have hsum : v.softBlocked = 0 := h.sound.softBlocks.symm.trans h.hard
  rw [View.softBlocked, Finset.sum_eq_zero_iff] at hsum
  exact List.length_eq_zero_iff.mp (hsum c (Finset.mem_univ c))

theorem Sound.softBlockCount_le (h : k.Sound v) : k.softBlockCount ≤ k.processCount := by
  rw [h.softBlocked_eq, h.length_live]
  exact List.countP_le_length

theorem Settled.stuck (hs : k.Settled v) (h : k.Sound v) (hc : k.current = none)
    (hw : k.verdict ≠ .wait) : k.Stuck v := by
  refine ⟨h, hc, hs.busy hc, ?_⟩
  have hle := h.softBlockCount_le
  unfold verdict at hw
  split at hw
  · omega
  · split at hw
    · exact (hw rfl).elim
    · omega

end Kernel

namespace Computer
variable {s t : Computer} {v : View}

theorem schedule_of_stuck (h : s.kernel.Stuck v) :
    ∃ t, s.schedule = .ok (s.kernel.verdict, t) ∧ t.kernel.Agrees s.kernel := by
  obtain ⟨machine, journal, hs, _⟩ := schedule_nil h.sound.arranged h.ready
  refine ⟨_, hs, ?_⟩
  rw [Kernel.Agrees, ← h.idle]

theorem resumeOrSchedule_of_stuck (h : s.kernel.Stuck v) (saved : SavedState) :
    ∃ t, s.resumeOrSchedule saved = .ok (s.kernel.verdict, t) ∧ t.kernel.Agrees s.kernel := by
  unfold resumeOrSchedule
  rw [h.idle]
  exact schedule_of_stuck h

theorem resumeOrSchedule_of_agrees (h : s.kernel.Stuck v) (ht : t.kernel.Agrees s.kernel)
    (saved : SavedState) :
    ∃ u, t.resumeOrSchedule saved = .ok (s.kernel.verdict, u) ∧ u.kernel.Agrees s.kernel := by
  obtain ⟨u, hu, hk⟩ := resumeOrSchedule_of_stuck (h.agrees ht) saved
  rw [ht.verdict] at hu
  exact ⟨u, hu, ht.trans hk⟩

theorem clockTick_of_stuck (h : s.kernel.Stuck v) (saved : SavedState) :
    ∃ t, s.clockTick saved = .ok (s.kernel.verdict, t) ∧ t.kernel.Agrees s.kernel := by
  generalize hs₀ :
    ({ s with machine := s.machine.loadIntervalTimer s.kernel.timing.tick } : Computer) = s₀
  have hk : s₀.kernel = s.kernel := by rw [← hs₀]
  have hdrain : s₀.kernel.store.drain Channel.clock.key maxProcesses =
      .ok ([], s₀.kernel.store) := by
    rw [hk, maxProcesses, Store.drain, h.sound.arranged.dequeue_nil (h.waiters Channel.clock)]
    rfl
  have hbroadcast : s₀.kernel.store.broadcast s₀.cells Channel.clock.key =
      .ok ([], s₀.kernel.store, s₀.cells.assign Channel.clock.key 0) := by
    simp only [Store.broadcast, hdrain, ok_bind, pure_eq_ok]
    rfl
  have hlower : lower s₀.kernel.softBlockCount 0 = .ok s₀.kernel.softBlockCount :=
    if_pos (Nat.zero_le _)
  simp only [clockTick, hs₀]
  rw [← hk, hbroadcast, ok_bind, setCells_channel]
  simp only [List.foldlM_nil, List.length_nil, pure_eq_ok, ok_bind, setStore, hlower]
  rw [hk]
  refine resumeOrSchedule_of_agrees h ?_ saved
  rfl

theorem serveDevice_of_stuck (h : s.kernel.Stuck v) (line device : Word) :
    ∃ t, s.serveDevice line device = .ok t ∧ t.kernel.Agrees s.kernel := by
  obtain ⟨status, receive, word, hdone⟩ : ∃ status receive word,
      completion line (s.machine.device line device) = (status, receive, word) := ⟨_, _, _, rfl⟩
  generalize hs₁ : ({ s with
    machine := s.machine.writeDevice line device word DeviceRegister.acknowledge } :
      Computer).count (fun c => { c with deviceInterrupts := c.deviceInterrupts.increment }) = s₁
  have hk : s₁.kernel = s.kernel := by
    rw [← hs₁]
    rfl
  simp only [serveDevice, hdone, hs₁]
  rw [← hk] at h ⊢
  cases hc : Channel.ofDevice? line device receive with
  | error e => exact ⟨s₁, rfl, rfl⟩
  | ok c =>
    rcases signal_cases h.sound.arranged c.key with ⟨q, rest, _, _, _, hq, _⟩ | ⟨_, hsignal⟩
    · rw [h.waiters c] at hq
      cases hq
    · rw [setCells_channel] at hsignal
      simp only [hsignal, ok_bind]
      split
      · exact ⟨_, rfl, rfl⟩
      · exact ⟨_, rfl, rfl⟩

theorem serveDevices_of_stuck (h : s.kernel.Stuck v) (line : Word) (devices : List Word) :
    ∃ t, devices.foldlM (·.serveDevice line ·) s = .ok t ∧ t.kernel.Agrees s.kernel := by
  induction devices generalizing s with
  | nil => exact ⟨s, rfl, rfl⟩
  | cons device devices ih =>
    obtain ⟨t, ht, hk⟩ := serveDevice_of_stuck h line device
    obtain ⟨u, hu, hk'⟩ := ih (h.agrees hk)
    refine ⟨u, ?_, hk.trans hk'⟩
    rw [List.foldlM_cons, ht, ok_bind, hu]

theorem interrupt_of_stuck (h : s.kernel.Stuck v) (saved : SavedState) :
    ∃ t, s.interrupt saved = .ok (s.kernel.verdict, t) ∧ t.kernel.Agrees s.kernel := by
  unfold interrupt
  split
  · exact resumeOrSchedule_of_stuck h saved
  · next line _ =>
    split
    · unfold endSlice
      rw [h.idle]
      exact schedule_of_stuck h
    · split
      · exact clockTick_of_stuck h saved
      · obtain ⟨t, ht, hk⟩ := serveDevices_of_stuck h (UInt32.ofNat line)
          (pendingDevices s.machine (UInt32.ofNat line))
        simp only [deviceInterrupt, ht, ok_bind]
        exact resumeOrSchedule_of_agrees h hk saved

/-- An interrupt gets the same verdict again; everything else cannot have come from a process. -/
theorem exception_of_stuck (h : s.kernel.Stuck v) (saved : SavedState) :
    ∃ d t, s.exception saved = .ok (d, t) ∧ t.kernel.Agrees s.kernel ∧
      (d = s.kernel.verdict ∨ ∃ code, d = .panic (.noCurrentProcess code)) := by
  rcases exception_answers h.sound saved with ⟨_, _, he⟩ | ⟨hz, _⟩
  · exact ⟨_, s, he, rfl, .inr ⟨_, rfl⟩⟩
  · have hroute : Route.ofCode saved.trapCode = .interrupt :=
      Route.ofCode_eq_interrupt_iff.mpr (hz h.idle)
    obtain ⟨t, ht, hk⟩ := interrupt_of_stuck h saved
    refine ⟨_, t, ?_, hk, .inl rfl⟩
    unfold exception
    rw [hroute]
    exact ht

end Computer

namespace Turn
variable {turn : Turn} {v : View}

theorem everAfter_of_stuck (h : turn.after.kernel.Stuck v) : turn.EverAfter fun next =>
    next.after.kernel.Agrees turn.after.kernel ∧ (next.dispatch = turn.after.kernel.verdict ∨
      ∃ code, next.dispatch = .panic (.noCurrentProcess code)) := by
  refine fun calls => Computer.turns_of_exceptions
    (I := fun s => s.kernel.Agrees turn.after.kernel) rfl (fun s machine saved hs => ?_) calls
  obtain ⟨d, t, he, hk, hd⟩ := Computer.exception_of_stuck (s := s.onMachine machine)
    (h.agrees hs) saved
  have ht := hs.trans hk
  refine ⟨d, t, he, ht, ht, ?_⟩
  rw [← hs.verdict]
  exact hd

theorem EverAfter.mono {Q Q' : Turn → Prop} (h : turn.EverAfter Q) (hq : ∀ next, Q next → Q' next) :
    turn.EverAfter Q' := by
  intro calls
  obtain ⟨later, hrun, hall⟩ := h calls
  exact ⟨later, hrun, fun next hn => hq next (hall next hn)⟩

/-- An answer that fits a settled kernel and is neither a load nor a wait is the verdict on a kernel
that is stuck. -/
theorem stuck_of_fits (h : turn.after.kernel.Sound v) (hs : turn.after.kernel.Settled v)
    (hf : turn.dispatch.Fits turn.after.kernel) (hl : turn.dispatch.isLoad = false)
    (hw : turn.dispatch ≠ .wait) :
    turn.after.kernel.Stuck v ∧ turn.dispatch = turn.after.kernel.verdict := by
  unfold Dispatch.Fits at hf
  split at hf
  · rw [hl] at hf
    cases hf
  · next hc =>
    rw [hf] at hw
    exact ⟨hs.stuck h (Option.not_isSome_iff_eq_none.mp hc) hw, hf⟩

theorem final_of_fits (h : turn.after.kernel.Sound v) (hs : turn.after.kernel.Settled v)
    (hf : turn.dispatch.Fits turn.after.kernel) : turn.Final := by
  constructor
  · intro n hd
    obtain ⟨hstuck, hv⟩ := stuck_of_fits h hs hf (by rw [hd]; rfl) (by rw [hd]; simp)
    refine (everAfter_of_stuck hstuck).mono fun next ⟨hk, hn⟩ => ?_
    rw [← hv, hd] at hn
    exact ⟨hn, hk.store, hk.ready, hk.current.trans hstuck.idle⟩
  · intro hd
    obtain ⟨hstuck, hv⟩ := stuck_of_fits h hs hf (by rw [hd]; rfl) (by rw [hd]; simp)
    have hlive := (Kernel.verdict_eq_halt_iff h).mp (hv.symm.trans hd)
    refine (everAfter_of_stuck hstuck).mono fun next ⟨hk, hn⟩ => ?_
    rw [← hv, hd] at hn
    refine ⟨hn, ?_, hk.current.trans hstuck.idle⟩
    rw [Kernel.table, hk.store]
    exact hlive

theorem final_of_unasked {code : Word} (hd : turn.dispatch = .panic (.noCurrentProcess code)) :
    turn.Final where
  deadlock n hn := by
    rw [hd] at hn
    cases hn
  halt hn := by
    rw [hd] at hn
    cases hn

end Turn

namespace Computer
variable {s : Computer} {v : View}

theorem exception_final (h : s.kernel.Sound v) (hs : s.kernel.Settled v) (saved : SavedState) :
    ∃ d t, s.exception saved = .ok (d, t) ∧ (∃ w, t.kernel.Sound w ∧ t.kernel.Settled w) ∧
      Turn.Final ⟨s, .exception saved, d, t⟩ := by
  rcases exception_answers h saved with ⟨_, _, he⟩ | ⟨_, d, t, w, he, hw, _, hf, hsettled⟩
  · exact ⟨_, s, he, ⟨v, h, hs⟩, Turn.final_of_unasked rfl⟩
  · have hws := hsettled hs.attended
    exact ⟨d, t, he, ⟨w, hw, hws⟩, Turn.final_of_fits hw hws hf⟩

/-- In a run of one start and any exceptions, who has said that nobody
can go on says so for ever. -/
theorem turns_final (timing : Timing) (machine : Machine) (first : SavedState)
    (calls : List (Machine × SavedState)) :
    ∃ turns, (initial timing machine).turns
        ((machine, .start first) :: calls.map fun call => (call.1, .exception call.2)) = .ok turns ∧
      ∀ turn ∈ turns, turn.Final := by
  have h := Kernel.sound_initial timing
  obtain ⟨d, t, w, hst, hw, _, hf, hsettled⟩ := start_answers (s := initial timing machine) h first
  have hws := hsettled fun p ⟨_, hx, _⟩ => by cases hx
  obtain ⟨rest, hrest, hall⟩ := turns_of_exceptions
    (I := fun s => ∃ v, s.kernel.Sound v ∧ s.kernel.Settled v)
    (Q := Turn.Final) ⟨w, hw, hws⟩ (fun s machine saved ⟨v, hv, hs⟩ =>
      exception_final (s := s.onMachine machine) hv hs saved) calls
  exact ⟨_, turns_cons hst hrest, List.forall_mem_cons.mpr ⟨Turn.final_of_fits hw hws hf, hall⟩⟩

end Computer

end Nucleus
