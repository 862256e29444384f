import Nucleus.Proofs.History
import Nucleus.Proofs.Semaphore.Depot

/-!
# Nobody is refused a wait

A directory entry is taken when the first process begins to wait on a semaphore and given back when
the last one leaves, on every way a process can leave. So the entries in use are counted by the
semaphores somebody waits on, and those are fewer than the processes while some process waits for
nothing. This is so for a store in the hands of any user who respects the rules of queues, and for
the nucleus, which does.
-/
namespace Nucleus

def Request.isWait : Request → Bool
  | passeren _ | waitDevice .. | waitClock => true
  | createProcess .. | terminateProcess _ | verhogen _ | cpuTime | supportArea => false

theorem Request.exists_taken? {r : Request} (hr : r.isWellFormed) (hw : r.isWait) :
    ∃ key, r.taken? = some key := by
  cases r with
  | passeren key => exact ⟨key, rfl⟩
  | waitDevice line device receive =>
    cases hc : Channel.ofDevice? line device receive with
    | error e =>
      rw [isWellFormed, hc] at hr
      cases hr
    | ok c => exact ⟨c.key, by simp [taken?, channel?, hc, Except.toOption]⟩
  | waitClock => exact ⟨Channel.clock.key, rfl⟩
  | _ => cases hw

namespace Computer
variable {s : Computer} {v : View} {p : Handle} {r : Request} {saved : SavedState}

def accepted (s : Computer) (saved : SavedState) (p : Handle) (r : Request) :
    Except Fault Computer :=
  ((s.count fun c => { c with requests := c.requests.increment }).note
    (.requested p r)).modifyProcess p
    fun d => { d with state := saved.pastInstruction }

theorem accepted_eq (hp : p.InPool) (r : Request) :
    s.accepted saved p r = .ok (s.saving saved p r) :=
  modifyProcess_alter hp _

theorem unlinked_of_loose (h : s.kernel.Sound v) (hp : v.Loose p) :
    s.kernel.store.table.Unlinked .queue p := by
  obtain ⟨x, hx, hs⟩ := hp
  obtain ⟨d, hd, _⟩ := h.arranged.shows.registers.find? hx
  have hlink := h.arranged.shows.queues.alone p (Table.inPool_of_find? hd)
    (h.arranged.shows.not_mem_queue hx hs)
  rw [Table.entry_of_find? hd] at hlink
  exact ⟨d, hd, hlink⟩

end Computer

/-- Before and after the turn there is room in the directory, and P is granted to a process that
asks to wait. -/
structure Turn.Vacant (turn : Turn) : Prop where
  before : turn.before.kernel.store.Roomy
  after : turn.after.kernel.store.Roomy
  waits : ∀ saved p r, turn.entry = .exception saved →
    saved.served? turn.before.kernel.current = some (p, r) → r.isWait →
    ∃ key s blocked store cells, r.taken? = some key ∧ turn.before.accepted saved p r = .ok s ∧
      s.serve p r = .ok (turn.dispatch, turn.after) ∧
      s.kernel.store.wait s.cells key p = .ok (.ok blocked, store, cells)

theorem Computer.enter_vacant {s : Computer} {v : View} (h : s.kernel.Sound v) (e : Entry) :
    ∃ d t w, s.enter e = .ok (d, t) ∧ t.kernel.Sound w ∧ (Turn.mk s e d t).Vacant := by
  obtain ⟨d, t, w, he, hw, _⟩ := enter_sound h e
  refine ⟨d, t, w, he, hw, h.arranged.queues.roomy, hw.arranged.queues.roomy, ?_⟩
  rintro saved p r rfl hserved hwait
  obtain ⟨hm, hc⟩ := SavedState.served?_eq_some.mp hserved
  obtain ⟨key, hkey⟩ := Request.exists_taken? (SavedState.isWellFormed_of_served? hserved) hwait
  obtain ⟨x, hx, _⟩ := h.running p hc
  obtain ⟨_, hd, _⟩ := h.registers.find? hx
  have hp := Table.inPool_of_find? hd
  have hsound : (s.saving saved p r).kernel.Sound _ := sound_setState h hx saved.pastInstruction
  obtain ⟨blocked, store, cells, hgranted⟩ :=
    hsound.arranged.queues.roomy.wait (s.saving saved p r).cells key
      fun _ => unlinked_of_loose hsound (hsound.running p hc)
  exact ⟨key, s.saving saved p r, blocked, store, cells, hkey, accepted_eq hp r,
    (exception_request hserved hp).symm.trans he, hgranted⟩

/-- A store has room and refuses nothing but a descriptor when none is
left, whatever was done with it. -/
theorem Depot.Reached.admits {σ : Type} [SemaphoreCells σ] {depot : Depot σ} (h : depot.Reached) :
    depot.store.Roomy ∧ ∀ op, depot.Allows op →
      ∃ refusal next, depot.perform op = .ok (refusal, next) ∧
      (refusal = none ∨ op = .alloc ∧ depot.store.table.free = []) := by
  obtain ⟨list, hk⟩ := h.kept
  refine ⟨hk.queues.roomy, fun op hop => ?_⟩
  obtain ⟨refusal, next, _, hperform, _, hrefusal⟩ := hk.perform hop
  exact ⟨refusal, next, hperform, hrefusal⟩

/-- In every run there is room before and after every turn, and nobody
who asks to wait is refused. -/
theorem Computer.turns_admit (timing : Timing) (machine : Machine)
    (calls : List (Machine × Entry)) :
    ∃ turns, (initial timing machine).turns calls = .ok turns ∧ ∀ turn ∈ turns, turn.Vacant := by
  refine turns_of_enter (I := fun s => ∃ v, s.kernel.Sound v) (E := fun _ => True)
    ⟨.empty, Kernel.sound_initial timing⟩ (fun _ _ => trivial) fun s machine e ⟨v, hv⟩ _ => ?_
  obtain ⟨d, t, w, he, hw, hvacant⟩ := enter_vacant (sound_onMachine hv machine) e
  exact ⟨d, t, he, ⟨w, hw⟩, hvacant⟩

/-- No directory entry is ever missing. Whatever is done with a store, as long as only processes in
no queue are put into one or returned, every operation succeeds, except taking a descriptor when
none is left; a process that is in no queue can join that of any semaphore; and the entries in use
are those of the semaphores somebody waits on. The same holds before and after every turn of every
run, where nobody who asks to wait is refused. -/
theorem Computer.turns_vacant {σ : Type} [SemaphoreCells σ] (timing : Timing) (machine : Machine)
    (calls : List (Machine × Entry)) :
    (∀ depot : Depot σ, depot.Reached → depot.store.Roomy ∧ ∀ op, depot.Allows op →
      ∃ refusal next, depot.perform op = .ok (refusal, next) ∧
        (refusal = none ∨ op = .alloc ∧ depot.store.table.free = [])) ∧
    ∃ turns, (initial timing machine).turns calls = .ok turns ∧ ∀ turn ∈ turns, turn.Vacant :=
  ⟨fun _ hdepot => hdepot.admits, turns_admit timing machine calls⟩

end Nucleus
