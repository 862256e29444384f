import Nucleus.Computer.Entry
import Nucleus.Proofs.Computer.Termination
import Nucleus.Proofs.Machine.Frame
import Nucleus.Proofs.Process.Ancestry

/-!
# Scenes

A scene is what a computer shows once links, counts and the journal are forgotten, the count of
dispatches apart: the processes as lists, who runs, the nucleus's own semaphores, the stopwatch and
the machine. `Effect` says on scenes what one exception does, with nothing left open but the handle
of a new process and the family that ends.
-/
namespace Nucleus

inductive Matter
  /-- an interrupt that no line reports -/
  | spurious
  | sliceEnd
  | tick
  | devices (line : Word)
  | request (r : Request)
  /-- an exception for the support level, with the state it is given -/
  | passUp (c : ExceptionClass) (state : SavedState)
deriving DecidableEq

def SavedState.matter (saved : SavedState) : Matter :=
  match Route.ofCode saved.trapCode with
  | .interrupt =>
    match Computer.servedLine? saved with
    | none => .spurious
    | some line =>
      if line = Bus.timerLine then .sliceEnd
      else if line = Bus.intervalLine then .tick
      else .devices (UInt32.ofNat line)
  | .request =>
    match Request.ofState? saved with
    | none => .passUp .general saved
    | some r =>
      if saved.wasUserMode then .passUp .general (saved.setTrapCode Trap.reservedInstruction.code)
      else if r.isWellFormed then .request r
      else .passUp .general saved
  | .passUp c => .passUp c saved

namespace Request

/-- The semaphore of the nucleus that the caller waits on. -/
def channel? : Request → Option Channel
  | waitDevice line device receive => (Channel.ofDevice? line device receive).toOption
  | waitClock => some .clock
  | createProcess .. | terminateProcess .. | passeren .. | verhogen .. | cpuTime
  | supportArea => none

/-- The semaphore from which the caller takes a unit. -/
def taken? : Request → Option SemKey
  | passeren key => some key
  | r => r.channel?.map Channel.key

theorem taken?_of_channel? {r : Request} {c : Channel} (h : r.channel? = some c) :
    r.taken? = some c.key := by
  cases r with
  | waitDevice | waitClock => exact congrArg (Option.map Channel.key) h
  | _ => cases h

/-- The semaphore to which the caller gives a unit. -/
def given? : Request → Option SemKey
  | verhogen key => some key
  | _ => none

end Request

/-- What a pending device reports: its channel and its status. -/
def Machine.completion? (m : Machine) (line device : Word) : Option (Channel × Word) :=
  let (status, receive, _) := Computer.completion line (m.device line device)
  (Channel.ofDevice? line device receive).toOption.map (·, status)

def Machine.completions (m : Machine) (line : Word) : List (Channel × Word) :=
  (Computer.pendingDevices m line).filterMap (m.completion? line)

namespace SavedState

theorem matter_eq_request {saved : SavedState} {r : Request} (h : saved.matter = .request r) :
    Route.ofCode saved.trapCode = .request ∧ Request.ofState? saved = some r ∧
      saved.wasUserMode = false ∧ r.isWellFormed = true := by
  unfold matter at h
  split at h
  · split at h
    · cases h
    · split at h
      · cases h
      · split at h <;> cases h
  · next hroute =>
    split at h
    · cases h
    · next hr =>
      split at h
      · cases h
      · next huser =>
        split at h
        · next hw =>
          cases h
          exact ⟨hroute, hr, by simpa using huser, hw⟩
        · cases h
  · cases h

/-- The request that is served, and the process that makes it. -/
def served? (saved : SavedState) (current : Option Handle) : Option (Handle × Request) :=
  match saved.matter, current with
  | .request r, some p => some (p, r)
  | _, _ => none

theorem served?_eq_some {saved : SavedState} {current : Option Handle} {p : Handle} {r : Request} :
    saved.served? current = some (p, r) ↔ saved.matter = .request r ∧ current = some p := by
  unfold served?
  cases saved.matter <;> cases current <;> simp [and_comm]

/-- The completions that are served, when the machine is found as `m`. -/
def completions (saved : SavedState) (m : Machine) : List (Channel × Word) :=
  match saved.matter with
  | .devices line => m.completions line
  | _ => []

end SavedState

namespace Computer
variable {s : Computer} {p : Handle} {saved : SavedState} {r : Request}

/-- The computer on which a request of the running process `p` is served: it is counted, and `p`
will go on behind it. -/
def saving (s : Computer) (saved : SavedState) (p : Handle) (r : Request) : Computer :=
  { s with
    kernel := s.kernel.setTable (s.kernel.table.alter p fun d =>
      { d with state := saved.pastInstruction })
    journal := (s.journal.count fun c => { c with requests := c.requests.increment }).note
      (.requested p r) }

theorem exception_request (h : saved.served? s.kernel.current = some (p, r)) (hp : p.InPool) :
    s.exception saved = (s.saving saved p r).serve p r := by
  obtain ⟨hm, hc⟩ := SavedState.served?_eq_some.mp h
  obtain ⟨hroute, hr, huser, hw⟩ := SavedState.matter_eq_request hm
  have hmodify := modifyProcess_alter
    (s := (s.count fun n => { n with requests := n.requests.increment }).note (.requested p r)) hp
    fun d => { d with state := saved.pastInstruction }
  simp only [exception, hroute, request, hc, hr, huser, hw, Bool.not_true, Bool.false_eq_true,
    if_false, hmodify, ok_bind]
  rfl

end Computer

namespace View
variable {α : Type} {g : Process → α} {v : View} {p : Handle}

theorem map_alter {f : Process → Process} (hf : ∀ x, g (f x) = g x) (q : Handle) :
    ((v.alter p f).process q).map g = (v.process q).map g := by
  by_cases hq : q = p
  · simp [View.alter, hq, Function.comp_def, hf]
  · simp [View.alter, hq]

theorem map_leaveAll (hg : ∀ x, g { x with station := none } = g x) (v : View) (l : List Handle)
    (q : Handle) : ((v.leaveAll l).process q).map g = (v.process q).map g := by
  induction l generalizing v with
  | nil => rfl
  | cons p l ih => exact (ih (v.leave p)).trans (map_alter hg q)

theorem map_joinAll {s : Station} (hg : ∀ x, g { x with station := some s } = g x) (v : View)
    (l : List Handle) (q : Handle) : ((v.joinAll l s).process q).map g = (v.process q).map g := by
  induction l generalizing v with
  | nil => rfl
  | cons p l ih => exact (ih (v.join p s)).trans (map_alter hg q)

end View

structure Scene where
  view : View
  current : Option Handle
  channels : Vector Int32 channelCount
  banked : Vector Word channelCount
  stopwatch : Stopwatch
  timing : Timing
  machine : Machine
  /-- How many processes the scheduler has given the processor so far. -/
  dispatches : Word

def Computer.scene (s : Computer) (v : View) : Scene where
  view := v
  current := s.kernel.current
  channels := s.kernel.channels
  banked := s.kernel.banked
  stopwatch := s.kernel.stopwatch
  timing := s.kernel.timing
  machine := s.machine
  dispatches := s.journal.counters.dispatches.value

namespace Scene
variable (σ : Scene)

def waiters (key : SemKey) : List Handle := σ.view.queue (.semaphore key)

def alter (p : Handle) (f : Process → Process) : Scene := { σ with view := σ.view.alter p f }

def setState (p : Handle) (f : SavedState → SavedState) : Scene :=
  σ.alter p fun x => { x with state := f x.state }

/-- Charges `p` with the time since the stopwatch was started, and starts it again. -/
def charge (p : Handle) : Scene :=
  { σ.alter p fun x => { x with cpuTime := x.cpuTime + σ.stopwatch.elapsed σ.machine } with
    stopwatch := .startedAt σ.machine }

def join (p : Handle) (station : Station) : Scene := { σ with view := σ.view.join p station }

def onMachine (machine : Machine) : Scene := { σ with machine }

def stop : Scene := { σ with current := none }

/-- Gives the processor to `p`, which is ready. -/
def dispatch (p : Handle) : Scene :=
  { σ with
    view := σ.view.leave p
    current := some p
    stopwatch := .startedAt σ.machine
    machine := σ.machine.loadLocalTimer σ.timing.quantum
    dispatches := σ.dispatches + 1 }

/-- Takes the processor from `p`, which left the state `saved`. -/
def preempt (p : Handle) (saved : SavedState) : Scene :=
  (((σ.charge p).setState p fun _ => saved).join p .ready).stop

/-- Adds a process below `parent` that starts from the state in memory at `address`. -/
def enrol (parent child : Handle) (address : Word) (support : Option SupportArea) : Scene :=
  { σ with view := ((σ.view.create child { state := σ.machine.readState address, support }).adopt
      parent child).join child .ready }

/-- The processes `l` are gone, and the units they were owed are given back. -/
def finish (l : List Handle) : Scene :=
  { σ with
    view := σ.view.without l
    current := σ.current.filter (· ∉ l)
    machine := σ.view.repay l σ.machine }

def cells : NucleusCells := ⟨σ.channels, σ.machine⟩

def value (key : SemKey) : Int32 := σ.cells.value key

def assign (key : SemKey) (n : Int32) : Scene :=
  { σ with channels := (σ.cells.assign key n).channels, machine := (σ.cells.assign key n).machine }

theorem value_channel (c : Channel) : σ.value c.key = σ.channels.get c := by
  simp only [value, cells, NucleusCells.value, Channel.slot?_key]
  rfl

theorem assign_channel (c : Channel) (n : Int32) :
    σ.assign c.key n = { σ with channels := σ.channels.set c n c.isLt } := by
  simp [assign, cells, NucleusCells.assign]

def take (key : SemKey) : Scene := σ.assign key (σ.value key - 1)

def give (key : SemKey) : Scene := σ.assign key (σ.value key + 1)

/-- The process that a unit given to a semaphore wakes. -/
def woken? (key : SemKey) : Option Handle :=
  if σ.value key + 1 ≤ 0 then (σ.waiters key).head? else none

def wake (p : Handle) : Scene := { σ with view := (σ.view.leave p).join p .ready }

def signal (key : SemKey) : Scene :=
  match σ.woken? key with
  | some q => (σ.give key).wake q
  | none => σ.give key

/-- A completion on a channel, with its status. -/
def complete (c : Channel) (status : Word) : Scene :=
  match σ.woken? c.key with
  | some q => ((σ.give c.key).wake q).setState q (·.setV0 status)
  | none =>
    if σ.value c.key + 1 ≤ 0 then σ.give c.key
    else { σ.give c.key with banked := σ.banked.set c status c.isLt }

def completeAll (l : List (Channel × Word)) : Scene := l.foldl (fun σ c => σ.complete c.1 c.2) σ

def serve (line device : Word) : Scene :=
  let (status, receive, word) := Computer.completion line (σ.machine.device line device)
  let σ := { σ with machine := σ.machine.writeDevice line device word DeviceRegister.acknowledge }
  match Channel.ofDevice? line device receive with
  | .ok c => σ.complete c status
  | .error _ => σ

def serveAll (line : Word) (devices : List Word) : Scene := devices.foldl (·.serve line ·) σ

/-- `p` is put into the queue of a semaphore and loses the processor. -/
def block (p : Handle) (key : SemKey) : Scene :=
  (((σ.take key).join p (.semaphore key)).charge p).stop

/-- `p` takes a unit of a channel and the status kept there. -/
def consume (p : Handle) (c : Channel) : Scene :=
  { (σ.take c.key).setState p (·.setV0 (σ.banked.get c)) with banked := σ.banked.set c 0 c.isLt }

def tick : Scene :=
  { σ with
    view := (σ.view.leaveAll (σ.waiters Channel.clock.key)).joinAll
      (σ.waiters Channel.clock.key) .ready
    channels := σ.channels.set Channel.clock 0 Channel.clock.isLt
    machine := σ.machine.loadIntervalTimer σ.timing.tick }

def boot (timing : Timing) (machine : Machine) (p : Handle) (first : SavedState) : Scene :=
  dispatch { view := (View.empty.create p { state := first }).join p .ready
             current := none
             channels := .replicate channelCount 0
             banked := .replicate channelCount 0
             stopwatch := {}
             timing
             machine := machine.loadIntervalTimer timing.tick
             dispatches := 0 } p

/-- The state a process left or was given. -/
def state? (q : Handle) : Option SavedState := (σ.view.process q).map (·.state)

section
variable {σ} {p q child : Handle} {key : SemKey} {l : List Handle} {station : Station}

theorem state?_alter {f : Process → Process} (hf : ∀ x, (f x).state = x.state) :
    (σ.alter p f).state? q = σ.state? q := View.map_alter hf q

@[simp] theorem state?_setState {f : SavedState → SavedState} :
    (σ.setState p f).state? q = if q = p then (σ.state? q).map f else σ.state? q := by
  by_cases hq : q = p
  · simp [state?, setState, alter, View.alter, hq, Function.comp_def]
  · simp [state?, setState, alter, View.alter, hq]

@[simp] theorem state?_charge : (σ.charge p).state? q = σ.state? q := state?_alter fun _ => rfl

@[simp] theorem state?_join : (σ.join p station).state? q = σ.state? q := state?_alter fun _ => rfl

@[simp] theorem state?_wake : (σ.wake p).state? q = σ.state? q := by
  have h : (σ.wake p).state? q = (σ.alter p ({ · with station := none })).state? q :=
    state?_alter (σ := σ.alter p ({ · with station := none })) (p := p)
      (f := ({ · with station := some .ready })) fun _ => rfl
  exact h.trans (state?_alter fun _ => rfl)

@[simp] theorem state?_stop : σ.stop.state? q = σ.state? q := rfl

@[simp] theorem state?_dispatch : (σ.dispatch p).state? q = σ.state? q := state?_alter fun _ => rfl

@[simp] theorem state?_assign {n : Int32} : (σ.assign key n).state? q = σ.state? q := rfl

@[simp] theorem state?_finish : (σ.finish l).state? q = if q ∈ l then none else σ.state? q := by
  by_cases hq : q ∈ l <;> simp [state?, finish, View.without, hq]

@[simp] theorem state?_enrol {address : Word} {support : Option SupportArea} :
    (σ.enrol p child address support).state? q =
      if q = child then some (σ.machine.readState address) else σ.state? q := by
  by_cases hq : q = child <;> simp [state?, enrol, View.join, View.adopt,
    View.create, View.alter, hq]

@[simp] theorem waiters_setState {f : SavedState → SavedState} :
    (σ.setState p f).waiters key = σ.waiters key :=
  rfl

@[simp] theorem waiters_charge : (σ.charge p).waiters key = σ.waiters key := rfl

@[simp] theorem waiters_stop : σ.stop.waiters key = σ.waiters key := rfl

@[simp] theorem waiters_assign {k : SemKey} {n : Int32} :
    (σ.assign k n).waiters key = σ.waiters key := rfl

@[simp] theorem waiters_join : (σ.join p station).waiters key =
    if station = .semaphore key then σ.waiters key ++ [p] else σ.waiters key := by
  by_cases hs : station = .semaphore key
  · simp [waiters, join, View.join, hs]
  · simp [waiters, join, View.join, hs, Function.update_of_ne (Ne.symm hs)]

@[simp] theorem waiters_wake : (σ.wake p).waiters key = (σ.waiters key).filter (· != p) := by
  simp [waiters, wake, View.join, View.leave, View.alter]

@[simp] theorem waiters_dispatch : (σ.dispatch p).waiters key = (σ.waiters key).filter (· != p) :=
  rfl

@[simp] theorem waiters_finish : (σ.finish l).waiters key = (σ.waiters key).filter (· ∉ l) := rfl

@[simp] theorem waiters_enrol {address : Word} {support : Option SupportArea} :
    (σ.enrol p child address support).waiters key = σ.waiters key := by
  simp [waiters, enrol, View.join, View.adopt, View.create, View.alter]

end

/-- The first ready process gets the processor; while none is ready the processor idles. -/
inductive Scheduled : Dispatch → Scene → Prop
  | dispatched {p : Handle} {rest : List Handle} {x : Process}
      (hq : σ.view.queue .ready = p :: rest) (hx : σ.view.process p = some x) :
      Scheduled (.load x.state) (σ.dispatch p)
  | idle {d : Dispatch} {machine : Machine} (hq : σ.view.queue .ready = [])
      (hm : machine.memory = σ.machine.memory) (hd : d.state? = none)
      (ht : machine.localTimer = if d = .wait then idleTimer else σ.machine.localTimer) :
      Scheduled d { σ with current := none, machine }

/-- The running process goes on with `saved`, or one is chosen. -/
inductive Continued (saved : SavedState) : Dispatch → Scene → Prop
  | resumed {p : Handle} (hc : σ.current = some p) : Continued saved (.load saved) σ
  | scheduled {d : Dispatch} {τ : Scene} (hc : σ.current = none) (h : Scheduled σ d τ) :
      Continued saved d τ

/-- The process `p` goes on with its own state. -/
inductive Resumed (p : Handle) : Dispatch → Scene → Prop
  | mk {x : Process} (hx : σ.view.process p = some x) : Resumed p (.load x.state) σ

/-- A request of the running process `p`, whose state is saved already. -/
inductive Served (p : Handle) : Request → Dispatch → Scene → Prop
  | created {address : Word} {support : Option SupportArea} {child : Handle}
      {d : Dispatch} {τ : Scene} (hn : σ.view.process child = none)
      (h : Resumed (((σ.enrol p child address support).setState p (·.setV1 child.toWord)).setState p
        (·.setV0 0)) p d τ) (hg : child.generation = σ.view.generation child.slot + 1) :
      Served p (.createProcess address support) d τ
  | uncreated {address : Word} {support : Option SupportArea} {e : ServiceError}
      {d : Dispatch} {τ : Scene} (h : Resumed (σ.setState p (·.setV0 e.code.toUInt32)) p d τ) :
      Served p (.createProcess address support) d τ
  | unnamed {target : Word} {d : Dispatch} {τ : Scene}
      (h : Resumed (σ.setState p (·.setV0 ServiceError.notFound.code.toUInt32)) p d τ)
      (hn : ∀ q, ¬σ.view.Names p target q) : Served p (.terminateProcess target) d τ
  | outlived {target : Word} {l : List Handle} {d : Dispatch} {τ : Scene}
      (hl : l.Nodup) (hp : p ∉ l) (h : Resumed ((σ.finish l).setState p (·.setV0 0)) p d τ)
      {victim : Handle}
      (hv : σ.view.Names p target victim) (hf : σ.view.IsFamily victim l) :
      Served p (.terminateProcess target) d τ
  | ended {target : Word} {l : List Handle} {d : Dispatch} {τ : Scene} (hl : l.Nodup) (hp : p ∈ l)
      (h : Scheduled (σ.finish l) d τ) {victim : Handle} (hv : σ.view.Names p target victim)
      (hf : σ.view.IsFamily victim l) : Served p (.terminateProcess target) d τ
  | passed {key : SemKey} {d : Dispatch} {τ : Scene} (hv : 0 ≤ σ.value key - 1)
      (h : Resumed (σ.take key) p d τ) : Served p (.passeren key) d τ
  | consumed {r : Request} {c : Channel} {d : Dispatch} {τ : Scene} (hr : r.channel? = some c)
      (hv : 0 ≤ σ.value c.key - 1) (h : Resumed (σ.consume p c) p d τ) : Served p r d τ
  | blocked {r : Request} {key : SemKey} {d : Dispatch} {τ : Scene} (hr : r.taken? = some key)
      (hv : ¬0 ≤ σ.value key - 1) (h : Scheduled (σ.block p key) d τ) : Served p r d τ
  | signalled {key : SemKey} {d : Dispatch} {τ : Scene} (h : Resumed (σ.signal key) p d τ) :
      Served p (.verhogen key) d τ
  | told {r : Request} {w : Word} {d : Dispatch} {τ : Scene} (hr : r = .cpuTime ∨ r = .supportArea)
      (h : Resumed (σ.setState p (·.setV0 w)) p d τ)
      (hw : r = .cpuTime → ∃ x, σ.view.process p = some x ∧
        w = x.cpuTime + σ.stopwatch.elapsed σ.machine) :
      Served p r d τ

/-- The exception that left the state `saved` is answered. -/
inductive Effect (saved : SavedState) : Dispatch → Scene → Prop
  | unasked (hc : σ.current = none) (hz : saved.trapCode ≠ 0) :
      Effect saved (.panic (.noCurrentProcess saved.trapCode)) σ
  | spurious {d : Dispatch} {τ : Scene} (hm : saved.matter = .spurious)
      (h : Continued σ saved d τ) :
      Effect saved d τ
  | sliceEnded {p : Handle} {d : Dispatch} {τ : Scene} (hm : saved.matter = .sliceEnd)
      (hc : σ.current = some p) (h : Scheduled (σ.preempt p saved) d τ) : Effect saved d τ
  | sliceIdle {d : Dispatch} {τ : Scene} (hm : saved.matter = .sliceEnd) (hc : σ.current = none)
      (h : Scheduled σ d τ) : Effect saved d τ
  | ticked {d : Dispatch} {τ : Scene} (hm : saved.matter = .tick) (h : Continued σ.tick saved d τ) :
      Effect saved d τ
  | drained {line : Word} {d : Dispatch} {τ : Scene} (hm : saved.matter = .devices line)
      (h : Continued (σ.serveAll line (Computer.pendingDevices σ.machine line)) saved d τ) :
      Effect saved d τ
  | served {r : Request} {p : Handle} {d : Dispatch} {τ : Scene} (hm : saved.matter = .request r)
      (hc : σ.current = some p) (h : Served (σ.setState p fun _ => saved.pastInstruction) p r d τ) :
      Effect saved d τ
  | passedUp {c : ExceptionClass} {state : SavedState} {p : Handle} {x : Process}
      {area : SupportArea} {context : HandlerContext} (hm : saved.matter = .passUp c state)
      (hc : σ.current = some p)
      (hx : σ.view.process p = some x) (ha : x.support = some area) :
      Effect saved (.loadContext context)
        (σ.onMachine (σ.machine.writeState (area.stateAddress c) state))
  | died {c : ExceptionClass} {state : SavedState} {p : Handle} {l : List Handle}
      {d : Dispatch} {τ : Scene} (hm : saved.matter = .passUp c state) (hc : σ.current = some p)
      (hl : l.Nodup) (hp : p ∈ l)
      (h : Scheduled (σ.finish l) d τ) {x : Process} (hx : σ.view.process p = some x)
      (hs : x.support = none) (hf : σ.view.IsFamily p l) : Effect saved d τ

end Scene

end Nucleus
