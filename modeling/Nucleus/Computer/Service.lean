import Nucleus.Computer.PassUp

/-!
# Services

The eight services. The caller is resumed after its request with the result in the first result
register, unless the service blocks it, ends it, or has no result at all (P and V).
-/
namespace Nucleus.Computer

/-- Resumes the caller with the result `v`. -/
def reply (s : Computer) (p : Handle) (v : Word) : Except Fault (Dispatch × Computer) := do
  let s ← s.modifyProcess p fun d => { d with state := d.state.setV0 v }
  return (.load (← s.process p).state, s)

/-- Resumes the caller with the code of a refused service. -/
def refuse (s : Computer) (p : Handle) (e : ServiceError) : Except Fault (Dispatch × Computer) :=
  s.reply p e.code.toUInt32

def resume (s : Computer) (p : Handle) : Except Fault (Dispatch × Computer) := do
  return (.load (← s.process p).state, s)

/-- Gives up the processor after the running process was blocked. -/
def blockCurrent (s : Computer) : Except Fault (Dispatch × Computer) := do
  let s ← s.charge
  { s with kernel := { s.kernel with current := none } }.schedule

/-- Starts a child of `parent` from the state in memory at `address`. -/
def createChild (s : Computer) (parent : Handle) (address : Word) (support : Option SupportArea) :
    Except Fault (Except ServiceError Handle × Computer) := do
  if address = 0 ∨ address % wordBytes ≠ 0 then
    return (.error .invalidArgument, s)
  match s.kernel.table.alloc with
  | none => return (.error .noFreeProcess, s)
  | some (child, table) =>
    let table ← table.modify child ({ · with state := s.machine.readState address, support })
    let table ← table.adopt parent child
    let kernel ← (s.kernel.setTable table).makeReady child
    let kernel := { kernel with processCount := kernel.processCount + 1 }
    let s := { s with kernel }.count fun c => { c with created := c.created.increment }
    return (.ok child, s.note (.created parent child))

def createProcess (s : Computer) (p : Handle) (address : Word) (support : Option SupportArea) :
    Except Fault (Dispatch × Computer) := do
  match ← s.createChild p address support with
  | (.ok child, s) =>
    let s ← s.modifyProcess p fun d => { d with state := d.state.setV1 child.toWord }
    s.reply p 0
  | (.error e, s) => (s.note (.creationRefused p e)).refuse p e

/-- The process a caller may end under the name `target`: itself for zero, or a live process that is
itself or below it. -/
def terminationTarget? (s : Computer) (p : Handle) (target : Word) :
    Except Fault (Option Handle) := do
  if target = 0 then
    return some p
  match Handle.ofWord? target with
  | none => return none
  | some q => return if ← s.kernel.table.isAncestorOrSelf p q then some q else none

def terminateProcess (s : Computer) (p : Handle) (target : Word) :
    Except Fault (Dispatch × Computer) := do
  match ← s.terminationTarget? p target with
  | none => (s.note (.badTarget p target)).refuse p .notFound
  | some victim =>
    let (_, s) ← s.terminate victim
    match s.kernel.current with
    | some p => s.reply p 0
    | none => s.schedule

def passeren (s : Computer) (p : Handle) (key : SemKey) : Except Fault (Dispatch × Computer) := do
  match ← s.wait key p with
  | (.ok true, s) => (s.note (.blocked p key)).blockCurrent
  | (.ok false, s) => s.resume p
  | (.error e, s) => (s.note (.waitRefused p e)).refuse p e

def verhogen (s : Computer) (p : Handle) (key : SemKey) : Except Fault (Dispatch × Computer) := do
  match ← s.signal key with
  | (some q, s) => (s.note (.woken p q key)).resume p
  | (none, s) => s.resume p

/-- Waits on one of the nucleus's own semaphores. When a completion arrived before, the caller gets
its status at once and goes on. -/
def waitOn (s : Computer) (p : Handle) (c : Channel) : Except Fault (Dispatch × Computer) := do
  let s := { s with kernel := { s.kernel with softBlockCount := s.kernel.softBlockCount + 1 } }
  match ← s.wait c.key p with
  | (.ok true, s) => (s.note (.softBlocked p c.key)).blockCurrent
  | (.ok false, s) =>
    let softBlockCount ← lower s.kernel.softBlockCount 1
    let status := s.kernel.banked.get c
    let banked := s.kernel.banked.set c 0 c.isLt
    { s with kernel := { s.kernel with softBlockCount, banked } }.reply p status
  | (.error e, s) =>
    let softBlockCount ← lower s.kernel.softBlockCount 1
    { s with kernel := { s.kernel with softBlockCount } }.refuse p e

/-- Serves a request of the running process `p`, whose state is saved already. -/
def serve (s : Computer) (p : Handle) : Request → Except Fault (Dispatch × Computer)
  | .createProcess address support => s.createProcess p address support
  | .terminateProcess target => s.terminateProcess p target
  | .passeren key => s.passeren p key
  | .verhogen key => s.verhogen p key
  | .waitDevice line device receive =>
    match Channel.ofDevice? line device receive with
    | .ok c => s.waitOn p c
    | .error e => s.refuse p e
  | .cpuTime => do s.reply p ((← s.process p).cpuTime + s.kernel.stopwatch.elapsed s.machine)
  | .waitClock => s.waitOn p .clock
  | .supportArea => do s.reply p (SupportArea.toWord (← s.process p).support)

/-- Answers a request exception. Only a well-formed request from kernel mode is served; one from
user mode counts as a reserved instruction. -/
def request (s : Computer) (saved : SavedState) : Except Fault (Dispatch × Computer) := do
  match s.kernel.current with
  | none => return (.panic (.noCurrentProcess saved.trapCode), s)
  | some p =>
    match Request.ofState? saved with
    | none => s.passUpOrDie .general saved
    | some r =>
      if saved.wasUserMode then
        s.passUpOrDie .general (saved.setTrapCode Trap.reservedInstruction.code)
      else if !r.isWellFormed then
        s.passUpOrDie .general saved
      else
        let s := s.count fun c => { c with requests := c.requests.increment }
        let s ← (s.note (.requested p r)).modifyProcess p fun d =>
          { d with state := saved.pastInstruction }
        s.serve p r

end Nucleus.Computer
