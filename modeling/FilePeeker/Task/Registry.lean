import FilePeeker.Lib.Table
import FilePeeker.Task.Types
import Mathlib.Algebra.Order.Monoid.Unbundled.WithTop
import Mathlib.Data.Finset.Max
import Mathlib.Data.List.Sort
import Mathlib.Logic.Function.Basic

/-!
# The registry and its lock sections

`Registry` is what `task/runtime.rs` keeps behind its lock, and each function
here is one lock section of it: the registry it leaves, and the events it
sends, in order, before the lock is released.

* `Registry.start`: the registration `submit` and `submit_child` share.
* `admission`, `Registry.admitTicket`, `dequeue`, `Registry.release`: a capped
  root's way through its scope.
* `Registry.setQueued`, `Registry.setState`, `Registry.settle`: the states a
  driver writes; `settle` also evicts.
* `Registry.reportProgress`, `Registry.flushProgress`: the throttled progress.
* `Registry.tasks`, `Registry.task`: what an observer reads.
-/

namespace FilePeeker

/-- Holds back progress events; `lastSent` is when the last one was sent. -/
structure Throttle where
  lastSent : Option Instant
  pending : Bool
  flushScheduled : Bool
deriving DecidableEq, Repr

/-- `Throttle::default`. -/
def Throttle.default : Throttle := ⟨none, false, false⟩

structure Entry where
  seq : Nat
  info : TaskInfo
  children : List TaskId
  liveChildren : Nat
  token : CancelToken TaskId
  throttle : Throttle
deriving DecidableEq, Repr

/-- A value of some type, behind a shared pointer. -/
structure AnyValue where
  typeId : Nat
  address : Nat
deriving DecidableEq, Repr

structure Resource where
  state : ResourceState
  value : Option AnyValue
deriving DecidableEq, Repr

/-- `queues` holds the capped roots not yet admitted, by submission order; a
scope that is absent from a map of the source reads as empty, or as zero. -/
structure Registry where
  nextSeq : Nat
  entries : Table TaskId Entry
  settledRoots : List TaskId
  resources : Table ResourceId Resource
  admitted : Scope → Nat
  queues : Scope → Finset Nat

/-- `Registry::default`. -/
def Registry.default : Registry := ⟨0, ∅, [], ∅, fun _ => 0, fun _ => ∅⟩

/-- What the registry says of one task. -/
def Registry.entry (reg : Registry) (id : TaskId) : Option Entry := reg.entries.lookup id

/-- The entry of a task that has not settled. -/
def Entry.live (e : Entry) : Bool := !e.info.state.isTerminal

/-! ### Observers -/

/-- `Runtime::tasks`: every retained task, in submission order. -/
def Registry.tasks (reg : Registry) : List TaskInfo :=
  (reg.entries.values.insertionSort fun a b => a.seq ≤ b.seq).map Entry.info

/-- `Runtime::task`. -/
def Registry.task (reg : Registry) (id : TaskId) : Option TaskInfo :=
  (reg.entry id).map Entry.info

/-- What `idle` asks: is some task still unsettled? -/
def Registry.busy (reg : Registry) : Bool := reg.entries.values.any Entry.live

/-! ### Registration -/

/-- Where a task stands for admission: its place in submission order, the scope
it counts against, and whether it queues in that scope at all. -/
structure Ticket where
  seq : Nat
  scope : Scope
  queued : Bool
deriving DecidableEq, Repr

/-- The ticket `start` makes for a kind submitted now. -/
def Registry.ticket (reg : Registry) (config : Config) (kind : TaskKind)
    (parent : Option TaskId) : Ticket :=
  let scope : Scope := (kind.descriptor.admission, kind.requires.head?)
  { seq := reg.nextSeq
    scope := scope
    queued := parent.isNone && (config.cap scope.1).isSome }

/-- The `TaskInfo` a task starts with. -/
def startInfo (id : TaskId) (parent : Option TaskId) (descriptor : TaskDescriptor)
    (submitted : SystemTime) : TaskInfo where
  id := id
  parent := parent
  descriptor := descriptor
  submitted := submitted
  settled := none
  state := .queued none
  progress := .none

/-- The lock section of `start`. -/
def Registry.start (reg : Registry) (config : Config) (id : TaskId) (kind : TaskKind)
    (parent : Option TaskId) (token : CancelToken TaskId) (submitted : SystemTime) :
    Registry × List TaskEvent :=
  let ticket := reg.ticket config kind parent
  let info := startInfo id parent kind.descriptor submitted
  let queues :=
    if ticket.queued then
      Function.update reg.queues ticket.scope (insert ticket.seq (reg.queues ticket.scope))
    else reg.queues
  let entries :=
    match parent with
    | none => reg.entries
    | some p => reg.entries.modify p fun e =>
        { e with children := e.children ++ [id], liveChildren := e.liveChildren + 1 }
  let entry : Entry :=
    { seq := ticket.seq, info := info, children := [], liveChildren := 0, token := token
      throttle := .default }
  ({ reg with
      nextSeq := reg.nextSeq + 1
      queues := queues
      entries := entries.insert id entry }, [.submitted info])

/-! ### Resources -/

/-- The lock section of `add_resource`. -/
def Registry.addResource (reg : Registry) (id : ResourceId) (state : ResourceState) : Registry :=
  { reg with resources := reg.resources.insert id ⟨state, none⟩ }

/-- The lock section of `set_resource_state`: leaving `Ready` drops the value. -/
def Registry.setResourceState (reg : Registry) (id : ResourceId) (state : ResourceState) :
    Registry :=
  { reg with
    resources := reg.resources.modify id fun r =>
      { state := state, value := if state = .ready then r.value else none } }

/-- The lock section of `set_resource_ready`. -/
def Registry.setResourceReady (reg : Registry) (id : ResourceId) (value : AnyValue) : Registry :=
  { reg with resources := reg.resources.modify id fun _ => ⟨.ready, some value⟩ }

/-- `resource_value`: a ready resource's value, if it is of the type asked for. -/
def Registry.resourceValue (reg : Registry) (id : ResourceId) (typeId : Nat) : Option AnyValue :=
  match reg.resources.lookup id with
  | none => none
  | some r => if r.state = .ready then r.value.filter (·.typeId = typeId) else none

/-! ### Admission -/

inductive Admission
  | admits
  | wait (on : Option ResourceId)
  | fail (error : IoError)
deriving DecidableEq, Repr

def goneError : IoError := ⟨.notConnected, "a resource this task requires is gone"⟩

def unknownError : IoError := ⟨.notFound, "a resource this task requires does not exist"⟩

/-- The resources are checked in order, then the scope's room and its queue's
head. -/
def admission (reg : Registry) (requires : List ResourceId) (ticket : Ticket)
    (cap : Option Nat) : Admission :=
  match requires with
  | resource :: rest =>
    match (reg.resources.lookup resource).map Resource.state with
    | some .ready => admission reg rest ticket cap
    | some .pending | some .closing => .wait (some resource)
    | some .gone => .fail goneError
    | none => .fail unknownError
  | [] =>
    match cap with
    | none => .admits
    | some cap =>
      if reg.admitted ticket.scope < cap ∧ (reg.queues ticket.scope).min = ticket.seq then .admits
      else .wait none

/-- Takes a ticket out of its scope's queue. -/
def dequeue (reg : Registry) (ticket : Ticket) : Registry :=
  { reg with
    queues := Function.update reg.queues ticket.scope
      ((reg.queues ticket.scope).erase ticket.seq) }

/-- What a queued driver's admitting lock section does on `Admit`. -/
def Registry.admitTicket (reg : Registry) (ticket : Ticket) : Registry :=
  dequeue
    { reg with
      admitted := Function.update reg.admitted ticket.scope (reg.admitted ticket.scope + 1) }
    ticket

/-- The lock section of `Slot::drop`; the subtraction stops at zero. -/
def Registry.release (reg : Registry) (scope : Scope) : Registry :=
  { reg with admitted := Function.update reg.admitted scope (reg.admitted scope - 1) }

/-! ### States -/

def stateOf : TaskError → TaskState
  | .failed error => .failed error
  | .cancelled => .cancelled

def Entry.setState (e : Entry) (state : TaskState) : Entry :=
  { e with info := { e.info with state := state } }

/-- Sends `Queued` only when what the task waits on has changed. -/
def Registry.setQueued (reg : Registry) (id : TaskId) (waitingOn : Option ResourceId) :
    Registry × List TaskEvent :=
  match reg.entry id with
  | none => (reg, [])
  | some e =>
    if e.info.state = .queued waitingOn then (reg, [])
    else
      ({ reg with entries := reg.entries.insert id (e.setState (.queued waitingOn)) },
        [.stateChanged id (.queued waitingOn)])

def Registry.setState (reg : Registry) (id : TaskId) (state : TaskState) :
    Registry × List TaskEvent :=
  match reg.entry id with
  | none => (reg, [])
  | some e =>
    ({ reg with entries := reg.entries.insert id (e.setState state) }, [.stateChanged id state])

/-- Removes a task and, through the children each entry lists, everything
below it.  Every call on the way down has removed one entry more, so the number
of entries bounds how deep the calls nest. -/
def removeSubtree : Nat → Table TaskId Entry → TaskId → Table TaskId Entry
  | 0, entries, _ => entries
  | depth + 1, entries, id =>
    match entries.lookup id with
    | none => entries
    | some e => e.children.foldl (removeSubtree depth) (entries.erase id)

/-- The `while` of `settle`: evicts the oldest settled roots past the bound. -/
def evict (retained : Nat) : List TaskId → Table TaskId Entry →
    List TaskId × Table TaskId Entry
  | [], entries => ([], entries)
  | oldest :: rest, entries =>
    if retained < (oldest :: rest).length then
      evict retained rest (removeSubtree entries.size entries oldest)
    else (oldest :: rest, entries)

/-- The entry of a task as its settling leaves it. -/
def Entry.settle (e : Entry) (state : TaskState) (now : SystemTime) : Entry :=
  { e with
    info := { e.info with state := state, settled := some now }
    throttle := { e.throttle with pending := false } }

/-- The lock section of `settle`.  A task the registry does not hold is left
alone, and the caller then notifies nobody. -/
def Registry.settle (reg : Registry) (config : Config) (id : TaskId) (state : TaskState)
    (now : SystemTime) : Registry × List TaskEvent :=
  match reg.entry id with
  | none => (reg, [])
  | some e =>
    -- The latest progress always reaches observers before the end.
    let flushed := if e.throttle.pending then [.progressed id e.info.progress] else []
    let events := flushed ++ [.stateChanged id state]
    let entries : Table TaskId Entry := reg.entries.insert id (e.settle state now)
    match e.info.parent with
    | some parent =>
      ({ reg with
          entries := entries.modify parent fun p =>
            { p with liveChildren := p.liveChildren - 1 } }, events)
    | none =>
      let (roots, entries) := evict config.retainedRoots (reg.settledRoots ++ [id]) entries
      ({ reg with settledRoots := roots, entries := entries }, events)

/-! ### Progress -/

/-- Whether the next progress event may go out at once. -/
def Throttle.due (t : Throttle) (interval : Nat) (now : Instant) : Bool :=
  match t.lastSent with
  | none => true
  | some last => decide (interval ≤ now - last)

/-- How long a report inside the interval waits for its flush. -/
def Throttle.wait (t : Throttle) (interval : Nat) (now : Instant) : Nat :=
  interval - (match t.lastSent with | none => 0 | some last => now - last)

/-- An entry after a report of progress. -/
def Entry.report (e : Entry) (interval : Nat) (now : Instant) (progress : Progress) : Entry :=
  { e with
    info := { e.info with progress := progress }
    throttle :=
      if e.throttle.due interval now then
        { e.throttle with lastSent := some now, pending := false }
      else { e.throttle with pending := true, flushScheduled := true } }

/-- The lock section of `report_progress`: what it sends, and when the flush it
spawns, if it spawns one, is to run. -/
def Registry.reportProgress (reg : Registry) (config : Config) (now : Instant) (id : TaskId)
    (progress : Progress) : Registry × List TaskEvent × Option Instant :=
  match reg.entry id with
  | none => (reg, [], none)
  | some e =>
    if e.info.state.isTerminal then (reg, [], none)
    else
      let reg' :=
        { reg with
          entries := reg.entries.insert id (e.report config.progressInterval now progress) }
      if e.throttle.due config.progressInterval now then (reg', [.progressed id progress], none)
      else if e.throttle.flushScheduled then (reg', [], none)
      else (reg', [], some (now + e.throttle.wait config.progressInterval now))

/-- Whether a flush that runs now has something to send. -/
def Entry.flushes (e : Entry) : Bool := e.throttle.pending && e.live

/-- An entry after its scheduled flush ran. -/
def Entry.flush (e : Entry) (now : Instant) : Entry :=
  { e with
    throttle :=
      if e.flushes then ⟨some now, false, false⟩
      else { e.throttle with flushScheduled := false } }

/-- The lock section of `flush_progress`. -/
def Registry.flushProgress (reg : Registry) (now : Instant) (id : TaskId) :
    Registry × List TaskEvent :=
  match reg.entry id with
  | none => (reg, [])
  | some e =>
    ({ reg with entries := reg.entries.insert id (e.flush now) },
      if e.flushes then [.progressed id e.info.progress] else [])

end FilePeeker
