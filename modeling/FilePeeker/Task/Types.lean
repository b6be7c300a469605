import FilePeeker.Lib.CancelToken

/-!
# What the task runtime says about a task

The closed shapes of `task/mod.rs`: identifiers, descriptors, states, progress,
events, resources, and the runtime's policy.  Counts and readings of the
monotonic clock are natural numbers, those of the wall clock integers;
identifiers are opaque up to equality.
-/

namespace FilePeeker

/-- A reading of the monotonic clock, and a span of it. -/
abbrev Instant := Nat

/-- A reading of the wall clock, in nanoseconds from 1970; it may go back. -/
abbrev SystemTime := Int

/-- Names one task on every side that sees it. -/
structure TaskId where
  uuid : Nat
deriving DecidableEq, Repr

/-- Names one resource tasks can wait on. -/
structure ResourceId where
  uuid : Nat
deriving DecidableEq, Repr

/-- Which admission cap a root task counts against. -/
inductive AdmissionClass
  | interactive
  | transfer
  | background
deriving DecidableEq, Repr

/-- Where a root counts: its class, and the first resource it requires. -/
abbrev Scope := AdmissionClass × Option ResourceId

/-- One named operand: `path = /tmp`. -/
structure Operand where
  name : String
  value : String
deriving DecidableEq, Repr

/-- What a task is, for every observer that did not submit it. -/
structure TaskDescriptor where
  kind : String
  subject : List Operand
  admission : AdmissionClass
deriving DecidableEq, Repr

/-- The kinds of I/O error the runtime makes or tells apart, and the rest. -/
inductive ErrorKind
  | interrupted
  | notConnected
  | notFound
  | other
  | unlisted (code : Nat)
deriving DecidableEq, Repr

structure IoError where
  kind : ErrorKind
  message : String
deriving DecidableEq, Repr

/-- How a task that did not succeed ended. -/
inductive TaskError
  | failed (error : IoError)
  | cancelled
deriving DecidableEq, Repr

inductive TaskState
  | queued (waitingOn : Option ResourceId)
  | running
  | cancelling
  | succeeded
  | failed (error : IoError)
  | cancelled
deriving DecidableEq, Repr

/-- `Succeeded`, `Failed` and `Cancelled`. -/
def TaskState.isTerminal : TaskState → Bool
  | succeeded | failed _ | cancelled => true
  | queued _ | running | cancelling => false

/-- The place of a state along `Queued`, `Running`, `Cancelling`, terminal. -/
def TaskState.rank : TaskState → Nat
  | queued _ => 0
  | running => 1
  | cancelling => 2
  | succeeded | failed _ | cancelled => 3

theorem TaskState.isTerminal_iff_rank {st : TaskState} : st.isTerminal = true ↔ st.rank = 3 := by
  cases st <;> simp [isTerminal, rank]

theorem TaskState.rank_le (st : TaskState) : st.rank ≤ 3 := by
  cases st <;> simp [rank]

inductive Measure
  | indeterminate
  | items (done : Nat) (total : Option Nat)
  | bytes (done : Nat) (total : Option Nat)
deriving DecidableEq, Repr

/-- Two independent axes: a copy is in a phase *and* has a byte count. -/
structure Progress where
  phase : Option String
  measure : Measure
deriving DecidableEq, Repr

/-- `Progress::default`. -/
def Progress.none : Progress := ⟨Option.none, .indeterminate⟩

/-- Everything the runtime knows about one task. -/
structure TaskInfo where
  id : TaskId
  parent : Option TaskId
  descriptor : TaskDescriptor
  submitted : SystemTime
  settled : Option SystemTime
  state : TaskState
  progress : Progress
deriving DecidableEq, Repr

inductive TaskEvent
  | submitted (info : TaskInfo)
  | stateChanged (id : TaskId) (state : TaskState)
  | progressed (id : TaskId) (progress : Progress)
deriving DecidableEq, Repr

/-- The task an event is about. -/
def taskOf : TaskEvent → TaskId
  | .submitted info => info.id
  | .stateChanged id _ | .progressed id _ => id

/-- Where a resource is in its life. -/
inductive ResourceState
  | pending
  | ready
  | closing
  | gone
deriving DecidableEq, Repr

/-- The runtime's policy.  The item channel's buffer is left out: nothing here
sends items. -/
structure Config where
  interactiveCap : Option Nat
  transferCap : Option Nat
  backgroundCap : Option Nat
  retainedRoots : Nat
  progressInterval : Nat
  eventBuffer : Nat
deriving DecidableEq, Repr

/-- `Config::default`; the interval is in nanoseconds. -/
def Config.default : Config where
  interactiveCap := none
  transferCap := some 2
  backgroundCap := some 1
  retainedRoots := 256
  progressInterval := 100000000
  eventBuffer := 1024

def Config.cap (config : Config) : AdmissionClass → Option Nat
  | .interactive => config.interactiveCap
  | .transfer => config.transferCap
  | .background => config.backgroundCap

/-- What `submit` reads of a kind before the task exists. -/
structure TaskKind where
  descriptor : TaskDescriptor
  requires : List ResourceId
deriving DecidableEq, Repr

end FilePeeker
