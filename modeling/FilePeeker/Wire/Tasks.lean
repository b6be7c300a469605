import FilePeeker.Task.Types
import FilePeeker.Tui.App
import FilePeeker.Wire.Entries
import Mathlib.Algebra.Group.Nat.Defs

/-!
# Tasks on the wire

`task_message` of `server/tasks.rs` puts what the runtime knows of a task into a
message, and `TaskView::from` of `client/tasks.rs` reads a client's view off it.

`view_taskMessage` says all that comes of it.  The time of submission is in whole
milliseconds, cut towards 1970 and held to what an `i64` has; a phase without a name is
no phase; and of the resource a task waits for, the view says only that there is one.
-/

namespace FilePeeker.Wire

open Tui (TaskView TaskStatus)

/-! ### Identifiers -/

/-- One digit of a UUID's text. -/
def hexChar (digit : Nat) : Char :=
  Char.ofNat (if digit < 10 then '0'.toNat + digit else 'a'.toNat + (digit - 10))

/-- `count` hex digits of a number, of which `below` more follow. -/
def hexDigitsOf (n below count : Nat) : List Char :=
  (List.range count).map fun i => hexChar (n / 16 ^ (below + (count - 1 - i)) % 16)

/-- `TaskId`'s `fmt`, which is its UUID's: 32 hex digits in five groups. -/
def displayId (id : TaskId) : String :=
  String.ofList (hexDigitsOf id.uuid 24 8 ++ '-' :: hexDigitsOf id.uuid 20 4 ++
    '-' :: hexDigitsOf id.uuid 16 4 ++ '-' :: hexDigitsOf id.uuid 12 4 ++
    '-' :: hexDigitsOf id.uuid 0 12)

/-! ### Messages -/

inductive ProtocolTaskState
  | unspecified
  | queued
  | running
  | cancelling
  | succeeded
  | failed
  | cancelled
deriving DecidableEq, Repr

/-- The number a state is on the wire. -/
def ProtocolTaskState.toI32 : ProtocolTaskState → Int
  | unspecified => 0
  | queued => 1
  | running => 2
  | cancelling => 3
  | succeeded => 4
  | failed => 5
  | cancelled => 6

def ProtocolTaskState.tryFrom : Int → Option ProtocolTaskState
  | 0 => some unspecified
  | 1 => some queued
  | 2 => some running
  | 3 => some cancelling
  | 4 => some succeeded
  | 5 => some failed
  | 6 => some cancelled
  | _ => none

structure Count where
  done : Nat
  total : Option Nat
deriving DecidableEq, Repr

inductive ProtocolMeasure
  | items (count : Count)
  | bytes (count : Count)
deriving DecidableEq, Repr

structure ProtocolProgress where
  phase : String
  measure : Option ProtocolMeasure
deriving DecidableEq, Repr

/-- `client_v1::Task`. -/
structure TaskMessage where
  id : String
  parent : String
  kind : String
  subject : List Operand
  state : Int
  error : String
  waitingOnResource : Bool
  progress : Option ProtocolProgress
  submittedUnixMillis : Int
  settledUnixMillis : Option Int
deriving DecidableEq, Repr

/-- `unix_millis`, of a time in nanoseconds from 1970. -/
def unixMillis (time : SystemTime) : Int :=
  if 0 ≤ time then toI64 (time.toNat / 1000000) else -toI64 ((-time).toNat / 1000000)

def protocolMeasure : Measure → Option ProtocolMeasure
  | .indeterminate => none
  | .items done total => some (.items ⟨done, total⟩)
  | .bytes done total => some (.bytes ⟨done, total⟩)

def taskMessage (info : TaskInfo) : TaskMessage :=
  let (state, error, waitingOnResource) : ProtocolTaskState × String × Bool :=
    match info.state with
    | .queued waitingOn => (.queued, "", waitingOn.isSome)
    | .running => (.running, "", false)
    | .cancelling => (.cancelling, "", false)
    | .succeeded => (.succeeded, "", false)
    | .failed error => (.failed, error.message, false)
    | .cancelled => (.cancelled, "", false)
  { id := displayId info.id
    parent := info.parent.elim "" displayId
    kind := info.descriptor.kind
    subject := info.descriptor.subject
    state := state.toI32
    error
    waitingOnResource
    progress := some
      { phase := info.progress.phase.getD ""
        measure := protocolMeasure info.progress.measure }
    submittedUnixMillis := unixMillis info.submitted
    settledUnixMillis := info.settled.map unixMillis }

/-! ### Views -/

def statusOf (task : TaskMessage) : TaskStatus :=
  match ProtocolTaskState.tryFrom task.state with
  | some .queued => .queued task.waitingOnResource
  | some .running => .running
  | some .cancelling => .cancelling
  | some .succeeded => .succeeded
  | some .failed => .failed task.error
  | some .cancelled => .cancelled
  -- A state this build does not know.
  | some .unspecified | none => .queued false

def measureOf : Option ProtocolMeasure → Tui.Measure
  | none => .indeterminate
  | some (.items count) => .items count.done count.total
  | some (.bytes count) => .bytes count.done count.total

/-- `TaskView::from`. -/
def viewFrom (task : TaskMessage) : TaskView :=
  let progress := task.progress.getD ⟨"", none⟩
  { id := task.id
    parent := if task.parent = "" then none else some task.parent
    kind := task.kind
    subject := task.subject.map fun operand => (operand.name, operand.value)
    status := statusOf task
    phase := if progress.phase = "" then none else some progress.phase
    measure := measureOf progress.measure
    submittedUnixMillis := task.submittedUnixMillis }

/-! ### What a view says of a task -/

/-- A state as a view has it. -/
def statusShown : TaskState → TaskStatus
  | .queued waitingOn => .queued waitingOn.isSome
  | .running => .running
  | .cancelling => .cancelling
  | .succeeded => .succeeded
  | .failed error => .failed error.message
  | .cancelled => .cancelled

def measureShown : Measure → Tui.Measure
  | .indeterminate => .indeterminate
  | .items done total => .items done total
  | .bytes done total => .bytes done total

/-- Whole milliseconds, cut towards 1970. -/
def wholeMillis (time : SystemTime) : Int := time.tdiv 1000000

/-- The nearest number there is between `-i64::MAX` and `i64::MAX`. -/
def heldToI64 (n : Int) : Int := max (-maxI64) (min maxI64 n)

variable {n m below count : Nat} {a b : TaskId}

/-! ### The parts of a view -/

theorem toI64_eq (n : Nat) : toI64 n = min (maxI64 : Int) n := by
  rw [toI64]
  split <;> omega

theorem unixMillis_eq (t : Int) : unixMillis t = heldToI64 (wholeMillis t) := by
  rw [unixMillis, wholeMillis, heldToI64]
  split
  · next hpos =>
    have hpos : (0 : Int) ≤ t := hpos
    have hcut : t.tdiv 1000000 = ((t.toNat / 1000000 : Nat) : Int) := by
      rw [Int.tdiv_eq_ediv_of_nonneg hpos]
      omega
    rw [hcut, toI64_eq]
    omega
  · next hneg =>
    have hneg : ¬ (0 : Int) ≤ t := hneg
    have hcut : (-t).tdiv 1000000 = (((-t).toNat / 1000000 : Nat) : Int) := by
      rw [Int.tdiv_eq_ediv_of_nonneg (by omega)]
      omega
    rw [← Int.neg_neg t, Int.neg_tdiv, hcut, toI64_eq, Int.neg_neg]
    omega

theorem tryFrom_toI32_state (state : ProtocolTaskState) :
    ProtocolTaskState.tryFrom state.toI32 = some state := by
  cases state <;> rfl

theorem statusOf_taskMessage (info : TaskInfo) :
    statusOf (taskMessage info) = statusShown info.state := by
  rw [statusOf, taskMessage]
  cases info.state <;> simp only [tryFrom_toI32_state, statusShown]

theorem measureOf_protocolMeasure (measure : Measure) :
    measureOf (protocolMeasure measure) = measureShown measure := by
  cases measure <;> rfl

theorem statusShown_isTerminal (state : TaskState) :
    (statusShown state).isTerminal = state.isTerminal := by
  cases state <;> rfl

/-! ### Identifiers there and back -/

theorem hexChar_inj (hn : n < 16) (hm : m < 16) (h : hexChar n = hexChar m) : n = m := by
  revert h hn hm
  have hall : ∀ i : Fin 16, ∀ j : Fin 16, hexChar i = hexChar j → i = j := by decide
  intro hn hm h
  exact congrArg Fin.val (hall ⟨n, hn⟩ ⟨m, hm⟩ h)

/-- Numbers with the same digits up to a place are the same up to it. -/
theorem mod_of_digits : ∀ {k : Nat}, (∀ i, i < k → n / 16 ^ i % 16 = m / 16 ^ i % 16) →
    n % 16 ^ k = m % 16 ^ k := by
  intro k
  induction k with
  | zero => intro _; rw [Nat.pow_zero, Nat.mod_one, Nat.mod_one]
  | succ k ih =>
    intro h
    rw [Nat.mod_pow_succ, Nat.mod_pow_succ, ih fun i hi => h i (Nat.lt_succ_of_lt hi),
      h k (Nat.lt_succ_self k)]

theorem digit_of_hexDigitsOf (h : hexDigitsOf n below count = hexDigitsOf m below count)
    {i : Nat} (hle : below ≤ i) (hlt : i < below + count) :
    n / 16 ^ i % 16 = m / 16 ^ i % 16 := by
  have hi := congrArg (·[below + count - 1 - i]?) h
  have hplace : below + (count - 1 - (below + count - 1 - i)) = i := by omega
  simp only [hexDigitsOf, List.getElem?_map,
    List.getElem?_range (show below + count - 1 - i < count by omega), Option.map_some,
    Option.some.injEq, hplace] at hi
  exact hexChar_inj (Nat.mod_lt _ (by decide)) (Nat.mod_lt _ (by decide)) hi

theorem length_hexDigitsOf (n below count : Nat) : (hexDigitsOf n below count).length = count := by
  rw [hexDigitsOf, List.length_map, List.length_range]

/-- The text tells identifiers of 128 bits apart. -/
theorem displayId_inj (ha : a.uuid < 2 ^ 128) (hb : b.uuid < 2 ^ 128)
    (h : displayId a = displayId b) : a = b := by
  have hlist := String.ofList_injective h
  have hlen (below count : Nat) : (hexDigitsOf a.uuid below count).length =
      (hexDigitsOf b.uuid below count).length := by
    rw [length_hexDigitsOf, length_hexDigitsOf]
  simp only [List.append_assoc, List.cons_append] at hlist
  obtain ⟨h₁, hlist⟩ := List.append_inj hlist (hlen 24 8)
  obtain ⟨h₂, hlist⟩ := List.append_inj (List.cons.inj hlist).2 (hlen 20 4)
  obtain ⟨h₃, hlist⟩ := List.append_inj (List.cons.inj hlist).2 (hlen 16 4)
  obtain ⟨h₄, hlist⟩ := List.append_inj (List.cons.inj hlist).2 (hlen 12 4)
  have h₅ := (List.cons.inj hlist).2
  have hmod : a.uuid % 16 ^ 32 = b.uuid % 16 ^ 32 := by
    refine mod_of_digits fun i hi => ?_
    rcases Nat.lt_or_ge i 12 with hlt | hge₁
    · exact digit_of_hexDigitsOf h₅ (Nat.zero_le _) hlt
    rcases Nat.lt_or_ge i 16 with hlt | hge₂
    · exact digit_of_hexDigitsOf h₄ hge₁ hlt
    rcases Nat.lt_or_ge i 20 with hlt | hge₃
    · exact digit_of_hexDigitsOf h₃ hge₂ hlt
    rcases Nat.lt_or_ge i 24 with hlt | hge₄
    · exact digit_of_hexDigitsOf h₂ hge₃ hlt
    · exact digit_of_hexDigitsOf h₁ hge₄ hi
  have hsize : (16 : Nat) ^ 32 = 2 ^ 128 := by decide
  rw [hsize, Nat.mod_eq_of_lt ha, Nat.mod_eq_of_lt hb] at hmod
  exact congrArg TaskId.mk hmod

theorem displayId_ne_empty (id : TaskId) : displayId id ≠ "" := by
  intro h
  have hlist := congrArg String.length h
  simp [displayId, length_hexDigitsOf] at hlist

/-! ### Views -/

/-- **What a client reads of a task**: everything, the time of submission in
milliseconds; and it has ended there exactly if it has here. -/
theorem view_taskMessage (info : TaskInfo) :
    viewFrom (taskMessage info) =
      { id := displayId info.id
        parent := info.parent.map displayId
        kind := info.descriptor.kind
        subject := info.descriptor.subject.map fun operand => (operand.name, operand.value)
        status := statusShown info.state
        phase := info.progress.phase.filter (· ≠ "")
        measure := measureShown info.progress.measure
        submittedUnixMillis := heldToI64 (wholeMillis info.submitted) } ∧
      (∀ other : TaskId, other.uuid < 2 ^ 128 → info.id.uuid < 2 ^ 128 →
        displayId other = displayId info.id → other = info.id) ∧
      (viewFrom (taskMessage info)).status.isTerminal = info.state.isTerminal := by
  have hstatus := statusOf_taskMessage info
  have hparent : (if info.parent.elim "" displayId = "" then none
      else some (info.parent.elim "" displayId)) = info.parent.map displayId := by
    cases info.parent with
    | none => rfl
    | some parent => exact if_neg (displayId_ne_empty parent)
  have hphase : (if info.progress.phase.getD "" = "" then none
      else some (info.progress.phase.getD "")) = info.progress.phase.filter (· ≠ "") := by
    cases info.progress.phase with
    | none => rfl
    | some phase => by_cases h : phase = "" <;> simp [Option.filter, h]
  refine ⟨?_, fun other hother hid => displayId_inj hother hid, ?_⟩
  · rw [viewFrom, hstatus, ← hparent, ← hphase, ← unixMillis_eq, ← measureOf_protocolMeasure]
    rfl
  · rw [viewFrom]
    show (statusOf (taskMessage info)).isTerminal = _
    rw [hstatus, statusShown_isTerminal]

/-- A task submitted `2 ^ 63` milliseconds after 1970. -/
def farSubmission : TaskInfo where
  id := ⟨1⟩
  parent := none
  descriptor := ⟨"demo.count", [], .interactive⟩
  submitted := 9223372036854775808 * 1000000
  settled := none
  state := .running
  progress := .none

/-- A client reads that it was submitted a millisecond earlier. -/
theorem far_submission_held :
    (viewFrom (taskMessage farSubmission)).submittedUnixMillis = 9223372036854775807 ∧
      (viewFrom (taskMessage farSubmission)).submittedUnixMillis ≠
        wholeMillis farSubmission.submitted := by
  decide +kernel

end FilePeeker.Wire
