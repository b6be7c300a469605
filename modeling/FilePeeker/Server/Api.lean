import FilePeeker.Task.Runtime

/-!
# The API's answers

One connection of the API: it waits for a line or for the shutdown, answers the
line with `respond`, writes the answer, and stops the server where that was
asked for.  A line is taken as `serde_json` reads it, and so is the server's
status.
-/

namespace FilePeeker

/-- The parameters of `task.demo`, with their defaults filled in. -/
structure DemoParams where
  seconds : Nat
  fail : Bool
deriving DecidableEq, Repr

/-- What `submit` reads of a `Demo`: its descriptor; it requires no resource. -/
def demoKind (params : DemoParams) : TaskKind where
  descriptor :=
    { kind := "demo.count"
      subject := ⟨"seconds", toString params.seconds⟩ ::
        if params.fail then [⟨"fail", "true"⟩] else []
      admission := .background }
  requires := []

/-- One request, its parameters read as those of `task.demo`. -/
structure Request where
  id : Option Nat
  method : String
  params : Except String DemoParams

/-- A line of an API connection: a request, or why it is not one. -/
abbrev Line := Except String Request

/-- The results the API answers with. -/
inductive Answer
  | status (text : String)
  | submitted (id : TaskId)
  | empty
deriving DecidableEq, Repr

structure ApiError where
  code : String
  message : String
deriving DecidableEq, Repr

structure Response where
  id : Option Nat
  result : Option Answer
  error : Option ApiError
deriving DecidableEq, Repr

def Response.ok (id : Option Nat) (result : Answer) : Response := ⟨id, some result, none⟩

def Response.err (id : Option Nat) (code message : String) : Response :=
  ⟨id, none, some ⟨code, message⟩⟩

def methodStatus : String := "server.status"
def methodStop : String := "server.stop"
def methodTaskDemo : String := "task.demo"
def errorInvalidRequest : String := "invalid_request"
def errorUnknownMethod : String := "unknown_method"

/-- The answer to `task.demo`, and what it submits as `task`. -/
def submitDemo (id : Option Nat) (params : Except String DemoParams) (task : TaskId) :
    Response × Option TaskKind :=
  match params with
  | .error message => (.err id errorInvalidRequest message, none)
  | .ok params => (.ok id (.submitted task), some (demoKind params))

/-- Answers one line: the response, whether it asked the server to stop, and
what it submits as `task`. -/
def respond (line : Line) (status : Except String String) (task : TaskId) :
    Response × Bool × Option TaskKind :=
  match line with
  | .error message => (.err none errorInvalidRequest message, false, none)
  | .ok request =>
    if request.method = methodStatus then
      match status with
      | .ok text => (.ok request.id (.status text), false, none)
      | .error message => (.err request.id errorInvalidRequest message, false, none)
    else if request.method = methodTaskDemo then
      let (response, kind) := submitDemo request.id request.params task
      (response, false, kind)
    else if request.method = methodStop then (.ok request.id .empty, true, none)
    else
      (.err request.id errorUnknownMethod ("no method named `" ++ request.method ++ "`"), false,
        none)

/-- The line is a `task.demo` the server can serve. -/
def Line.submits : Line → Bool
  | .ok request => request.method == methodTaskDemo && request.params.isOk
  | .error _ => false

/-- A line submits a task exactly where it is a `task.demo`. -/
theorem respond_submits (line : Line) (status : Except String String) (task : TaskId) :
    (respond line status task).2.2.isSome = line.submits := by
  unfold respond Line.submits
  cases line with
  | error message => rfl
  | ok request =>
    by_cases hd : request.method = methodTaskDemo
    · simp only [hd, show methodTaskDemo ≠ methodStatus by decide, if_true, if_false]
      cases request.params <;> simp [submitDemo, Except.isOk, Except.toBool]
    · simp only [hd, if_false, beq_eq_false_iff_ne.mpr hd, Bool.false_and]
      split
      · cases status <;> rfl
      · split <;> rfl

/-- Where one connection stands. -/
inductive Connection
  /-- The `select!` on the shutdown and the next line. -/
  | select
  | respond (line : Line)
  | write (response : Response) (stop : Bool)
  | done

end FilePeeker
