import FilePeeker.Lib.Table

/-!
# The state of the terminal front end

`App` of `tui::app`: the machines and what each of them shows, the selection, the
open menu, and how keys, the mouse and the connections' events change them.  A
point in time is a number of nanoseconds.
-/

namespace FilePeeker.Tui

abbrev Instant := Nat

/-- `SETTLED_LINGER`. -/
def settledLinger : Nat := 5000000000

/-! ### A server's tasks as a client holds them -/

inductive TaskStatus
  | queued (onResource : Bool)
  | running
  | cancelling
  | succeeded
  | failed (error : String)
  | cancelled
deriving DecidableEq, Repr

def TaskStatus.isTerminal : TaskStatus → Bool
  | succeeded | failed _ | cancelled => true
  | queued _ | running | cancelling => false

inductive Measure
  | indeterminate
  | items (done : Nat) (total : Option Nat)
  | bytes (done : Nat) (total : Option Nat)
deriving DecidableEq, Repr

structure TaskView where
  id : String
  parent : Option String
  kind : String
  subject : List (String × String)
  status : TaskStatus
  phase : Option String
  measure : Measure
  submittedUnixMillis : Int
deriving DecidableEq, Repr

/-- What a `Watch` stream says about tasks. -/
inductive TaskUpdate
  | snapshot (tasks : List TaskView)
  | changed (task : TaskView)
deriving DecidableEq, Repr

/-! ### What a connection reports -/

/-- What a machine needs before it can be attached to. -/
inductive Attention
  | notInstalled
  | incompatible (found : String)
  | needsLogin
deriving DecidableEq, Repr

inductive ConnectionEvent
  | attaching
  | starting
  | attached (serverVersion : String) (pid : Nat)
  | disconnected (retryAt : Instant) (reason : Option String)
  | needsAttention (attention : Attention) (retryAt : Instant)
  | tasks (update : TaskUpdate)
deriving DecidableEq, Repr

/-- What the UI asks a machine's connection to do. -/
inductive Command
  | startServer
deriving DecidableEq, Repr

/-! ### Input -/

inductive KeyEventKind
  | press
  | repeated
  | release
deriving DecidableEq, Repr

inductive KeyCode
  | char (character : Char)
  | esc
  | up
  | down
  | other
deriving DecidableEq, Repr

structure KeyEvent where
  code : KeyCode
  control : Bool
  kind : KeyEventKind
deriving DecidableEq, Repr

inductive MouseButton
  | left
  | right
  | middle
deriving DecidableEq, Repr

inductive MouseEventKind
  | down (button : MouseButton)
  | scrollDown
  | scrollUp
  | other
deriving DecidableEq, Repr

/-- Whose menu it is. -/
inductive MenuOf
  | machine (index : Nat)
  | global
deriving DecidableEq, Repr

/-- A key hint that is pressed by a click. -/
inductive Hint
  | detach
  | startServer
deriving DecidableEq, Repr

/-- What lies under the mouse. -/
inductive Spot
  | machine (index : Nat)
  | menuButton (of : MenuOf)
  | machines
  | hint (hint : Hint)
  | menu
deriving DecidableEq, Repr

structure Menu where
  of : MenuOf
  column : Nat
  row : Nat
deriving DecidableEq, Repr

/-! ### Machines -/

inductive MachineState
  | attaching
  | starting
  | attached (serverVersion : String) (pid : Nat)
  | disconnected (retryAt : Instant) (reason : Option String)
  | needsAttention (attention : Attention) (retryAt : Instant)
deriving DecidableEq, Repr

structure Machine where
  label : String
  /-- The SSH target; `none` for `local`. -/
  ssh : Option String
  state : MachineState
  tasks : List TaskView
  /-- When each settled task was seen to settle. -/
  settledAt : Table String Instant

namespace Machine

/-- Drops every settled task that has lingered its while. -/
def expire (machine : Machine) (now : Instant) : Machine :=
  let tasks := machine.tasks.filter fun task =>
    match machine.settledAt.lookup task.id with
    | none => true
    | some since => now - since < settledLinger
  { machine with tasks, settledAt := machine.settledAt.retain fun id => tasks.any (·.id = id) }

/-- What `apply` makes of a snapshot: the tasks that are shown, and when those
that have settled did. -/
def applySnapshot (machine : Machine) (now : Instant) :
    List TaskView → List TaskView × Table String Instant → List TaskView × Table String Instant
  | [], shown => shown
  | task :: snapshot, (tasks, settledAt) =>
    if task.status.isTerminal then
      let known := machine.tasks.find? (·.id = task.id)
      match known, machine.settledAt.lookup task.id with
      -- Already lingering: keep its time.
      | some _, some since =>
        machine.applySnapshot now snapshot (tasks ++ [task], settledAt.insert task.id since)
      -- Seen running, settled while this was not looking.
      | some known, none =>
        if known.status.isTerminal then machine.applySnapshot now snapshot (tasks, settledAt)
        else machine.applySnapshot now snapshot (tasks ++ [task], settledAt.insert task.id now)
      -- Never seen.
      | none, _ => machine.applySnapshot now snapshot (tasks, settledAt)
    else machine.applySnapshot now snapshot (tasks ++ [task], settledAt)

/-- Puts a task in the place of the one with its id, or at the end. -/
def replaceTask (task : TaskView) : List TaskView → List TaskView
  | [] => [task]
  | held :: tasks => if held.id = task.id then task :: tasks else held :: replaceTask task tasks

def apply (machine : Machine) (update : TaskUpdate) (now : Instant) : Machine :=
  let machine := match update with
    | .snapshot snapshot =>
      let (tasks, settledAt) := machine.applySnapshot now snapshot ([], ∅)
      { machine with tasks, settledAt }
    | .changed task =>
      let settledAt :=
        if task.status.isTerminal then
          match machine.settledAt.lookup task.id with
          | none => machine.settledAt.insert task.id now
          | some _ => machine.settledAt
        else machine.settledAt.erase task.id
      { machine with tasks := replaceTask task machine.tasks, settledAt }
  let tasks := machine.tasks.mergeSort fun a b => a.submittedUnixMillis ≤ b.submittedUnixMillis
  { machine with tasks }.expire now

end Machine

/-! ### The whole state -/

structure App where
  machines : List Machine
  selected : Nat
  menu : Option Menu
  quit : Bool

namespace App

def machineOf (label : String) (ssh : Option String) : Machine :=
  { label, ssh, state := .attaching, tasks := [], settledAt := ∅ }

/-- `local` first, then each saved machine. -/
def new (remotes : List (String × String)) : App :=
  { machines :=
      machineOf "local" none :: remotes.map fun remote => machineOf remote.1 (some remote.2)
    selected := 0
    menu := none
    quit := false }

def selectNext (app : App) : App :=
  { app with selected := min (app.selected + 1) (app.machines.length - 1) }

def selectPrevious (app : App) : App := { app with selected := app.selected - 1 }

/-- Only a disconnected machine has a server to start. -/
def startServer (app : App) : Option Command :=
  match app.machines[app.selected]? with
  | some { state := .disconnected _ _, .. } => some .startServer
  | _ => none

/-- A machine's menu selects that machine too. -/
def openMenu (app : App) (of : MenuOf) (column row : Nat) : App :=
  match of with
  | .machine index =>
    let machine := min index (app.machines.length - 1)
    { app with selected := machine, menu := some { of := .machine machine, column, row } }
  | .global => { app with menu := some { of := .global, column, row } }

/-- Applies one key, and returns the command it asks of the selected machine's
connection. -/
def onKey (app : App) (key : KeyEvent) : App × Option Command :=
  if key.kind ≠ .press then (app, none)
  else if key.code = .char 'c' ∧ key.control then ({ app with quit := true }, none)
  else if app.menu.isSome then
    if key.code = .esc ∨ key.code = .char 'q' then ({ app with menu := none }, none)
    else (app, none)
  else
    match key.code with
    | .char 'q' => ({ app with quit := true }, none)
    | .char 'j' | .down => (app.selectNext, none)
    | .char 'k' | .up => (app.selectPrevious, none)
    | .char 's' => (app, app.startServer)
    | _ => (app, none)

/-- Applies one mouse event, over `spot`. -/
def onMouse (app : App) (kind : MouseEventKind) (spot : Option Spot) (column row : Nat) :
    App × Option Command :=
  match app.menu with
  | some opened =>
    match kind with
    | .down button =>
      if spot = some .menu then (app, none)
      else
        -- Closed; but another menu's button opens that one instead.
        let app := { app with menu := none }
        match button, spot with
        | .left, some (.menuButton of) =>
          if of ≠ opened.of then (app.openMenu of column row, none) else (app, none)
        | _, _ => (app, none)
    | _ => (app, none)
  | none =>
    match kind, spot with
    | .down .left, some (.menuButton of) => (app.openMenu of column row, none)
    | .down .left, some (.machine index) =>
      ({ app with selected := min index (app.machines.length - 1) }, none)
    | .down .left, some (.hint .detach) => ({ app with quit := true }, none)
    | .down .left, some (.hint .startServer) => (app, app.startServer)
    | .scrollDown, some (.machine _) | .scrollDown, some (.menuButton _)
    | .scrollDown, some .machines => (app.selectNext, none)
    | .scrollUp, some (.machine _) | .scrollUp, some (.menuButton _)
    | .scrollUp, some .machines => (app.selectPrevious, none)
    | _, _ => (app, none)

/-- What machine `index`'s connection reported. -/
def onConnection (app : App) (index : Nat) (event : ConnectionEvent) (now : Instant) : App :=
  { app with
    machines := app.machines.modify index fun machine =>
      match event with
      | .tasks update => machine.apply update now
      | .attaching => { machine with state := .attaching }
      | .starting => { machine with state := .starting }
      | .attached serverVersion pid => { machine with state := .attached serverVersion pid }
      | .disconnected retryAt reason => { machine with state := .disconnected retryAt reason }
      | .needsAttention attention retryAt =>
        { machine with state := .needsAttention attention retryAt } }

/-- Drops every settled task that has lingered its while, of every machine. -/
def expire (app : App) (now : Instant) : App :=
  { app with machines := app.machines.map (·.expire now) }

end App

end FilePeeker.Tui
