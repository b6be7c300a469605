import FilePeeker.Tui.App
import Mathlib.Algebra.Group.Nat.Defs

/-!
# The front end and its connections

`Connection` is `tui::connection::run` for one machine: attach, follow the `Watch`
stream, and wait before the next attempt.  `World` is `tui::event_loop` with the
connections of all machines and what is on its way between them: a command
channel of 4 to each connection, an event channel of 16 from it, a task that
tags its events, and a merged channel of 64 to the UI.

Whatever may happen next is one `WorldAct`: a key, the mouse, an event that the
UI takes, a tick, or one suspension of one task.  What an attempt to attach finds
and how long the wait is are up to the environment.

`issued` is every command the user gave, with the disconnection it was given in,
and `starts` every call of `start_server`, with the command it is for; nothing
reads them.
-/

namespace FilePeeker.Tui

/-- Reconnect delays: doubling from `base`, capped at `max`. -/
structure Backoff where
  base : Nat
  max : Nat
deriving DecidableEq, Repr

namespace Backoff

/-- `DEFAULT`: from one second up to two minutes. -/
def standard : Backoff := { base := 1000000000, max := 120000000000 }

/-- The delay before attempt `attempt`, counting from zero. -/
def delay (backoff : Backoff) (attempt : Nat) : Nat :=
  let factor := if attempt < 32 then 2 ^ attempt else 2 ^ 32 - 1
  min (backoff.base * factor) backoff.max

end Backoff

/-- Why an attempt to attach did not end attached. -/
inductive Lost
  | retry (reason : Option String)
  | attention (attention : Attention)
deriving DecidableEq, Repr

/-- A command on a connection's channel, with its number among those issued. -/
structure Queued where
  command : Command
  press : Nat
deriving DecidableEq, Repr

/-- Where `run` is. -/
inductive Pc
  /-- About to send `Attaching`. -/
  | top
  /-- Waits for `attach`. -/
  | attach
  /-- About to send `Attached`. -/
  | attached (serverVersion : String) (pid : Nat)
  /-- Waits for the `Watch` stream. -/
  | watching
  /-- About to send what the stream said. -/
  | tasks (update : TaskUpdate)
  /-- About to send that the attachment is gone. -/
  | lost (event : ConnectionEvent)
  /-- Waits for the delay or a command. -/
  | waiting
  /-- Has taken a command, and is about to send `Starting`. -/
  | starting (queued : Queued)
  /-- Waits for `start_server`. -/
  | startServer
deriving DecidableEq, Repr

def commandCapacity : Nat := 4

def eventCapacity : Nat := 16

def mergedCapacity : Nat := 64

structure Connection where
  pc : Pc
  attempt : Nat
  commands : List Queued
  events : List ConnectionEvent
  /-- The event that the tagging task holds. -/
  tagged : Option ConnectionEvent
  /-- How often the attachment was lost, or could not be made. -/
  disconnections : Nat

namespace Connection

def new : Connection :=
  { pc := .top, attempt := 0, commands := [], events := [], tagged := none, disconnections := 0 }

/-- The disconnection that is in effect. -/
def inEffect (c : Connection) : Option Nat :=
  match c.pc with
  | .lost _ | .waiting | .starting _ => some c.disconnections
  | _ => none

/-- Backs off: the next attempt is at `retry_at`. -/
def lose (backoff : Backoff) (c : Connection) (lost : Lost) (now : Instant) : Connection :=
  let retryAt := now + backoff.delay c.attempt
  let event := match lost with
    | .retry reason => .disconnected retryAt reason
    | .attention attention => .needsAttention attention retryAt
  { c with
    pc := .lost event
    attempt := min (c.attempt + 1) (2 ^ 32 - 1)
    disconnections := c.disconnections + 1 }

def emit (c : Connection) (event : ConnectionEvent) (pc : Pc) : Option Connection :=
  if c.events.length < eventCapacity then some { c with events := c.events ++ [event], pc } else none

end Connection

/-- What happens next in one connection's task. -/
inductive RunAct
  /-- The event that is to be sent finds room. -/
  | send
  | attached (serverVersion : String) (pid : Nat)
  | notAttached (lost : Lost) (now : Instant)
  | update (update : TaskUpdate)
  | streamEnds (now : Instant)
  | elapse
  | command
  | serverStarted
deriving DecidableEq, Repr

namespace Connection

def run (backoff : Backoff) (c : Connection) : RunAct → Option Connection
  | .send =>
    match c.pc with
    | .top => c.emit .attaching .attach
    | .attached serverVersion pid => c.emit (.attached serverVersion pid) .watching
    | .tasks update => c.emit (.tasks update) .watching
    | .lost event => c.emit event .waiting
    | .starting _ => c.emit .starting .startServer
    | _ => none
  | .attached serverVersion pid =>
    if c.pc = .attach then some { c with pc := .attached serverVersion pid, attempt := 0 } else none
  | .notAttached lost now => if c.pc = .attach then some (c.lose backoff lost now) else none
  | .update update => if c.pc = .watching then some { c with pc := .tasks update } else none
  | .streamEnds now => if c.pc = .watching then some (c.lose backoff (.retry none) now) else none
  | .elapse => if c.pc = .waiting then some { c with pc := .top } else none
  | .command =>
    if c.pc = .waiting then
      match c.commands with
      | [] => none
      | queued :: commands => some { c with pc := .starting queued, commands }
    else none
  | .serverStarted => if c.pc = .startServer then some { c with pc := .top, attempt := 0 } else none

/-- The command that this step starts a server for. -/
def starts (c : Connection) : RunAct → Option Queued
  | .send =>
    match c.pc with
    | .starting queued => some queued
    | _ => none
  | _ => none

/-- `try_send`: a full channel drops the command. -/
def trySend (c : Connection) (queued : Queued) : Connection :=
  if c.commands.length < commandCapacity then { c with commands := c.commands ++ [queued] } else c

/-- The task that tags this machine's events. -/
def tag (c : Connection) : Option Connection :=
  match c.tagged, c.events with
  | none, event :: events => some { c with tagged := some event, events }
  | _, _ => none

end Connection

/-- A command the user gave: for which machine, and during which of its
disconnections. -/
structure Issued where
  machine : Nat
  during : Option Nat
deriving DecidableEq, Repr

/-- A call of `start_server`: of which machine, for which command, and while
which disconnection was waited out. -/
structure Start where
  machine : Nat
  press : Nat
  disconnection : Nat
deriving DecidableEq, Repr

structure World where
  app : App
  connections : List Connection
  merged : List (Nat × ConnectionEvent)
  issued : List Issued
  starts : List Start

inductive WorldAct
  | key (now : Instant) (key : KeyEvent)
  | mouse (now : Instant) (kind : MouseEventKind) (spot : Option Spot) (column row : Nat)
  | receive (now received : Instant)
  | tick (now : Instant)
  | run (index : Nat) (act : RunAct)
  | tag (index : Nat)
  | merge (index : Nat)
deriving DecidableEq, Repr

namespace World

def new (remotes : List (String × String)) : World :=
  { app := .new remotes
    connections := List.replicate (remotes.length + 1) .new
    merged := []
    issued := []
    starts := [] }

/-- `commands[app.selected()].try_send(command)`, if there is a command. -/
def issue (w : World) : App × Option Command → Option World
  | (app, none) => some { w with app }
  | (app, some command) => do
    let c ← w.connections[app.selected]?
    let queued := { command, press := w.issued.length }
    return { w with
      app
      connections := w.connections.set app.selected (c.trySend queued)
      issued := w.issued ++ [{ machine := app.selected, during := c.inEffect }] }

/-- One event of the UI or of one task.  The UI's events come after `expire`, at
the top of its loop; nothing happens once it has quit. -/
def step (w : World) (act : WorldAct) : Option World :=
  if w.app.quit then none
  else
    match act with
    | .key now key => w.issue ((w.app.expire now).onKey key)
    | .mouse now kind spot column row => w.issue ((w.app.expire now).onMouse kind spot column row)
    | .receive now received =>
      match w.merged with
      | [] => none
      | (index, event) :: merged =>
        some { w with app := (w.app.expire now).onConnection index event received, merged }
    | .tick now => some { w with app := w.app.expire now }
    | .run index act => do
      let c ← w.connections[index]?
      let c' ← c.run Backoff.standard act
      let start := (c.starts act).map fun queued =>
        { machine := index, press := queued.press, disconnection := c.disconnections }
      return { w with connections := w.connections.set index c', starts := w.starts ++ start.toList }
    | .tag index => do
      let c ← w.connections[index]?
      let c ← c.tag
      return { w with connections := w.connections.set index c }
    | .merge index => do
      let c ← w.connections[index]?
      let event ← c.tagged
      if w.merged.length < mergedCapacity then
        return { w with
          connections := w.connections.set index { c with tagged := none }
          merged := w.merged ++ [(index, event)] }
      else none

end World

end FilePeeker.Tui
