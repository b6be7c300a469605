import FilePeeker.Home.Home
import FilePeeker.Lib.Steps
import Mathlib.Logic.Function.Basic

/-!
# A server's lock and its socket files

Server processes on one machine, each with its `Home`: how `serve` takes the lock,
claims the two sockets, binds them and removes them, as `server/mod.rs` has it, and how
a `Listener` binds its socket again once the file has gone, as `server/listener.rs`
does.  `Process.step` is one step of one process; it sees the clock, whether anyone
holds the lock, and which inodes stand at its socket paths, and has one `Effect` on the
files.  `step` is one step of the machine, on which any number of processes run, crash,
and have their socket files cleaned away.

A call to the file system that can fail has the outcome as an argument.  Two paths lead
to one file where their components are the same, for links are left out; and a lock file
stays where it is.
-/

namespace FilePeeker

namespace Sockets

open FilePeeker.Path

inductive Socket
  | api
  | client
deriving DecidableEq, Repr

/-- The order `Sockets` goes through its paths in. -/
def Socket.all : List Socket := [.api, .client]

/-- The file a path leads to. -/
abbrev Place := List Component

/-! ### One process -/

/-- How far a listener is with its socket: it accepts connections, or is at a step of
`bind_again_if_gone`. -/
inductive ListenerPc
  /-- Not there yet, or no more. -/
  | off
  | accepting
  /-- The file has gone or is another: `private_dir` comes next. -/
  | preparing
  | removing
  | binding
  /-- A new socket is bound, and its inode is still to be read. -/
  | settling
deriving DecidableEq, Repr

structure Listener where
  pc : ListenerPc
  /-- The inode bound, to tell this server's socket from a file put in its place. -/
  inode : Nat
deriving DecidableEq, Repr

/-- Where `acquire_lock` stands in a round of its loop. -/
inductive AcquirePc
  | tryLock
  /-- The lock is held: the first look for the client socket, then the clock. -/
  | firstLook
  | clock
  | asleep (wakeAt : Instant)
  | secondLook
deriving DecidableEq, Repr

/-- The errors `serve` ends with; those of the system with what was being done. -/
inductive ServerError
  | alreadyRunning (dir : Bytes)
  | socketUnseen (dir socket : Bytes)
  | socketPathTooLong (why : Text)
  | io (context : Text)
  | grpc
deriving DecidableEq, Repr

inductive Phase
  | idle
  /-- The directories are there, and the lock file is to be opened. -/
  | opening
  | acquiring (deadline : Instant) (pc : AcquirePc)
  /-- The lock is taken: `Sockets::claim` comes next. -/
  | locked
  /-- In `Sockets::claim`, with the socket files still to remove. -/
  | claiming (left : List Socket)
  /-- In `Listener::bind` of one socket; with `bound`, its inode is still to be read. -/
  | binding (socket : Socket) (bound : Bool)
  | serving
  /-- Waiting for the two services to end, up to the deadline of the stop. -/
  | stopping (deadline : Instant)
  /-- In `Sockets::drop`, with the socket files still to remove; then the lock. -/
  | dropping (left : List Socket) (result : Except ServerError Unit)
  | ended (result : Except ServerError Unit)
  | crashed

structure Process where
  phase : Phase
  api : Listener
  client : Listener
  /-- The token of the stop. -/
  shutdown : Bool

/-- `SHUTDOWN_TIMEOUT`, in milliseconds. -/
def shutdownTimeout : Nat := 5000

/-- `LOCK_GRACE`. -/
def lockGrace : Nat := 1000

/-- `LOCK_POLL`. -/
def lockPoll : Nat := 10

/-- What a process sees of the machine. -/
structure View where
  now : Instant
  /-- Whether a process holds the lock. -/
  held : Bool
  /-- What `symlink_metadata` says of the inode at a socket's path. -/
  inode : Socket → Option Nat

/-- What a step does to the lock and the socket files. -/
inductive Effect
  | none
  | take
  | free
  | remove (socket : Socket)
  | create (socket : Socket) (inode : Nat)
deriving DecidableEq, Repr

/-- One step of a process. -/
inductive Op
  /-- `Home::create`. -/
  | create (ok : Bool)
  | openLock (ok : Bool)
  | tryLock (ok : Bool)
  /-- `client_socket().exists()`. -/
  | look
  | readClock
  | wake
  /-- `check_sockets`. -/
  | claim
  | removeStale (ok : Bool)
  | bind (inode : Nat) (ok : Bool)
  /-- Sets the mode of the socket just bound, and reads its inode. -/
  | settle (ok : Bool)
  | shutdown
  /-- `serve` sees the shutdown. -/
  | stop
  /-- Both services have ended; the client protocol's one perhaps in an error. -/
  | join (grpc : Bool)
  /-- The deadline of the stop has passed. -/
  | giveUp
  | removeOwn (ok : Bool)
  /-- Drops the lock. -/
  | release
  | crash
  /-- The process is gone, some time after `serve` has returned. -/
  | exit
  /-- The tick of a listener: looks at the file. -/
  | check (socket : Socket) (ok : Bool)
  | prepare (socket : Socket) (ok : Bool)
  | removeGone (socket : Socket) (ok : Bool)
  | bindAgain (socket : Socket) (inode : Nat) (ok : Bool)
  | settleAgain (socket : Socket) (ok : Bool)
  /-- A service polls its listener no more, after the shutdown. -/
  | leave (socket : Socket)
deriving DecidableEq, Repr

namespace Process

def start : Process := ⟨.idle, ⟨.off, 0⟩, ⟨.off, 0⟩, false⟩

def listener (p : Process) : Socket → Listener
  | .api => p.api
  | .client => p.client

def setListener (p : Process) (l : Listener) : Socket → Process
  | .api => { p with api := l }
  | .client => { p with client := l }

def enter (p : Process) (phase : Phase) : Process := { p with phase }

/-- Both listeners off, as when their process is gone. -/
def silenced (p : Process) : Process :=
  { p with api := { p.api with pc := .off }, client := { p.client with pc := .off } }

def ioError (doing : String) (path : Bytes) : Except ServerError Unit :=
  .error (.io (doing.toList ++ fromUtf8Lossy path))

end Process

/-- Between taking the lock and releasing it. -/
def Phase.holds : Phase → Bool
  | locked | claiming _ | binding .. | serving | stopping _ | dropping .. => true
  | idle | opening | acquiring .. | ended _ | crashed => false

/-- `serve` has been called and has not returned. -/
def Phase.running : Phase → Bool
  | idle | ended _ | crashed => false
  | opening | acquiring .. | locked | claiming _ | binding .. | serving | stopping _
  | dropping .. => true

end Sockets

namespace Home

open Sockets

def socketPath (home : Home) : Socket → Bytes
  | .api => home.apiSocket
  | .client => home.clientSocket

end Home

namespace Sockets

open FilePeeker.Path

namespace Process

/-- One step of a process whose files are where `home` says. -/
def step (home : Home) (v : View) (p : Process) : Op → Option (Process × Effect)
  | .create ok =>
    match p.phase with
    | .idle => some (p.enter (if ok then .opening
        else .ended (ioError "cannot create " home.dir)), .none)
    | _ => none
  | .openLock ok =>
    match p.phase with
    | .opening => some (p.enter (if ok then .acquiring (v.now + lockGrace) .tryLock
        else .ended (ioError "cannot open " home.lock)), .none)
    | _ => none
  | .tryLock ok =>
    match p.phase with
    | .acquiring deadline .tryLock =>
      if ¬ ok then some (p.enter (.ended (ioError "cannot lock " home.lock)), .none)
      else if v.held then some (p.enter (.acquiring deadline .firstLook), .none)
      else some (p.enter .locked, .take)
    | _ => none
  | .look =>
    match p.phase with
    | .acquiring deadline .firstLook =>
      some (p.enter (.acquiring deadline
        (if v.inode .client = none then .clock else .secondLook)), .none)
    | .acquiring _ .secondLook =>
      some (p.enter (.ended (.error (if v.inode .client = none
        then .socketUnseen home.dir home.clientSocket else .alreadyRunning home.dir))), .none)
    | _ => none
  | .readClock =>
    match p.phase with
    | .acquiring deadline .clock =>
      some (p.enter (.acquiring deadline
        (if v.now < deadline then .asleep (v.now + lockPoll) else .secondLook)), .none)
    | _ => none
  | .wake =>
    match p.phase with
    | .acquiring deadline (.asleep wakeAt) =>
      if wakeAt ≤ v.now then some (p.enter (.acquiring deadline .tryLock), .none) else none
    | _ => none
  | .claim =>
    match p.phase with
    | .locked =>
      match home.checkSockets with
      | .ok () => some (p.enter (.claiming Socket.all), .none)
      | .error why => some (p.enter (.dropping [] (.error (.socketPathTooLong why))), .none)
    | _ => none
  | .removeStale ok =>
    match p.phase with
    | .claiming (socket :: left) =>
      if ok then
        some (p.enter (if left = [] then .binding .api false else .claiming left), .remove socket)
      -- `sockets` is dropped as `claim` returns.
      else some (p.enter (.dropping Socket.all
        (ioError "cannot remove stale " (home.socketPath socket))), .none)
    | _ => none
  | .bind inode ok =>
    match p.phase with
    | .binding socket false =>
      if ok ∧ v.inode socket = none then
        some (p.enter (.binding socket true), .create socket inode)
      else some (p.enter (.dropping Socket.all
        (ioError "cannot bind " (home.socketPath socket))), .none)
    | _ => none
  | .settle ok =>
    match p.phase with
    | .binding socket true =>
      match ok, v.inode socket, socket with
      | true, some inode, .api =>
        some ((p.setListener ⟨.off, inode⟩ .api).enter (.binding .client false), .none)
      -- Both are bound, and the two services start.
      | true, some inode, .client =>
        some ({ p with
          phase := .serving
          api := { p.api with pc := .accepting }
          client := ⟨.accepting, inode⟩ }, .none)
      | _, _, socket => some (p.enter (.dropping Socket.all
        (ioError "cannot bind " (home.socketPath socket))), .none)
    | _ => none
  | .shutdown => some ({ p with shutdown := true }, .none)
  | .stop =>
    match p.phase with
    | .serving =>
      if p.shutdown then some (p.enter (.stopping (v.now + shutdownTimeout)), .none) else none
    | _ => none
  | .join grpc =>
    match p.phase with
    | .stopping _ =>
      if p.api.pc = .off ∧ p.client.pc = .off then
        some (p.enter (.dropping Socket.all (if grpc then .error .grpc else .ok ())), .none)
      else none
    | _ => none
  | .giveUp =>
    match p.phase with
    | .stopping deadline =>
      if deadline ≤ v.now then some (p.enter (.dropping Socket.all (.ok ())), .none) else none
    | _ => none
  | .removeOwn ok =>
    match p.phase with
    | .dropping (socket :: left) result =>
      some (p.enter (.dropping left result), if ok then .remove socket else .none)
    | _ => none
  | .release =>
    match p.phase with
    | .dropping [] result => some (p.enter (.ended result), .free)
    | _ => none
  | .crash =>
    if p.phase.running then
      some (p.silenced.enter .crashed, if p.phase.holds then .free else .none)
    else none
  | .exit =>
    match p.phase with
    | .ended _ => some (p.silenced, .none)
    | _ => none
  | .check socket ok =>
    match p.listener socket with
    | ⟨.accepting, own⟩ =>
      if ok ∧ v.inode socket ≠ some own then
        some (p.setListener ⟨.preparing, own⟩ socket, .none)
      else some (p, .none)
    | _ => none
  | .prepare socket ok =>
    match p.listener socket with
    | ⟨.preparing, own⟩ =>
      some (p.setListener ⟨if ok then .removing else .accepting, own⟩ socket, .none)
    | _ => none
  | .removeGone socket ok =>
    match p.listener socket with
    | ⟨.removing, own⟩ =>
      if ok then some (p.setListener ⟨.binding, own⟩ socket, .remove socket)
      else some (p.setListener ⟨.accepting, own⟩ socket, .none)
    | _ => none
  | .bindAgain socket inode ok =>
    match p.listener socket with
    | ⟨.binding, own⟩ =>
      if ok ∧ v.inode socket = none then
        some (p.setListener ⟨.settling, own⟩ socket, .create socket inode)
      else some (p.setListener ⟨.accepting, own⟩ socket, .none)
    | _ => none
  | .settleAgain socket ok =>
    match p.listener socket with
    | ⟨.settling, own⟩ =>
      some (p.setListener ⟨.accepting,
        if ok then (v.inode socket).getD own else own⟩ socket, .none)
    | _ => none
  | .leave socket =>
    match p.listener socket with
    | ⟨.accepting, own⟩ =>
      if p.shutdown then some (p.setListener ⟨.off, own⟩ socket, .none) else none
    | _ => none

end Process

/-! ### The machine -/

/-- A socket file, and the process that bound it; `none` is one from before. -/
structure SocketFile (ι : Type*) where
  owner : Option ι
  inode : Nat
deriving DecidableEq, Repr

structure World (ι : Type*) where
  now : Instant
  /-- Who holds the lock on a file. -/
  locks : Place → Option ι
  files : Place → Option (SocketFile ι)
  processes : ι → Process

inductive Action (ι : Type*)
  | process (i : ι) (op : Op)
  /-- A cleaner removes a socket file. -/
  | clean (place : Place)
  | pass (time : Nat)

end Sockets

namespace Home

open Sockets FilePeeker.Path

def socketPlace (home : Home) (socket : Socket) : Place := components (home.socketPath socket)

def lockPlace (home : Home) : Place := components home.lock

end Home

namespace Sockets

variable {ι : Type*} [DecidableEq ι]

namespace World

def view (home : Home) (w : World ι) : View where
  now := w.now
  held := (w.locks home.lockPlace).isSome
  inode socket := (w.files (home.socketPlace socket)).map SocketFile.inode

def apply (home : Home) (i : ι) (w : World ι) : Effect → World ι
  | .none => w
  | .take => { w with locks := Function.update w.locks home.lockPlace (some i) }
  | .free => { w with locks := Function.update w.locks home.lockPlace none }
  | .remove socket => { w with files := Function.update w.files (home.socketPlace socket) none }
  | .create socket inode =>
    { w with files := Function.update w.files (home.socketPlace socket) (some ⟨some i, inode⟩) }

def setProcess (w : World ι) (i : ι) (p : Process) : World ι :=
  { w with processes := Function.update w.processes i p }

end World

/-- One step of the machine, where `homes` are the homes of its processes. -/
def step (homes : ι → Home) (w : World ι) : Action ι → Option (World ι)
  | .process i op =>
    ((w.processes i).step (homes i) (w.view (homes i)) op).map fun (p, effect) =>
      (w.apply (homes i) i effect).setProcess i p
  | .clean place => some { w with files := Function.update w.files place none }
  | .pass time => some { w with now := w.now + time }

end Sockets

end FilePeeker
