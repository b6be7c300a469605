import FilePeeker.Lib.RwLock
import FilePeeker.Lib.Steps
import FilePeeker.Lib.Table

/-!
# The connections of a client

`Client` of the older crate, `client/mod.rs`, and what `client/connection/mod.rs` does to a
server: a registry of slots, each with a lock of its own and at most one connection in it.
Any number of calls run at once; each is a `Party`, and a step is what one of them does
between two points where it waits or asks for a lock.  The registry's own lock is never held
over such a point, so what is done under it is one step; a slot's lock is (`RwLock`), and a
call that has found a slot asks for its lock in a step of its own.

A call may be dropped wherever it waits.  What it held is dropped with it: a slot that
nothing refers to any more drops its connection, which aborts the server.  Of a server that
is still being connected to the one over SSH goes with its process, and the one in this
process is not told (`dropped`, `lost`).

Servers and slots are numbered as they come to be, and a connection is its server.
`started`, `stops`, `lost`, `taken` and `closed` are the history of a run; no call reads them.
-/

namespace FilePeeker.Connections

/-- The kinds of I/O error the client makes, and the rest. -/
inductive ErrorKind
  | notConnected
  | alreadyExists
  | unlisted (code : Nat)
deriving DecidableEq, Repr

structure IoError where
  kind : ErrorKind
  message : String
deriving DecidableEq, Repr

def connectionClosed : IoError := ⟨.notConnected, "connection is closed"⟩

def duplicateUuid : IoError := ⟨.alreadyExists, "generated duplicate connection UUID"⟩

/-- Where a server runs. -/
inductive ServerLocation
  | embedded
  | ssh
deriving DecidableEq, Repr

/-- How a server was told to stop: by `shutdown`, which waits for it, by `abort_server`, or
with the SSH process that carried it. -/
inductive Stop
  | shutdown
  | abort
  | kill
deriving DecidableEq, Repr

/-- `ConnectionSlot`: `connection` is `none` once it is closed. -/
structure Slot where
  connection : Option Nat
  lock : RwLock Nat

/-- How a call ended. -/
inductive Outcome (κ : Type)
  | opened (id : κ)
  | failed (error : IoError)
  | served
  | closed (result : Except IoError Unit)
  | dropped

/-- One call, and where it waits. -/
inductive Party (κ : Type)
  /-- In `ServerConnection::open`, before the server is up. -/
  | opening (location : ServerLocation)
  /-- In `ServerConnection::connected`, for the channel and the health check. -/
  | connecting (server : Nat)
  | inserting (server : Nat)
  /-- Shutting down a connection whose ID is there already. -/
  | discarding
  | looking (id : κ)
  /-- With the slot of its ID, before `read_owned`. -/
  | found (slot : Nat)
  /-- In `read_owned`. -/
  | waiting (slot : Nat)
  /-- Holding a `ConnectionGuard`. -/
  | holding (slot : Nat)
  | removing (id : κ)
  | draining
  /-- In `close_slot` of the first slot, before its `write`. -/
  | approaching (slot : Nat) (rest : List Nat) (firstError : Option IoError)
  /-- In `close_slot` of the first slot, waiting for its lock. -/
  | emptying (slot : Nat) (rest : List Nat) (firstError : Option IoError)
  /-- In `close_slot`, waiting for the server of the slot it emptied to stop. -/
  | stopping (slot : Nat) (rest : List Nat) (firstError : Option IoError)
  | ended (outcome : Outcome κ)

namespace Party

variable {κ : Type}

/-- The server a call has to itself. -/
def inHand : Party κ → Option Nat
  | connecting server | inserting server => some server
  | _ => none

/-- The slots a call refers to. -/
def slots : Party κ → List Nat
  | found slot | waiting slot | holding slot => [slot]
  | approaching slot rest _ | emptying slot rest _ => slot :: rest
  | stopping _ rest _ => rest
  | _ => []

/-- Where a call stands with the lock of a slot. -/
def place (p : Party κ) (slot : Nat) : Option LockPlace :=
  match p with
  | waiting s => if s = slot then some (.waits .read) else none
  | holding s => if s = slot then some (.holds .read) else none
  | emptying s _ _ => if s = slot then some (.waits .write) else none
  | _ => none

end Party

structure World (κ : Type) [DecidableEq κ] where
  connections : Table κ Nat
  slots : List Slot
  parties : List (Party κ)
  /-- The servers that were started, by where they run. -/
  started : List ServerLocation
  stops : List (Nat × Stop)
  /-- The servers that nothing will stop. -/
  lost : List Nat
  /-- The slots a `close` or a `close_all` took out of the registry. -/
  taken : List (Nat × List Nat)
  /-- What `close_slot` returned to a call for a slot. -/
  closed : List (Nat × Nat × Except IoError Unit)

/-- A call of one of the client's functions. -/
inductive Call (κ : Type)
  | openAt (location : ServerLocation)
  | request (id : κ)
  | close (id : κ)
  | closeAll

/-- What a call does next, with what it is answered. -/
inductive Op (κ : Type)
  | startFailed (error : IoError)
  | started
  | connectFailed (error : IoError)
  | connected
  | insert (id : κ)
  | discarded
  | look
  /-- `read_owned` or `write` of the slot it has, up to the point where it waits. -/
  | ask
  | acquire
  | release
  | remove
  | drain (order : List Nat)
  | take
  | stopped (result : Except IoError Unit)
  | drop

inductive Action (κ : Type)
  | call (call : Call κ)
  | perform (party : Nat) (op : Op κ)

def Call.party {κ : Type} : Call κ → Party κ
  | openAt location => .opening location
  | request id => .looking id
  | close id => .removing id
  | closeAll => .draining

/-- `first_error.map_or(Ok(()), Err)`. -/
def resultOf : Option IoError → Except IoError Unit
  | none => .ok ()
  | some error => .error error

/-- The error that is kept: the first. -/
def keepFirst (firstError : Option IoError) : Except IoError Unit → Option IoError
  | .ok () => firstError
  | .error error => firstError.or (some error)

/-- A call that closes slots, after it closed one or took them: `close_slot` of the first
there is, or its end. -/
def Party.next {κ : Type} (slots : List Nat) (firstError : Option IoError) : Party κ :=
  match slots with
  | [] => .ended (.closed (resultOf firstError))
  | s :: rest => .approaching s rest firstError

namespace World

variable {κ : Type} [DecidableEq κ]

def start : World κ where
  connections := ∅
  slots := []
  parties := []
  started := []
  stops := []
  lost := []
  taken := []
  closed := []

def setParty (w : World κ) (i : Nat) (p : Party κ) : World κ :=
  { w with parties := w.parties.set i p }

def setSlot (w : World κ) (s : Nat) (slot : Slot) : World κ :=
  { w with slots := w.slots.set s slot }

def stop (w : World κ) (server : Nat) (how : Stop) : World κ :=
  { w with stops := w.stops ++ [(server, how)] }

/-- `read_owned` or `write` of a slot, up to the point where it waits. -/
def ask (w : World κ) (s : Nat) (i : Nat) (access : Access) : World κ :=
  match w.slots[s]? with
  | none => w
  | some slot => w.setSlot s { slot with lock := slot.lock.ask i access }

/-- A guard of a slot is dropped, or a wait for one. -/
def leave (w : World κ) (s : Nat) (i : Nat) : World κ :=
  match w.slots[s]? with
  | none => w
  | some slot => w.setSlot s { slot with lock := slot.lock.leave i }

/-- Some `Arc` of the slot is there. -/
def Referenced (w : World κ) (s : Nat) : Prop :=
  s ∈ w.connections.values ∨ ∃ p ∈ w.parties, s ∈ p.slots

instance (w : World κ) (s : Nat) : Decidable (w.Referenced s) :=
  inferInstanceAs (Decidable (_ ∨ _))

/-- A reference to the slot is dropped, and with the last of them its connection. -/
def letGo (w : World κ) (s : Nat) : World κ :=
  match w.slots[s]? with
  | some ⟨some server, lock⟩ =>
    if w.Referenced s then w else (w.setSlot s ⟨none, lock⟩).stop server .abort
  | _ => w

def letAllGo (w : World κ) (slots : List Nat) : World κ := slots.foldl letGo w

/-- A new slot, with its connection, under an ID. -/
def register (w : World κ) (id : κ) (server : Nat) : World κ :=
  { w with
    connections := w.connections.insert id w.slots.length
    slots := w.slots ++ [{ connection := some server, lock := .free }] }

/-- `close_slot` returns. -/
def closedSlot (w : World κ) (i : Nat) (s : Nat) (rest : List Nat)
    (firstError : Option IoError) (result : Except IoError Unit) : World κ :=
  { w with closed := w.closed ++ [(i, s, result)] }.setParty i
    (.next rest (keepFirst firstError result))

/-- What is dropped with a call. -/
def dropped (w : World κ) (i : Nat) (p : Party κ) : World κ :=
  let w' := w.setParty i (.ended .dropped)
  match p with
  | .connecting server =>
    match w.started[server]? with
    | some .ssh => w'.stop server .kill
    | _ => { w' with lost := w'.lost ++ [server] }
  | .inserting server => w'.stop server .abort
  | .found s => w'.letGo s
  | .waiting s | .holding s => (w'.leave s i).letGo s
  | .approaching s rest _ => w'.letAllGo (s :: rest)
  | .emptying s rest _ => (w'.leave s i).letAllGo (s :: rest)
  | .stopping _ rest _ => w'.letAllGo rest
  | _ => w'

def perform (w : World κ) (i : Nat) (op : Op κ) : Option (World κ) :=
  match w.parties[i]?, op with
  | some (.opening _), .startFailed error => some (w.setParty i (.ended (.failed error)))
  | some (.opening location), .started =>
    some ({ w with started := w.started ++ [location] }.setParty i (.connecting w.started.length))
  | some (.connecting server), .connectFailed error =>
    some ((w.stop server .abort).setParty i (.ended (.failed error)))
  | some (.connecting server), .connected => some (w.setParty i (.inserting server))
  | some (.inserting server), .insert id =>
    match w.connections.lookup id with
    | none =>
      some ((w.register id server).setParty i (.ended (.opened id)))
    | some _ => some ((w.stop server .shutdown).setParty i .discarding)
  | some .discarding, .discarded => some (w.setParty i (.ended (.failed duplicateUuid)))
  | some (.looking id), .look =>
    match w.connections.lookup id with
    | none => some (w.setParty i (.ended (.failed connectionClosed)))
    | some s => some (w.setParty i (.found s))
  | some (.found s), .ask => some ((w.ask s i .read).setParty i (.waiting s))
  | some (.waiting s), .acquire =>
    match w.slots[s]? with
    | none => none
    | some slot =>
      (slot.lock.enter i).map fun lock =>
        match slot.connection with
        | some _ => (w.setSlot s { slot with lock }).setParty i (.holding s)
        | none =>
          (w.setSlot s { slot with lock := lock.leave i }).setParty i
            (.ended (.failed connectionClosed))
  | some (.holding s), .release => some (((w.leave s i).setParty i (.ended .served)).letGo s)
  | some (.removing id), .remove =>
    match w.connections.lookup id with
    | none => some (w.setParty i (.ended (.closed (.ok ()))))
    | some s =>
      some
        ({ w with
            connections := w.connections.erase id
            taken := w.taken ++ [(i, [s])] }.setParty i (.next [s] none))
  | some .draining, .drain order =>
    -- A hash map is drained in no particular order.
    if order.Perm w.connections.values then
      some
        ({ w with connections := ∅, taken := w.taken ++ [(i, order)] }.setParty i
          (.next order none))
    else none
  | some (.approaching s rest firstError), .ask =>
    some ((w.ask s i .write).setParty i (.emptying s rest firstError))
  | some (.emptying s rest firstError), .take =>
    match w.slots[s]? with
    | none => none
    | some slot =>
      (slot.lock.pass i).map fun lock =>
        match slot.connection with
        | none => (w.setSlot s ⟨none, lock⟩).closedSlot i s rest firstError (.ok ())
        | some server =>
          ((w.setSlot s ⟨none, lock⟩).stop server .shutdown).setParty i
            (.stopping s rest firstError)
  | some (.stopping s rest firstError), .stopped result =>
    some (w.closedSlot i s rest firstError result)
  | some (.ended _), .drop => none
  | some p, .drop => some (w.dropped i p)
  | _, _ => none

def step (w : World κ) : Action κ → Option (World κ)
  | .call call => some { w with parties := w.parties ++ [call.party] }
  | .perform i op => w.perform i op

end World

end FilePeeker.Connections
