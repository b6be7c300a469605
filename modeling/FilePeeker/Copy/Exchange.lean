import FilePeeker.Copy.Pipeline
import FilePeeker.Lib.Steps
import FilePeeker.Path.Join
import FilePeeker.Wire.Listings

/-!
# A write between two hosts

`write_file` of the client and `write_file` of the server, with what is on its way between
them.  The transport polls the client's frames one by one; the server takes them as they
come, writes and publishes, and its response goes back.  Either end can lose the connection
at any moment: the frames that were on their way are cut off behind some of them, the call of
the client ends with a status, or the server's handler is dropped, and the publishing that
was on its way may still happen.  Every step of the server that reaches the file system, or
finds the service cancelled, can fail.

What is published is always all of the source, a source that failed is never published, and
what the client reports is what was published; and where the client's call was not broken
off, an error means that nothing was published, or will be (`Copy/Delivered.lean`).
-/

namespace FilePeeker

open FilePeeker.Path

namespace Copy

/-! ### What goes back and forth -/

structure WriteResponse where
  path : Str
  /-- A `u64`. -/
  bytesWritten : Nat

structure WriteResult where
  path : PathString
  bytesWritten : Nat

inductive WriteConflict
  | failIfExists
  | replace
deriving DecidableEq, Repr

def WriteConflict.toWire : WriteConflict → Int
  | .failIfExists => 1
  | .replace => 2

def WriteConflict.tryFrom (n : Int) : Option WriteConflict :=
  if n = 1 then some .failIfExists else if n = 2 then some .replace else none

/-- What a header asks for. -/
structure Target where
  directory : PathString
  name : PathString
  conflict : WriteConflict

def Target.header (target : Target) : WriteHeader :=
  ⟨target.directory.escaped, target.name.escaped, target.conflict.toWire⟩

/-! ### The server -/

namespace Server

def wirePath (path : Str) : Except Status PathString :=
  (PathString.fromEscaped path).mapError fun error =>
    fsStatus ⟨.invalidArgument,
      "path is not correctly escaped: " ++ String.ofList (Fs.escapeErrorText error)⟩

/-- `display` is how `tonic` shows a status. -/
def streamStatus (display : Status → String) (status : Status) : Status :=
  if status.code = .cancelled then status
  else ⟨.invalidArgument, "cannot read write stream: " ++ display status⟩

/-- The first frame of a write. -/
def takeHeader (display : Status → String) : Except Status WriteFrame → Except Status Target
  | .error status => .error (streamStatus display status)
  | .ok ⟨some (.header header)⟩ =>
    match WriteConflict.tryFrom header.conflict with
    | none => .error ⟨.invalidArgument, "unknown write conflict policy"⟩
    | some conflict => do
      let directory ← wirePath header.directory
      let name ← wirePath header.name
      return ⟨directory, name, conflict⟩
  | .ok _ => .error ⟨.invalidArgument, "first write frame must be a header"⟩

end Server

/-- The path of a destination: a resolved directory's, with a name. -/
abbrev Destination := { path : Bytes // isAbsolute path = true }

/-- Where the server's handler is.  `written` is what is in the partial file. -/
inductive ServerPc
  | header
  | preparing (target : Target)
  | writing (destination : Destination) (bytesWritten : Nat) (written : Bytes)
  | flushing (destination : Destination) (bytesWritten : Nat) (written : Bytes)
  | publishing (destination : Destination) (bytesWritten : Nat) (written : Bytes)
  | published (destination : Destination) (bytesWritten : Nat)
  /-- Dropped while the partial file's rename or link is on its way. -/
  | late (written : Bytes)
  | ended

/-! ### The client -/

namespace Client

/-- The end of `write_file`: what the client makes of the response, or of a call that
failed. -/
def conclude (request : Request) (response : Except Status WriteResponse) :
    Except ClientError WriteResult :=
  match request.sourceError with
  | some error => .error error
  | none =>
    match response with
    | .error status => .error (operationStatusError status)
    | .ok response =>
      if isAbsolute response.path.bytes then
        if response.bytesWritten = request.bytesSent then
          ((Wire.Client.wirePath response.path "written path").mapError
            Wire.Client.InvalidData.toError).map (⟨·, response.bytesWritten⟩)
        else .error ⟨.invalidData, "server reported " ++ toString response.bytesWritten ++
          " written bytes after client sent " ++ toString request.bytesSent⟩
      else .error ⟨.invalidData, "server returned a non-absolute write path"⟩

end Client

/-! ### Both, and what is between them -/

structure Exchange where
  request : Request
  /-- The client's frames have not ended. -/
  asks : Bool
  /-- The frames that were polled. -/
  sent : List WriteFrame
  /-- What is on its way to the server, and comes in in this order. -/
  inbox : List (Except Status WriteFrame)
  /-- Behind the inbox nothing more comes. -/
  closed : Bool
  pc : ServerPc
  published : Option Bytes
  reply : Option (Except Status WriteResponse)
  answer : Option (Except ClientError WriteResult)

namespace Exchange

inductive Action
  /-- The transport polls the client's frames. -/
  | pull
  /-- The server's end of the connection fails, behind so many items. -/
  | lose (keep : Nat) (status : Status)
  /-- The client's call fails. -/
  | breakOff (status : Status)
  | receive
  | readHeader
  /-- The name, the directory and the partial file are in order. -/
  | prepare (destination : Destination)
  | readData
  | flush
  | publish
  | respond
  /-- What the server does next fails, or finds the service cancelled. -/
  | fail (error : FsError)
  /-- The server's handler is dropped. -/
  | drop

def Action.breaks : Action → Bool
  | .breakOff _ => true
  | _ => false

/-- What a pull of the frames would give is known. -/
def decided (e : Exchange) : Bool :=
  e.closed || match e.inbox with
    | [] | [.ok ⟨some .commit⟩] => false
    | _ => true

def respondWith (e : Exchange) (response : Except Status WriteResponse) : Exchange :=
  { e with pc := .ended, reply := some response }

/-- What the server makes of the next of its data. -/
def takeData (e : Exchange) (destination : Destination) (bytesWritten : Nat) (written : Bytes) :
    Exchange :=
  match validatedNext (some e.inbox) with
  | .done _ => { e with inbox := [], pc := .flushing destination bytesWritten written }
  | .item (.error error) _ => e.respondWith (.error (fsStatus error))
  | .item (.ok data) frames =>
    if data = [] then
      e.respondWith (.error (fsStatus ⟨.invalidArgument, "source emitted an empty data chunk"⟩))
    else if bytesWritten + data.length < 2 ^ 64 then
      { e with
        inbox := frames.getD []
        pc := .writing destination (bytesWritten + data.length) (written ++ data) }
    else e.respondWith (.error (fsStatus ⟨.internal, "written byte count overflowed"⟩))

def pulled (e : Exchange) : Exchange :=
  match e.request.next with
  | .item frame request =>
    { e with
      request
      sent := e.sent ++ [frame]
      inbox := if e.closed then e.inbox else e.inbox ++ [.ok frame] }
  | .done request => { e with request, asks := false, closed := true }

def step (display : Status → String) (e : Exchange) : Action → Option Exchange
  | .pull => if e.asks ∧ e.answer.isNone then some e.pulled else none
  | .lose keep status =>
    some { e with inbox := e.inbox.take keep ++ [.error status], closed := true }
  | .breakOff status =>
    match e.answer with
    | none => some { e with answer := some (Client.conclude e.request (.error status)) }
    | some _ => none
  | .receive =>
    match e.answer, e.reply with
    | none, some response => some { e with answer := some (Client.conclude e.request response) }
    | _, _ => none
  | .readHeader =>
    match e.pc, e.inbox with
    | .header, item :: inbox =>
      match Server.takeHeader display item with
      | .ok target => some { e with inbox, pc := .preparing target }
      | .error status => some (e.respondWith (.error status))
    | .header, [] =>
      if e.closed then
        some (e.respondWith (.error ⟨.invalidArgument, "write stream is missing a header"⟩))
      else none
    | _, _ => none
  | .prepare destination =>
    match e.pc with
    | .preparing _ => some { e with pc := .writing destination 0 [] }
    | _ => none
  | .readData =>
    match e.pc with
    | .writing destination bytesWritten written =>
      if e.decided then some (e.takeData destination bytesWritten written) else none
    | _ => none
  | .flush =>
    match e.pc with
    | .flushing destination bytesWritten written =>
      some { e with pc := .publishing destination bytesWritten written }
    | _ => none
  | .publish =>
    match e.pc with
    | .publishing destination bytesWritten written =>
      some { e with pc := .published destination bytesWritten, published := some written }
    | .late written => some { e with pc := .ended, published := some written }
    | _ => none
  | .respond =>
    match e.pc with
    | .published destination bytesWritten =>
      some (e.respondWith (.ok ⟨(PathString.ofBytes destination.1).escaped, bytesWritten⟩))
    | _ => none
  | .fail error =>
    match e.pc with
    | .preparing _ | .writing .. | .flushing .. | .publishing .. =>
      some (e.respondWith (.error (fsStatus error)))
    | _ => none
  | .drop =>
    match e.pc with
    | .publishing _ _ written => some { e with pc := .late written }
    | _ => some { e with pc := .ended }

/-- A write that has not begun. -/
def start (source : List (Except ClientError Bytes)) (target : Target) : Exchange where
  request := ⟨.header source target.header, none, 0⟩
  asks := true
  sent := []
  inbox := []
  closed := false
  pc := .header
  published := none
  reply := none
  answer := none

end Exchange

end Copy

end FilePeeker
