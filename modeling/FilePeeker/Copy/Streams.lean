import FilePeeker.Lib.Pull
import FilePeeker.Lib.Results
import FilePeeker.Path.PathString
import Mathlib.Algebra.Group.Nat.Defs

/-!
# The streams of a copy

A copy reads a file on one host and writes it on another, and the bytes go through four
streams: `read_chunks` of the source's server, `network_read_stream` and
`request_stream` of the client, and `validated_data_stream` of the destination's server.
Each is a `stream::unfold`, written here as its step function with the state it has in
the source.  A stream that comes in is the list of its items, and ends after the last.

At the end is what `write_file` of the destination makes of its source: it publishes
nothing unless the source ends without an error.
-/

namespace FilePeeker

namespace Copy

/-- `FILE_DATA_CHUNK_MAX_BYTES`. -/
def fileDataChunkMaxBytes : Nat := 64 * 1024

/-! ### Errors -/

inductive FsErrorKind
  | invalidArgument
  | alreadyExists
  | notFound
  | permissionDenied
  | notDirectory
  | notFile
  | cancelled
  | internal
deriving DecidableEq, Repr

structure FsError where
  kind : FsErrorKind
  message : String
deriving DecidableEq, Repr

/-- `tonic::Code`. -/
inductive Code
  | ok
  | cancelled
  | unknown
  | invalidArgument
  | deadlineExceeded
  | notFound
  | alreadyExists
  | permissionDenied
  | resourceExhausted
  | failedPrecondition
  | aborted
  | outOfRange
  | unimplemented
  | internal
  | unavailable
  | dataLoss
  | unauthenticated
deriving DecidableEq, Repr

structure Status where
  code : Code
  message : String
deriving DecidableEq, Repr

/-- The kinds of `io::Error` the client makes. -/
inductive ClientErrorKind
  | notFound
  | permissionDenied
  | invalidInput
  | alreadyExists
  | notADirectory
  | isADirectory
  | interrupted
  | timedOut
  | connectionAborted
  | invalidData
  | other
deriving DecidableEq, Repr

structure ClientError where
  kind : ClientErrorKind
  message : String
deriving DecidableEq, Repr

def fsStatus (error : FsError) : Status where
  code := match error.kind with
    | .invalidArgument => .invalidArgument
    | .alreadyExists => .alreadyExists
    | .notFound => .notFound
    | .permissionDenied => .permissionDenied
    | .notDirectory | .notFile => .failedPrecondition
    | .cancelled => .cancelled
    | .internal => .internal
  message := error.message

def operationStatusError (status : Status) : ClientError where
  kind := match status.code with
    | .notFound => .notFound
    | .permissionDenied => .permissionDenied
    | .invalidArgument => .invalidInput
    | .alreadyExists => .alreadyExists
    | .failedPrecondition => .notADirectory
    | .cancelled => .interrupted
    | .deadlineExceeded => .timedOut
    | .unavailable => .connectionAborted
    | _ => .other
  message := status.message

def readStatusError (status : Status) : ClientError :=
  if status.code = .failedPrecondition then ⟨.isADirectory, status.message⟩
  else operationStatusError status

def protocolError (message : String) : FsError := ⟨.invalidArgument, message⟩

def streamFsError (status : Status) : FsError :=
  ⟨if status.code = .cancelled then .cancelled else .internal, status.message⟩

/-! ### What is on the wire -/

structure ReadChunk where
  data : Bytes
deriving DecidableEq, Repr

/-- The numbers a `WriteConflict` has on the wire are any 32 bits. -/
structure WriteHeader where
  directory : Str
  name : Str
  conflict : Int
deriving DecidableEq

inductive Payload
  | header (header : WriteHeader)
  | data (data : Bytes)
  | commit
deriving DecidableEq

structure WriteFrame where
  payload : Option Payload
deriving DecidableEq

/-- What `split_to` leaves of some bytes once a chunk is split off, if anything. -/
def pendingAfter (bytes : Bytes) : Option Bytes :=
  if bytes.drop fileDataChunkMaxBytes = [] then none else some (bytes.drop fileDataChunkMaxBytes)

/-- How much is left to send of what is pending. -/
def pendingSize : Option Bytes → Nat
  | none => 0
  | some bytes => bytes.length + 1

theorem pendingSize_pendingAfter (bytes : Bytes) :
    pendingSize (pendingAfter bytes) < bytes.length + 1 := by
  rw [pendingAfter]
  split_ifs with h
  · exact Nat.succ_pos _
  · have hlen : fileDataChunkMaxBytes < bytes.length := by
      simpa [List.drop_eq_nil_iff] using h
    have hpos : 0 < fileDataChunkMaxBytes := by decide
    rw [pendingSize, List.length_drop]
    omega

/-- How much there is in a stream of chunks. -/
def streamSize {ε : Type} : List (Except ε Bytes) → Nat
  | [] => 0
  | .error _ :: stream => streamSize stream + 1
  | .ok bytes :: stream => streamSize stream + (bytes.length + 1)

/-! ### `read_chunks` -/

/-- The stream and what is pending of its last item; `none` after an error. -/
abbrev ReadState := Option (List (Except FsError Bytes) × Option Bytes)

def ReadState.size : ReadState → Nat
  | none => 0
  | some (stream, pending) => streamSize stream + pendingSize pending

def readChunksNext : ReadState → Pull (Except Status ReadChunk) ReadState
  | none => .done none
  | some (stream, some bytes) => chunk stream bytes
  | some ([], none) => .done none
  | some (.error error :: _, none) => .item (.error (fsStatus error)) none
  | some (.ok bytes :: stream, none) => chunk stream bytes
where
  chunk (stream : List (Except FsError Bytes)) (bytes : Bytes) :
      Pull (Except Status ReadChunk) ReadState :=
    .item (.ok ⟨bytes.take fileDataChunkMaxBytes⟩) (some (stream, pendingAfter bytes))

def readChunksSource : Source (Except Status ReadChunk) ReadState where
  next := readChunksNext
  size := ReadState.size
  smaller s b t h := by
    match s, h with
    | some (stream, some bytes), h =>
      obtain ⟨-, rfl⟩ := Pull.item.inj h
      exact Nat.add_lt_add_left (pendingSize_pendingAfter bytes) _
    | some (.error error :: stream, none), h =>
      obtain ⟨-, rfl⟩ := Pull.item.inj h
      exact Nat.succ_pos _
    | some (.ok bytes :: stream, none), h =>
      obtain ⟨-, rfl⟩ := Pull.item.inj h
      have := pendingSize_pendingAfter bytes
      simp only [ReadState.size, streamSize]
      omega

def readChunks (stream : List (Except FsError Bytes)) : List (Except Status ReadChunk) :=
  readChunksSource.items (some (stream, none))

/-! ### `network_read_stream` -/

abbrev NetworkState := Option (List (Except Status ReadChunk))

def networkReadNext : NetworkState → Pull (Except ClientError Bytes) NetworkState
  | none => .done none
  | some [] => .done none
  | some (.ok chunk :: stream) =>
    if chunk.data = [] then
      .item (.error ⟨.invalidData, "server returned an empty read chunk"⟩) none
    else .item (.ok chunk.data) (some stream)
  | some (.error status :: _) => .item (.error (readStatusError status)) none

def networkReadSource : Source (Except ClientError Bytes) NetworkState where
  next := networkReadNext
  size state := state.elim 0 fun stream => stream.length + 1
  smaller s b t h := by
    match s, h with
    | some (.ok chunk :: stream), h =>
      rw [networkReadNext] at h
      split at h
      all_goals
        obtain ⟨-, rfl⟩ := Pull.item.inj h
        simp
    | some (.error status :: stream), h =>
      obtain ⟨-, rfl⟩ := Pull.item.inj h
      exact Nat.succ_pos _

def networkReadStream (stream : List (Except Status ReadChunk)) : List (Except ClientError Bytes) :=
  networkReadSource.items (some stream)

/-! ### `request_stream` -/

inductive RequestState
  | header (source : List (Except ClientError Bytes)) (header : WriteHeader)
  | data (source : List (Except ClientError Bytes)) (pending : Option Bytes)
  | done

/-- The state of the stream, and the two cells it shares with `write_file`. -/
structure Request where
  state : RequestState
  sourceError : Option ClientError
  /-- A `u64`. -/
  bytesSent : Nat

def RequestState.size : RequestState → Nat
  | .header source _ => streamSize source + 2
  | .data source pending => streamSize source + pendingSize pending + 1
  | .done => 0

def Request.next (r : Request) : Pull WriteFrame Request :=
  match r.state with
  | .header source header =>
    .item ⟨some (.header header)⟩ { r with state := .data source none }
  | .data source (some bytes) => send source bytes
  | .data [] none => .item ⟨some .commit⟩ { r with state := .done }
  | .data (.error error :: _) none => .done { r with sourceError := some error }
  | .data (.ok bytes :: source) none =>
    if bytes = [] then
      .done { r with sourceError := some ⟨.invalidData, "source emitted an empty data chunk"⟩ }
    else send source bytes
  | .done => .done r
where
  send (source : List (Except ClientError Bytes)) (bytes : Bytes) : Pull WriteFrame Request :=
    let chunk := bytes.take fileDataChunkMaxBytes
    if r.bytesSent + chunk.length < 2 ^ 64 then
      .item ⟨some (.data chunk)⟩ { r with
        state := .data source (pendingAfter bytes)
        bytesSent := r.bytesSent + chunk.length }
    else .done { r with sourceError := some ⟨.other, "source byte count overflowed"⟩ }

def requestSource : Source WriteFrame Request where
  next := Request.next
  size r := r.state.size
  smaller r b t h := by
    obtain ⟨state, sourceError, bytesSent⟩ := r
    match state, h with
    | .header source header, h =>
      obtain ⟨-, rfl⟩ := Pull.item.inj h
      exact Nat.lt_succ_self _
    | .data source (some bytes), h =>
      simp only [Request.next, Request.next.send] at h
      split at h
      · obtain ⟨-, rfl⟩ := Pull.item.inj h
        have hlt := Nat.add_lt_add_left (pendingSize_pendingAfter bytes) (streamSize source)
        exact Nat.add_lt_add_right hlt 1
      · cases h
    | .data [] none, h =>
      obtain ⟨-, rfl⟩ := Pull.item.inj h
      exact Nat.succ_pos _
    | .data (.ok bytes :: source) none, h =>
      have := pendingSize_pendingAfter bytes
      simp only [Request.next, Request.next.send] at h
      split at h
      · cases h
      · split at h
        · obtain ⟨-, rfl⟩ := Pull.item.inj h
          simp only [RequestState.size, streamSize]
          omega
        · cases h

def requestStream (source : List (Except ClientError Bytes)) (header : WriteHeader) :
    List WriteFrame :=
  requestSource.items ⟨.header source header, none, 0⟩

/-! ### `validated_data_stream` -/

abbrev FramesState := Option (List (Except Status WriteFrame))

def validatedNext : FramesState → Pull (Except FsError Bytes) FramesState
  | none => .done none
  | some [] => .item (.error (protocolError "write stream ended without commit")) none
  | some (.error status :: _) => .item (.error (streamFsError status)) none
  | some (.ok frame :: frames) =>
    match frame.payload with
    | some (.data data) =>
      if data = [] then .item (.error (protocolError "write data frames must be non-empty")) none
      else if data.length ≤ fileDataChunkMaxBytes then .item (.ok data) (some frames)
      else .item (.error (protocolError "write data frame exceeds the wire limit")) none
    | some .commit =>
      match frames with
      | [] => .done none
      | .ok _ :: _ => .item (.error (protocolError "write frame received after commit")) none
      | .error status :: _ => .item (.error (streamFsError status)) none
    | some (.header _) => .item (.error (protocolError "duplicate write header")) none
    | none => .item (.error (protocolError "write frame has no payload")) none

def validatedSource : Source (Except FsError Bytes) FramesState where
  next := validatedNext
  size state := state.elim 0 fun frames => frames.length + 1
  smaller s b t h := by
    match s, h with
    | some [], h =>
      obtain ⟨-, rfl⟩ := Pull.item.inj h
      exact Nat.succ_pos _
    | some (.error status :: frames), h =>
      obtain ⟨-, rfl⟩ := Pull.item.inj h
      exact Nat.succ_pos _
    | some (.ok frame :: frames), h =>
      simp only [validatedNext] at h
      repeat' split at h
      all_goals first
        | obtain ⟨-, rfl⟩ := Pull.item.inj h
          simp
        | cases h

def validatedDataStream (frames : List (Except Status WriteFrame)) : List (Except FsError Bytes) :=
  validatedSource.items (some frames)

/-! ### What is published -/

/-- How the steps of `write_file` come out that are not the source's: all of them before
the first pull, each turn of the loop with a pull and each with a write, the flush, and
the rename or link that publishes.  A service that is cancelled fails the next of them. -/
structure Disk where
  prepare : Except FsError Unit
  pull : Nat → Except FsError Unit
  write : Nat → Except FsError Unit
  flush : Except FsError Unit
  publish : Except FsError Unit

/-- `write_source`, from a turn of its loop on: the bytes counted, and the partial file. -/
def writeSource (disk : Disk) (turn bytesWritten : Nat) (written : Bytes) :
    List (Except FsError Bytes) → Except FsError (Nat × Bytes)
  | [] => do
    disk.pull turn
    return (bytesWritten, written)
  | item :: source => do
    disk.pull turn
    let chunk ← item
    if chunk = [] then throw ⟨.invalidArgument, "source emitted an empty data chunk"⟩
    if ¬ bytesWritten + chunk.length < 2 ^ 64 then
      throw ⟨.internal, "written byte count overflowed"⟩
    disk.write turn
    writeSource disk (turn + 1) (bytesWritten + chunk.length) (written ++ chunk) source

/-- `write_file`: how many bytes it reports, with what it publishes. -/
def writeFile (disk : Disk) (source : List (Except FsError Bytes)) :
    Except FsError (Nat × Bytes) := do
  disk.prepare
  let result ← writeSource disk 0 0 [] source
  disk.flush
  disk.publish
  return result

end Copy

end FilePeeker
