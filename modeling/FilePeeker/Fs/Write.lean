import FilePeeker.Fs.Error
import FilePeeker.Home.MachineId
import FilePeeker.Lib.Directory
import FilePeeker.Lib.Steps
import Mathlib.Algebra.Group.Nat.Defs

/-!
# Writing a file

`write_file` of `fs::write`: what comes from a stream goes to a hidden partial file beside
the destination, which is renamed or linked into place when the stream has ended.

The future goes from one of its points to the next (`Pc`), and waits at most of them for an
operation that `tokio::fs` has given to the blocking pool (`Pool`).  Dropping the future
ends it at such a point; the operation goes on.  Other processes do what they want in the
same directory, between any two steps.  A file that is open is known by its number, so what
is written to it goes there whatever its name is by then.
-/

namespace FilePeeker

open FilePeeker.Path

namespace Fs

/-- What a write does when its destination already exists. -/
inductive WriteConflict
  | failIfExists
  | replace
deriving DecidableEq, Repr

structure Written where
  path : PathString
  bytes : Nat
deriving DecidableEq

/-- What `write_file` is called with. -/
structure Request where
  directory : PathString
  name : PathString
  conflict : WriteConflict
deriving DecidableEq

/-- The directory and the name in it, as the kernel is given them. -/
structure Target where
  directory : Bytes
  name : Bytes
deriving DecidableEq

namespace Target

def destination (t : Target) : Bytes := join t.directory t.name

/-- `.<name>.fpk-<pid>-<id>.partial`. -/
def partialName (t : Target) (pid id : Nat) : Bytes :=
  ascii "." ++ t.name ++
    ascii (".fpk-" ++ toString pid ++ "-" ++ toString id ++ ".partial")

def partialPath (t : Target) (pid id : Nat) : Bytes := join t.directory (t.partialName pid id)

end Target

/-! ### Its errors -/

def notAName (name : PathString) : FsError where
  kind := .invalidArgument
  message := "`".toList ++ name.display ++
    "` is not a file name: it must be one component, neither `.` nor `..`".toList

def notADirectory (directory : Bytes) : FsError where
  kind := .notDirectory
  message := "destination `".toList ++ displayPath directory ++ "` is not a directory".toList

def alreadyExists (path : Bytes) : FsError where
  kind := .alreadyExists
  message := "`".toList ++ displayPath path ++ "` already exists".toList

def noFreeName (directory : Bytes) : FsError where
  kind := .internal
  message := "cannot find a free partial file name in `".toList ++ displayPath directory ++
    "`".toList

/-- What is checked before anything is waited for. -/
def Request.target (request : Request) : Except FsError Target :=
  if request.name.isName then do
    let directory ← absolute request.directory
    let name ← request.name.toBytes.mapError FsError.ofEscape
    return ⟨directory, name⟩
  else .error (notAName request.name)

theorem Request.target_spec {request : Request} {t : Target} (h : request.target = .ok t) :
    request.name.isName ∧ absolute request.directory = .ok t.directory ∧
      request.name.toBytes = .ok t.name := by
  unfold Request.target at h
  split at h
  · next hname =>
    obtain ⟨real, hreal⟩ := PathString.toBytes_of_isName hname
    cases hdirectory : absolute request.directory with
    | error error => rw [hdirectory] at h; cases h
    | ok directory =>
      rw [hdirectory, hreal] at h
      cases h
      exact ⟨hname, rfl, hreal⟩
  · cases h

/-! ### The blocking pool -/

/-- An operation that is under way on a thread of the pool. -/
inductive Job
  | inspectDirectory
  | inspectDestination (path : Bytes)
  | openNew (path : Bytes)
  /-- What is left to write. -/
  | write (inode : Nat) (rest : Bytes)
  | rename (src dst : Bytes)
  | link (src dst : Bytes)
deriving DecidableEq

/-- How one came out. -/
inductive Outcome
  | directory (result : Except IoError Bool)
  | destination (result : Except IoError Unit)
  | opened (result : Except IoError Nat)
  | wrote (result : Except IoError Unit)
  | published (result : Except IoError Unit)
deriving DecidableEq

/-- What the pool has of one write: an operation, or what came of the last one until the
future takes it. -/
inductive Pool
  | idle
  | running (job : Job)
  | finished (outcome : Outcome)
deriving DecidableEq

/-! ### The future -/

/-- The open partial file, with its guard, and the bytes counted so far. -/
structure Open where
  target : Target
  path : Bytes
  inode : Nat
  bytes : Nat
deriving DecidableEq

/-- Where the future is. -/
inductive Pc
  | start
  | directory (t : Target)
  | destination (t : Target)
  /-- At the head of the loop of `create_partial`, with the tries it has left. -/
  | naming (t : Target) (left : Nat)
  | creating (t : Target) (left : Nat) (path : Bytes)
  /-- Waits for the next chunk. -/
  | pulling (o : Open)
  /-- In `write_all` of a chunk of this length, with what is left of it. -/
  | storing (o : Open) (rest : Bytes) (length : Nat)
  | flushing (o : Open)
  | publishing (t : Target) (path : Bytes) (bytes : Nat)
  /-- The guard of this path drops, and then the future is at its end. -/
  | leaving (path : Bytes) (result : Option (Except FsError Written))
  /-- Has returned this, or was dropped. -/
  | ended (result : Option (Except FsError Written))
deriving DecidableEq

/-- What has been, which the code keeps no account of. -/
structure Past where
  /-- All chunks that came so far. -/
  supplied : Bytes
  /-- The stream has come to its end, without an error. -/
  sourceEnded : Bool
  /-- The partial file that was made. -/
  made : Option (Bytes × Nat)
  /-- What was in the file that was put at the destination. -/
  published : Option Bytes
  /-- The guard's removal failed, of a file that is there. -/
  stuck : Bool
  /-- What other processes have last put in a file. -/
  theirs : Nat → Option Bytes

/-- A call of `write_file`, and the files around it. -/
structure World where
  request : Request
  /-- `std::process::id()`. -/
  pid : Nat
  pc : Pc
  pool : Pool
  files : Directory Bytes UInt8
  /-- Where the next write to the open file goes. -/
  offset : Nat
  past : Past

/-- What another process does in the directory. -/
inductive Other
  /-- A new file at a name, in the place of what was there. -/
  | put (name content : Bytes)
  /-- A file's content is another. -/
  | edit (name content : Bytes)
  | remove (name : Bytes)
deriving DecidableEq

def Other.name : Other → Bytes
  | .put name _ | .edit name _ | .remove name => name

inductive Action
  | begin
  /-- The future takes what came of an operation. -/
  | receive
  /-- A try of `create_partial`, with the number `NEXT_PARTIAL` gives. -/
  | tryName (id : Nat)
  /-- What the source gives next, if anything. -/
  | pull (item : Option (Except FsError Bytes))
  /-- Up to `n` bytes of the chunk are given to the pool. -/
  | store (n : Nat)
  | publish
  /-- The guard's `remove_file`. -/
  | removePartial (failure : Option IoError)
  | drop
  /-- An operation of the pool ends. -/
  | finish (failure : Option IoError)
  | finishDirectory (isDir : Bool)
  /-- Some bytes of a write reach the file. -/
  | progress (n : Nat)
  | other (o : Other)
deriving DecidableEq

/-- A file's size is a signed 64-bit number. -/
def maxFileBytes : Nat := 2 ^ 63 - 1

namespace World

/-- The end of the future, after its guard's if it has one. -/
def leave (w : World) (guard : Option Bytes) (result : Option (Except FsError Written)) : World :=
  { w with pc := match guard with
      | some path => .leaving path result
      | none => .ended result }

def fail (w : World) (guard : Option Bytes) (error : FsError) : World :=
  w.leave guard (some (.error error))

/-- A chunk is written, or some of it is left; `bytes` is a `u64`. -/
def stored (w : World) (o : Open) (rest : Bytes) (length : Nat) : World :=
  { w with pc := if rest = [] then .pulling { o with bytes := (o.bytes + length) % 2 ^ 64 }
      else .storing o rest length }

/-- The future takes `outcome`, which the pool is done with. -/
def receive (w : World) (outcome : Outcome) : Option World :=
  let w := { w with pool := .idle }
  match w.pc, outcome with
  | .directory t, .directory (.error error) =>
    some (w.fail none (.at "cannot inspect destination directory" t.directory error))
  | .directory t, .directory (.ok false) => some (w.fail none (notADirectory t.directory))
  | .directory t, .directory (.ok true) =>
    match w.request.conflict with
    | .failIfExists =>
      some { w with pc := .destination t, pool := .running (.inspectDestination t.destination) }
    | .replace => some { w with pc := .naming t 128 }
  | .destination t, .destination (.ok ()) => some (w.fail none (alreadyExists t.destination))
  | .destination t, .destination (.error error) =>
    if error.kind = .notFound then some { w with pc := .naming t 128 }
    else some (w.fail none (.at "cannot inspect destination" t.destination error))
  | .creating t _ path, .opened (.ok inode) =>
    some { w with pc := .pulling ⟨t, path, inode, 0⟩, offset := 0 }
  | .creating t left path, .opened (.error error) =>
    if error.kind = .alreadyExists then some { w with pc := .naming t left }
    else some (w.fail none (.at "cannot create" path error))
  | .storing _ _ _, .wrote (.ok ()) | .flushing _, .wrote (.ok ()) => some w
  | .storing o _ _, .wrote (.error error) =>
    some (w.fail (some o.path) (.at "cannot write" o.path error))
  | .flushing o, .wrote (.error error) =>
    some (w.fail (some o.path) (.at "cannot flush" o.path error))
  | .publishing t path bytes, .published (.ok ()) =>
    -- A renamed partial file has no name to remove.
    some (w.leave (match w.request.conflict with
      | .replace => none
      | .failIfExists => some path) (some (.ok ⟨.ofBytes t.destination, bytes⟩)))
  | .publishing t path _, .published (.error error) =>
    some (w.fail (some path)
      (if w.request.conflict = .failIfExists ∧ error.kind = .alreadyExists then
        alreadyExists t.destination
      else .at "cannot publish" t.destination error))
  | _, _ => none

/-- Where a future can be dropped, and whether its guard is there by then. -/
def dropGuard : Pc → Option (Option Bytes)
  | .start | .directory _ | .destination _ | .creating .. => some none
  | .pulling o | .storing o _ _ | .flushing o => some (some o.path)
  | .publishing _ path _ => some (some path)
  | .naming .. | .leaving .. | .ended _ => none

/-- An operation comes to its end, with or without an error. -/
def finish (w : World) : Job → Option IoError → Option World
  | .inspectDirectory, some error =>
    some { w with pool := .finished (.directory (.error error)) }
  | .inspectDirectory, none => none
  | .inspectDestination path, some error =>
    if error.kind = .notFound ∧ w.files.entry path ≠ none then none
    else some { w with pool := .finished (.destination (.error error)) }
  | .inspectDestination path, none =>
    if w.files.entry path = none then none
    else some { w with pool := .finished (.destination (.ok ())) }
  | .openNew _, some error => some { w with pool := .finished (.opened (.error error)) }
  | .openNew path, none =>
    if w.files.entry path ≠ none then none
    else some { w with
      pool := .finished (.opened (.ok w.files.fresh))
      files := w.files.create path
      past := { w.past with made := some (path, w.files.fresh) } }
  | .write _ _, some error => some { w with pool := .finished (.wrote (.error error)) }
  | .write _ rest, none =>
    if rest = [] then some { w with pool := .finished (.wrote (.ok ())) } else none
  | .rename _ _, some error | .link _ _, some error =>
    some { w with pool := .finished (.published (.error error)) }
  | .rename src dst, none =>
    (w.files.rename src dst).map fun files => { w with
      pool := .finished (.published (.ok ()))
      files
      past := { w.past with published := w.files.read src } }
  | .link src dst, none =>
    (w.files.link src dst).map fun files => { w with
      pool := .finished (.published (.ok ()))
      files
      past := { w.past with published := w.files.read src } }

def byOther (w : World) : Other → Option World
  | .put name content =>
    some { w with
      files := (w.files.create name).fill w.files.fresh content
      past := { w.past with theirs := Function.update w.past.theirs w.files.fresh (some content) } }
  | .edit name content =>
    (w.files.entry name).map fun inode => { w with
      files := w.files.fill inode content
      past := { w.past with theirs := Function.update w.past.theirs inode (some content) } }
  | .remove name => some { w with files := w.files.unlink name }

end World

open World in
def step (w : World) : Action → Option World
  | .begin =>
    match w.pc with
    | .start =>
      match w.request.target with
      | .error error => some (w.fail none error)
      | .ok t => some { w with pc := .directory t, pool := .running .inspectDirectory }
    | _ => none
  | .receive =>
    match w.pool with
    | .finished outcome => w.receive outcome
    | _ => none
  | .tryName id =>
    match w.pc with
    | .naming t 0 => some (w.fail none (noFreeName t.directory))
    | .naming t (left + 1) =>
      let path := t.partialPath w.pid id
      some { w with pc := .creating t left path, pool := .running (.openNew path) }
    | _ => none
  | .pull item =>
    match w.pc, item with
    | .pulling o, some (.ok chunk) =>
      some ({ w with past := { w.past with supplied := w.past.supplied ++ chunk } }.stored o chunk
        chunk.length)
    | .pulling o, some (.error error) => some (w.fail (some o.path) error)
    | .pulling o, none =>
      some { w with pc := .flushing o, past := { w.past with sourceEnded := true } }
    | _, _ => none
  | .store n =>
    match w.pc, w.pool with
    | .storing o rest length, .idle =>
      if n = 0 then none
      else some ({ w with pool := .running (.write o.inode (rest.take n)) }.stored o (rest.drop n)
        length)
    | _, _ => none
  | .publish =>
    match w.pc, w.pool with
    | .flushing o, .idle =>
      some { w with
        pc := .publishing o.target o.path o.bytes
        pool := .running (match w.request.conflict with
          | .replace => .rename o.path o.target.destination
          | .failIfExists => .link o.path o.target.destination) }
    | _, _ => none
  | .removePartial failure =>
    match w.pc, failure with
    | .leaving path result, none =>
      if w.files.entry path = none then none
      else some { w with pc := .ended result, files := w.files.unlink path }
    | .leaving path result, some error =>
      if error.kind = .notFound then
        if w.files.entry path = none then some { w with pc := .ended result } else none
      else some { w with pc := .ended result, past := { w.past with stuck := true } }
    | _, _ => none
  | .drop => (dropGuard w.pc).map fun guard => w.leave guard none
  | .finish failure =>
    match w.pool with
    | .running job => w.finish job failure
    | _ => none
  | .finishDirectory isDir =>
    match w.pool with
    | .running .inspectDirectory => some { w with pool := .finished (.directory (.ok isDir)) }
    | _ => none
  | .progress n =>
    match w.pool with
    | .running (.write inode rest) =>
      if w.offset + (rest.take n).length ≤ maxFileBytes then
        some { w with
          pool := .running (.write inode (rest.drop n))
          files := w.files.write 0 inode w.offset (rest.take n)
          offset := w.offset + (rest.take n).length }
      else none
    | _ => none
  | .other o => w.byOther o

/-- Before a call: what is in the directory is of other processes. -/
structure Fresh (w : World) : Prop where
  pc : w.pc = .start
  pool : w.pool = .idle
  supplied : w.past.supplied = []
  sourceEnded : w.past.sourceEnded = false
  made : w.past.made = none
  published : w.past.published = none
  stuck : w.past.stuck = false
  theirs : ∀ name inode, w.files.entry name = some inode →
    w.past.theirs inode = some (w.files.content inode)

/-- Another process leaves the partial file alone. -/
def Apart (w : World) : Action → Prop
  | .other o => ∀ path inode, w.past.made = some (path, inode) → o.name ≠ path
  | _ => True

instance (w : World) : (a : Action) → Decidable (Apart w a)
  | .other o => decidable_of_iff (∀ made ∈ w.past.made, o.name ≠ made.1)
      ⟨fun h path inode hmade => h (path, inode) hmade, fun h made hmade => h made.1 made.2 hmade⟩
  | .begin | .receive | .tryName _ | .pull _ | .store _ | .publish | .removePartial _ | .drop
  | .finish _ | .finishDirectory _ | .progress _ => .isTrue trivial

end Fs

end FilePeeker
