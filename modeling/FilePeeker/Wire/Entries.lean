import FilePeeker.Lib.Results
import FilePeeker.Browser.Tree

/-!
# Directory entries on the wire

`inspect_entry` of `fs/directory/entry.rs` makes an entry from what the system says of
it, `convert_entry` of `server/ops/entry.rs` puts it into a message, and
`convert_entry` of `client/rpc/entry.rs` reads it back.

A name, a kind, a size, a mode and whether the entry can be entered come back as they
were.  A time comes back but for one: the message has no place for an unknown one,
which comes back as the first moment of 1970 (`joinUnixTime_split`).  The other thing
that does not survive is an empty text, which on the wire is no text: a defect and a
link's target must have some.
-/

namespace FilePeeker.Wire

open Browser (EntryKind DirectoryEntry)

/-! ### Times -/

/-- `NSEC_PER_SEC`. -/
def nsecPerSec : Nat := 1000000000

/-- `i64::MAX`. -/
def maxI64 : Nat := 9223372036854775807

/-- What `i64` holds. -/
def InI64 (n : Int) : Prop := -maxI64 - 1 ≤ n ∧ n ≤ maxI64

instance (n : Int) : Decidable (InI64 n) := inferInstanceAs (Decidable (_ ∧ _))

/-- A `SystemTime` as Unix has it: so many seconds after 1970, and so many nanoseconds
after that second. -/
structure Timespec where
  sec : Int
  nsec : Nat
  inRange : InI64 sec
  lt_nsecPerSec : nsec < nsecPerSec
deriving DecidableEq

structure Duration where
  secs : Nat
  nanos : Nat
deriving DecidableEq, Repr

/-- A time, where there is one of so many seconds and nanoseconds. -/
def Timespec.of? (sec : Int) (nsec : Nat) : Option Timespec :=
  if h : InI64 sec ∧ nsec < nsecPerSec then some ⟨sec, nsec, h.1, h.2⟩ else none

/-- `UNIX_EPOCH`. -/
def Timespec.epoch : Timespec := ⟨0, 0, by decide, by decide⟩

/-- `duration_since(UNIX_EPOCH)`; an error carries how long before it was. -/
def Timespec.sinceEpoch (time : Timespec) : Except Duration Duration :=
  if 0 ≤ time.sec then .ok ⟨time.sec.toNat, time.nsec⟩
  else if time.nsec = 0 then .error ⟨(-time.sec).toNat, 0⟩
  else .error ⟨(-time.sec - 1).toNat, nsecPerSec - time.nsec⟩

def Timespec.checkedAdd (time : Timespec) (d : Duration) : Option Timespec :=
  let nsec := time.nsec + d.nanos
  if nsec < nsecPerSec then of? (time.sec + d.secs) nsec
  else of? (time.sec + d.secs + 1) (nsec - nsecPerSec)

def Timespec.checkedSub (time : Timespec) (d : Duration) : Option Timespec :=
  if d.nanos ≤ time.nsec then of? (time.sec - d.secs) (time.nsec - d.nanos)
  else of? (time.sec - d.secs - 1) (time.nsec + nsecPerSec - d.nanos)

/-- `i64::try_from(..).unwrap_or(i64::MAX)`. -/
def toI64 (n : Nat) : Int := if n ≤ maxI64 then n else maxI64

/-- Splits a time into whole seconds and a non-negative sub-second remainder. -/
def splitUnixTime (time : Timespec) : Int × Nat :=
  match time.sinceEpoch with
  | .ok since => (toI64 since.secs, since.nanos)
  | .error before =>
    let seconds := toI64 before.secs
    match before.nanos with
    | 0 => (-seconds, 0)
    | nanos => (-seconds - 1, nsecPerSec - nanos)

/-- Rebuilds a time from whole seconds and a non-negative sub-second remainder. -/
def joinUnixTime (seconds : Int) (nanos : Nat) : Option Timespec :=
  if nsecPerSec ≤ nanos then none
  else
    let offset : Duration := ⟨seconds.natAbs, 0⟩
    let base := if seconds < 0 then Timespec.epoch.checkedSub offset
      else Timespec.epoch.checkedAdd offset
    base.bind fun base => base.checkedAdd ⟨0, nanos⟩

/-! ### Entries as a server finds them -/

structure EntryMetadata where
  size : Nat
  modified : Option Timespec
  unixMode : Option Nat
  symlinkTarget : Option PathString
deriving DecidableEq

abbrev Entry := DirectoryEntry (Option EntryMetadata)

/-- `FileType`, as `kind_of` tells it apart. -/
structure FileType where
  isDir : Bool
  isFile : Bool
  isSymlink : Bool
deriving DecidableEq, Repr

/-- What `symlink_metadata` gives. -/
structure Metadata where
  fileType : FileType
  len : Nat
  /-- `modified().ok()`. -/
  modified : Option Timespec
  mode : Nat
deriving DecidableEq

/-- What the system says of an entry of a directory. -/
structure Inspected where
  fileName : Bytes
  /-- `symlink_metadata`; an error by its text. -/
  lstat : Except String Metadata
  /-- What `read_dir` carries. -/
  fileType : Option FileType
  /-- A directory is what is at its end. -/
  leadsToDir : Bool
  /-- `read_link`. -/
  readLink : Option Bytes

def kindOf (fileType : FileType) : EntryKind :=
  if fileType.isDir then .directory
  else if fileType.isFile then .file
  else if fileType.isSymlink then .symlink
  else .other

def inspectEntry (i : Inspected) : Entry :=
  let name := PathString.ofBytes i.fileName
  match i.lstat with
  | .error message =>
    { name
      kind := i.fileType.elim .other kindOf
      navigable := false
      metadata := none
      defect := some message }
  | .ok metadata =>
    let kind := kindOf metadata.fileType
    let navigable := match kind with
      | .directory => true
      | .symlink => i.leadsToDir
      | .file | .other => false
    let symlinkTarget := if kind = .symlink then i.readLink.map PathString.ofBytes else none
    { name
      kind
      navigable
      metadata := some
        { size := metadata.len
          modified := metadata.modified
          unixMode := some metadata.mode
          symlinkTarget }
      defect := none }

/-! ### Messages -/

inductive ProtocolEntryKind
  | unspecified
  | file
  | directory
  | symlink
  | other
deriving DecidableEq, Repr

/-- The number a kind is on the wire. -/
def ProtocolEntryKind.toI32 : ProtocolEntryKind → Int
  | unspecified => 0
  | file => 1
  | directory => 2
  | symlink => 3
  | other => 4

def ProtocolEntryKind.tryFrom : Int → Option ProtocolEntryKind
  | 0 => some unspecified
  | 1 => some file
  | 2 => some directory
  | 3 => some symlink
  | 4 => some other
  | _ => none

structure ProtocolEntryMetadata where
  size : Nat
  modifiedUnixSeconds : Int
  modifiedNanos : Nat
  unixMode : Option Nat
  symlinkTarget : Str
deriving DecidableEq

structure ListingEntry where
  name : Str
  kind : Int
  navigable : Bool
  defect : String
  metadata : Option ProtocolEntryMetadata
deriving DecidableEq

namespace Server

def convertMetadata (metadata : EntryMetadata) : ProtocolEntryMetadata :=
  let (modifiedUnixSeconds, modifiedNanos) := metadata.modified.elim (0, 0) splitUnixTime
  { size := metadata.size
    modifiedUnixSeconds
    modifiedNanos
    unixMode := metadata.unixMode
    symlinkTarget := metadata.symlinkTarget.elim .empty PathString.escaped }

def convertEntry (entry : Entry) : ListingEntry :=
  let kind : ProtocolEntryKind := match entry.kind with
    | .file => .file
    | .directory => .directory
    | .symlink => .symlink
    | .other => .other
  { name := entry.name.escaped
    kind := kind.toI32
    navigable := entry.navigable
    defect := entry.defect.getD ""
    metadata := entry.metadata.map convertMetadata }

end Server

namespace Client

/-- What makes a message no entry, all of it `InvalidData`. -/
inductive InvalidData
  | badlyEscaped (what : String) (error : EscapeError)
  | unknownKind (kind : Int)
  | unspecifiedKind
deriving DecidableEq, Repr

/-- Takes a name or a path off the wire. -/
def wirePath (escaped : Str) (what : String) : Except InvalidData PathString :=
  (PathString.fromEscaped escaped).mapError (.badlyEscaped what)

def convertMetadata (metadata : ProtocolEntryMetadata) : Except InvalidData EntryMetadata := do
  let symlinkTarget ←
    if metadata.symlinkTarget = .empty then pure none
    else some <$> wirePath metadata.symlinkTarget "symlink target"
  return {
    size := metadata.size
    modified := joinUnixTime metadata.modifiedUnixSeconds metadata.modifiedNanos
    unixMode := metadata.unixMode
    symlinkTarget }

def convertEntry (entry : ListingEntry) : Except InvalidData Entry := do
  let kind ← match ProtocolEntryKind.tryFrom entry.kind with
    | none => .error (.unknownKind entry.kind)
    | some .unspecified => .error .unspecifiedKind
    | some .file => pure EntryKind.file
    | some .directory => pure EntryKind.directory
    | some .symlink => pure EntryKind.symlink
    | some .other => pure EntryKind.other
  let name ← wirePath entry.name "entry name"
  let metadata ← entry.metadata.mapM convertMetadata
  return {
    name
    kind
    navigable := entry.navigable
    metadata
    defect := if entry.defect = "" then none else some entry.defect }

end Client

/-! ### Times there and back -/

variable {time : Timespec} {sec : Int} {nsec : Nat}

theorem Timespec.of?_self (time : Timespec) : of? time.sec time.nsec = some time := by
  rw [of?, dif_pos ⟨time.inRange, time.lt_nsecPerSec⟩]

theorem joinUnixTime_eq (hsec : InI64 sec) (hnsec : nsec < nsecPerSec) :
    joinUnixTime sec nsec = Timespec.of? sec nsec := by
  have hzero : (0 : Nat) < nsecPerSec := by decide
  have hbase : (if sec < 0 then Timespec.epoch.checkedSub ⟨sec.natAbs, 0⟩
      else Timespec.epoch.checkedAdd ⟨sec.natAbs, 0⟩) = Timespec.of? sec 0 := by
    split
    · rw [Timespec.checkedSub, if_pos (Nat.zero_le _)]
      exact congrArg (Timespec.of? · 0) (by simp only [Timespec.epoch]; omega)
    · rw [Timespec.checkedAdd]
      exact congrArg (Timespec.of? · 0) (by simp only [Timespec.epoch]; omega)
  rw [joinUnixTime, if_neg (by omega)]
  simp only [hbase]
  rw [Timespec.of?, dif_pos ⟨hsec, hzero⟩]
  simp [Timespec.checkedAdd, hnsec]

/-- The first moment there is, whose distance from 1970 no `i64` holds. -/
def Timespec.earliest : Timespec := ⟨-maxI64 - 1, 0, by decide, by decide⟩

theorem toI64_toNat {n : Int} (hpos : 0 ≤ n) (hle : n ≤ maxI64) : toI64 n.toNat = n := by
  rw [toI64, if_pos (by omega)]
  omega

theorem Timespec.neg_le (h : time ≠ .earliest) : time.nsec = 0 → -time.sec ≤ maxI64 := by
  intro hzero
  by_contra hlt
  refine h ?_
  have hlow := time.inRange.1
  have hsec : time.sec = -maxI64 - 1 := by omega
  have hof := of?_self time
  rw [hsec, hzero] at hof
  exact Option.some.inj (hof.symm.trans (of?_self earliest))

theorem splitUnixTime_eq (h : time ≠ .earliest) : splitUnixTime time = (time.sec, time.nsec) := by
  have hhigh := time.inRange.2
  have hlow := time.inRange.1
  have hnsec := time.lt_nsecPerSec
  rw [splitUnixTime, Timespec.sinceEpoch]
  by_cases hpos : 0 ≤ time.sec
  · rw [if_pos hpos]
    simp only [toI64_toNat hpos hhigh]
  · rw [if_neg hpos]
    by_cases hzero : time.nsec = 0
    · rw [if_pos hzero]
      simp only [toI64_toNat (by omega) (Timespec.neg_le h hzero), Int.neg_neg, hzero]
    · rw [if_neg hzero]
      have hto : toI64 (-time.sec - 1).toNat = -time.sec - 1 :=
        toI64_toNat (by omega) (by omega)
      simp only [hto]
      split
      · omega
      · exact Prod.ext (by omega) (by omega)

/-- What comes back of a time. -/
theorem joinUnixTime_split (time : Timespec) :
    joinUnixTime (splitUnixTime time).1 (splitUnixTime time).2 = some time ↔
      time ≠ .earliest := by
  constructor
  · rintro h rfl
    revert h
    decide
  · intro h
    rw [splitUnixTime_eq h, joinUnixTime_eq time.inRange time.lt_nsecPerSec, Timespec.of?_self]

/-! ### Metadata there and back -/

/-- The metadata has a time, not the first one there is, and no empty target. -/
structure EntryMetadata.Survives (metadata : EntryMetadata) : Prop where
  modified : ∃ time, metadata.modified = some time ∧ time ≠ .earliest
  target : metadata.symlinkTarget.map PathString.escaped ≠ some .empty

theorem wirePath_ofBytes (bytes : Bytes) (what : String) :
    Client.wirePath (PathString.ofBytes bytes).escaped what = .ok (PathString.ofBytes bytes) := by
  have hok : PathString.fromEscaped (escape bytes) = .ok ⟨escape bytes⟩ :=
    fromEscaped_iff.mpr ⟨⟨bytes, unescape_escape bytes⟩, rfl⟩
  simp only [Client.wirePath, PathString.ofBytes, hok, mapError_ok]

/-- An unknown time is read as the first moment of 1970. -/
theorem joinUnixTime_unknown : joinUnixTime 0 0 = some .epoch := by decide

/-- The two halves of the time that metadata is sent with give the time back. -/
theorem modified_back (modified : Option Timespec) :
    joinUnixTime (modified.elim (0, 0) splitUnixTime).1 (modified.elim (0, 0) splitUnixTime).2 =
      modified ↔ ∃ time, modified = some time ∧ time ≠ .earliest := by
  cases modified with
  | none => simp [joinUnixTime_unknown]
  | some time => simpa using joinUnixTime_split time

/-- What comes back of metadata whose target, if any, is the escape of some bytes. -/
theorem convertMetadata_back (metadata : EntryMetadata)
    (htarget : ∀ path, metadata.symlinkTarget = some path → ∃ bytes, path = .ofBytes bytes) :
    Client.convertMetadata (Server.convertMetadata metadata) = .ok metadata ↔
      metadata.Survives := by
  obtain ⟨size, modified, unixMode, symlinkTarget⟩ := metadata
  have hback := modified_back modified
  have hsent : Server.convertMetadata ⟨size, modified, unixMode, symlinkTarget⟩ =
      ⟨size, (modified.elim (0, 0) splitUnixTime).1, (modified.elim (0, 0) splitUnixTime).2,
        unixMode, symlinkTarget.elim .empty PathString.escaped⟩ := rfl
  rw [hsent, Client.convertMetadata]
  cases symlinkTarget with
  | none =>
    simp only [Option.elim_none, if_true, pure_bind]
    constructor
    · intro h
      injection h with h
      injection h with _ hmodified
      exact ⟨hback.mp hmodified, by simp⟩
    · intro h
      rw [hback.mpr h.modified]
      rfl
  | some path =>
    obtain ⟨bytes, rfl⟩ := htarget path rfl
    by_cases hempty : (PathString.ofBytes bytes).escaped = .empty
    · simp only [Option.elim_some, hempty, if_true, pure_bind]
      constructor
      · intro h
        injection h with h
        injection h with _ _ _ htarget
        cases htarget
      · intro h
        exact absurd (by simp [hempty]) h.target
    · simp only [Option.elim_some, hempty, if_false, wirePath_ofBytes]
      constructor
      · intro h
        injection h with h
        injection h with _ hmodified
        exact ⟨hback.mp hmodified, by simpa using hempty⟩
      · intro h
        rw [hback.mpr h.modified]
        rfl

/-! ### Entries there and back -/

/-- What comes back of a defect. -/
theorem defect_back (defect : Option String) :
    (if defect.getD "" = "" then none else some (defect.getD "")) = defect ↔
      defect ≠ some "" := by
  cases defect with
  | none => simp
  | some text => by_cases h : text = "" <;> simp [h]

/-- What comes back of metadata that an entry may not have. -/
theorem metadata_back (metadata : Option EntryMetadata) :
    (metadata.map Server.convertMetadata).mapM Client.convertMetadata = .ok metadata ↔
      ∀ m, metadata = some m → Client.convertMetadata (Server.convertMetadata m) = .ok m := by
  cases metadata with
  | none => simp [pure, Except.pure]
  | some m =>
    simp only [Option.map_some, Option.mapM_some, Option.some.injEq, forall_eq']
    cases Client.convertMetadata (Server.convertMetadata m) <;> simp [Functor.map, Except.map]

/-- What comes back of an entry whose name is the escape of some bytes. -/
theorem convertEntry_back (entry : Entry) (hname : ∃ bytes, entry.name = .ofBytes bytes) :
    Client.convertEntry (Server.convertEntry entry) = .ok entry ↔
      (∀ m, entry.metadata = some m →
        Client.convertMetadata (Server.convertMetadata m) = .ok m) ∧
      entry.defect ≠ some "" := by
  obtain ⟨name, kind, navigable, metadata, defect⟩ := entry
  obtain ⟨bytes, rfl⟩ := hname
  have hsent : Client.convertEntry (Server.convertEntry
      ⟨.ofBytes bytes, kind, navigable, metadata, defect⟩) = do
        let metadata ← (metadata.map Server.convertMetadata).mapM Client.convertMetadata
        return ⟨.ofBytes bytes, kind, navigable, metadata,
          if defect.getD "" = "" then none else some (defect.getD "")⟩ := by
    simp only [Client.convertEntry, Server.convertEntry, wirePath_ofBytes]
    cases kind <;> rfl
  rw [hsent, ← defect_back, ← metadata_back]
  cases (metadata.map Server.convertMetadata).mapM Client.convertMetadata with
  | error error =>
    constructor
    · intro h
      cases h
    · rintro ⟨h, -⟩
      cases h
  | ok back =>
    constructor
    · intro h
      injection h with h
      injection h with _ _ _ hmetadata hdefect
      exact ⟨congrArg _ hmetadata, hdefect⟩
    · rintro ⟨hmetadata, hdefect⟩
      injection hmetadata with hmetadata
      rw [hmetadata, hdefect]
      rfl

theorem ofBytes_escaped_eq_empty {bytes : Bytes} :
    (PathString.ofBytes bytes).escaped = .empty ↔ bytes = [] := by
  have hempty : escape [] = Str.empty := Str.ext_bytes (by decide +kernel)
  rw [PathString.ofBytes, ← hempty]
  exact escape_injective.eq_iff

/-- The system gives a time, not the first one there is; a link's target and an
error's text are not empty. -/
structure Inspected.Known (i : Inspected) : Prop where
  modified : ∀ metadata, i.lstat = .ok metadata →
    ∃ time, metadata.modified = some time ∧ time ≠ .earliest
  target : ∀ metadata, i.lstat = .ok metadata → kindOf metadata.fileType = .symlink →
    i.readLink ≠ some []
  error : i.lstat ≠ .error ""

/-- **An entry comes back as it was found** exactly where the system gave it a time that
the wire has a place for, and no empty text. -/
theorem entry_survives_iff (i : Inspected) :
    Client.convertEntry (Server.convertEntry (inspectEntry i)) = .ok (inspectEntry i) ↔
      i.Known := by
  have hname : ∃ bytes, (inspectEntry i).name = .ofBytes bytes := by
    refine ⟨i.fileName, ?_⟩
    rw [inspectEntry]
    split <;> rfl
  rw [convertEntry_back _ hname]
  cases hlstat : i.lstat with
  | error message =>
    simp only [inspectEntry, hlstat]
    constructor
    · rintro ⟨-, hdefect⟩
      exact ⟨by simp [hlstat], by simp [hlstat], by simpa [hlstat] using hdefect⟩
    · intro h
      exact ⟨by simp, by simpa [hlstat] using h.error⟩
  | ok metadata =>
    obtain ⟨target, htarget⟩ : ∃ target, target =
      if kindOf metadata.fileType = .symlink then i.readLink.map PathString.ofBytes else none :=
      ⟨_, rfl⟩
    have hescaped : ∀ path, target = some path → ∃ bytes, path = .ofBytes bytes := by
      rintro path rfl
      split at htarget
      · obtain ⟨bytes, -, rfl⟩ := Option.map_eq_some_iff.mp htarget.symm
        exact ⟨bytes, rfl⟩
      · cases htarget
    have hempty : target.map PathString.escaped ≠ some .empty ↔
        (kindOf metadata.fileType = .symlink → i.readLink ≠ some []) := by
      rw [htarget]
      split
      · next hlink => simp [hlink, ofBytes_escaped_eq_empty]
      · next hlink => simp [hlink]
    have hback := convertMetadata_back
      ⟨metadata.len, metadata.modified, some metadata.mode, target⟩ hescaped
    simp only [inspectEntry, hlstat, ← htarget, Option.some.injEq, forall_eq', hback]
    constructor
    · rintro ⟨hsurvives, -⟩
      refine ⟨?_, ?_, by simp [hlstat]⟩
      · rintro _ hok
        cases hlstat.symm.trans hok
        exact hsurvives.modified
      · rintro _ hok
        cases hlstat.symm.trans hok
        exact hempty.mp hsurvives.target
    · intro h
      exact ⟨⟨h.modified metadata hlstat, hempty.mpr (h.target metadata hlstat)⟩, nofun⟩

/-- A file whose time of change is not known. -/
def timeless : Inspected where
  fileName := [0x61]
  lstat := .ok { fileType := ⟨false, true, false⟩, len := 0, modified := none, mode := 0o644 }
  fileType := none
  leadsToDir := false
  readLink := none

/-- What a client reads of when an entry was changed. -/
def modifiedBack (entry : Entry) : Except Client.InvalidData (Option Timespec) :=
  (Client.convertEntry (Server.convertEntry entry)).map fun back =>
    back.metadata.bind EntryMetadata.modified

/-- It comes back as one changed at the first moment of 1970. -/
theorem timeless_comes_back_dated :
    modifiedBack (inspectEntry timeless) = .ok (some .epoch) ∧
      Client.convertEntry (Server.convertEntry (inspectEntry timeless)) ≠
        .ok (inspectEntry timeless) := by
  refine ⟨by decide +kernel, fun h => ?_⟩
  have hback := congrArg (Except.map fun back : Entry =>
    back.metadata.bind EntryMetadata.modified) h
  revert hback
  decide +kernel

end FilePeeker.Wire
