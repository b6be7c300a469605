import FilePeeker.Lib.Results
import FilePeeker.Path.Reading

/-!
# What fails on the filesystem

The kinds of `io::Error` that the code tells apart, and `FsError` of `fs::error`: what a
client can act on, with a message naming the path.
-/

namespace FilePeeker

open FilePeeker.Path

/-- `Path::display`, and `PathBuf`'s. -/
def displayPath (path : Bytes) : Text := fromUtf8Lossy path

namespace Fs

/-- `io::ErrorKind`. -/
inductive ErrorKind
  | notFound
  | permissionDenied
  | alreadyExists
  | notADirectory
  | isADirectory
  | other
deriving DecidableEq, Repr

structure IoError where
  kind : ErrorKind
  message : Text
deriving DecidableEq, Repr

inductive FsErrorKind
  | invalidArgument
  | alreadyExists
  | notFound
  | permissionDenied
  | notDirectory
  | notFile
  | internal
deriving DecidableEq, Repr

structure FsError where
  kind : FsErrorKind
  message : Text
deriving DecidableEq, Repr

/-- `kind_of`. -/
def ErrorKind.fsKind : ErrorKind → FsErrorKind
  | .alreadyExists => .alreadyExists
  | .notFound => .notFound
  | .permissionDenied => .permissionDenied
  | .notADirectory => .notDirectory
  | .isADirectory => .notFile
  | .other => .internal

/-- `FsError::from_io`. -/
def FsError.fromIo (error : IoError) : FsError := ⟨error.kind.fsKind, error.message⟩

/-- `FsError::at`: `error` while doing `action` to `path`. -/
def FsError.at (action : String) (path : Bytes) (error : IoError) : FsError where
  kind := error.kind.fsKind
  message := (action ++ " `").toList ++ displayPath path ++ "`: ".toList ++ error.message

/-- `{:02X}`. -/
def upperHex (byte : UInt8) : Text :=
  [byte / 16, byte % 16].map fun digit => Char.ofNat (hexDigit digit).toNat

/-- What an `EscapeError` says. -/
def escapeErrorText : EscapeError → Text
  | .truncated => "escape sequence is truncated".toList
  | .notUppercaseHex => "escape sequence has a digit that is not uppercase hexadecimal".toList
  | .notEscapable byte => "`%".toList ++ upperHex byte ++
      "` is not an escapable byte: only bytes from 0x80 are escaped".toList

def FsError.ofEscape (error : EscapeError) : FsError where
  kind := .invalidArgument
  message := "path is not correctly escaped: ".toList ++ escapeErrorText error

/-- The real path an operation opens, exactly as given; a relative one is refused. -/
def absolute (path : PathString) : Except FsError Bytes := do
  let real ← path.toBytes.mapError FsError.ofEscape
  if isAbsolute real then return real
  else throw ⟨.invalidArgument,
    "`".toList ++ path.display ++ "` is relative; a path must start with `/`".toList⟩

theorem isAbsolute_of_absolute {path : PathString} {real : Bytes}
    (h : absolute path = .ok real) : isAbsolute real := by
  obtain ⟨bytes, -, hbytes⟩ := bind_eq_ok h
  split at hbytes
  · next habs =>
    cases hbytes
    exact habs
  · cases hbytes

end Fs

/-- `PathString::is_name`: one component, neither `.` nor `..` nor the root. -/
def PathString.isName (path : PathString) : Bool :=
  match path.toBytes with
  | .error _ => false
  | .ok real =>
    match components real with
    | [.normal _] => true
    | _ => false

theorem PathString.toBytes_of_isName {path : PathString} (h : path.isName) :
    ∃ real, path.toBytes = .ok real := by
  unfold PathString.isName at h
  cases hreal : path.toBytes with
  | error _ => rw [hreal] at h; cases h
  | ok real => exact ⟨real, rfl⟩

end FilePeeker
