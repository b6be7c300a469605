import FilePeeker.Fs.Error
import FilePeeker.Home.Home
import FilePeeker.Lib.Directory
import FilePeeker.Lib.Steps

/-!
# The saved machines

`machines.toml` holds the SSH machines that `fpk machine add` saved.  `add` and `remove`
of `cli::machine` are here as what one process does, step by step, to the two files in
its home's directory: the catalog, and the partial file that `save` writes beside it and
renames over it.  The name of the partial file is the same for every process.

What TOML makes of a catalog is a parameter (`Toml`).  The long work over SSH between the
load and the save of `add` is one step, that ends well or with a message.
-/

namespace FilePeeker

open FilePeeker.Path

/-- `Home::machines_file`. -/
def Home.machinesFile (home : Home) : Bytes := join home.dir (ascii "machines.toml")

namespace Client

structure Machine where
  id : Text
  label : Text
  ssh : Text
  enabled : Bool
deriving DecidableEq, Repr

/-- `Machine::new`, where `uuid` is the new UUID's hex digits. -/
def Machine.new (label ssh uuid : Text) : Machine where
  id := "m-".toList ++ uuid.take 8
  label := label
  ssh := ssh
  enabled := true

/-- `char::is_control`. -/
def isControl (c : Char) : Bool := c.toNat < 0x20 ∨ (0x7F ≤ c.toNat ∧ c.toNat < 0xA0)

/-- Why a label cannot name a machine, if it cannot. -/
def invalidLabel (label : Text) : Option String :=
  if label = [] then some "a label cannot be empty"
  else if label = "local".toList then some "`local` is this machine's own label"
  else if label.any fun c => isWhitespace c || isControl c then some "a label cannot contain spaces"
  else none

/-- The `toml` crate's writing and reading of a `Catalog`. -/
structure Toml where
  encode : List Machine → Except Text Str
  decode : Str → Except Text (List Machine)

/-- What is written reads back. -/
def Toml.RoundTrips (toml : Toml) : Prop :=
  ∀ machines text, toml.encode machines = .ok text → toml.decode text = .ok machines

/-! ### The two files -/

inductive File
  | catalog
  | partialCatalog
deriving DecidableEq, Repr

abbrev Files := Directory File UInt8

/-- What `load` makes of the bytes it has read. -/
def parse (toml : Toml) (home : Home) (bytes : Bytes) : Except Text (List Machine) :=
  let path := displayPath home.machinesFile
  if h : Utf8.Valid bytes then
    (toml.decode ⟨bytes, h⟩).mapError fun error => path ++ " is not valid: ".toList ++ error
  else .error ("cannot read ".toList ++ path ++ ": stream did not contain valid UTF-8".toList)

def cannotRead (home : Home) (error : Fs.IoError) : Text :=
  "cannot read ".toList ++ displayPath home.machinesFile ++ ": ".toList ++ error.message

def cannotWrite (home : Home) (error : Fs.IoError) : Text :=
  "cannot write ".toList ++ displayPath home.machinesFile ++ ": ".toList ++ error.message

/-! ### A process -/

inductive Command
  | add (label target : Text)
  | remove (label : Text)
deriving DecidableEq, Repr

def Command.label : Command → Text
  | add label _ | remove label => label

inductive Phase
  /-- `add` has checked nothing yet. -/
  | checking
  /-- About to open the catalog. -/
  | loading
  /-- In `read_to_string` of an open file, with what it has read. -/
  | reading (inode : Nat) (got : Bytes)
  /-- `add` probes the host, installs there and starts its server. -/
  | connecting (saved : List Machine)
  /-- In `save`: about to create the home. -/
  | creating (text : Bytes)
  /-- About to open the partial file. -/
  | opening (text : Bytes)
  /-- In `write_all` of an open file, with what is left of the text. -/
  | writing (inode offset : Nat) (rest : Bytes)
  | renaming
  | ended (result : Except Text Unit)
deriving DecidableEq

structure Process where
  command : Command
  phase : Phase
  /-- The file the list was read from, if there was one; only theorems look at it. -/
  basis : Option Nat
deriving DecidableEq

namespace Process

/-- `remove` has nothing to check before it loads. -/
def start (command : Command) : Process where
  command
  phase := match command with
    | .add _ _ => .checking
    | .remove _ => .loading
  basis := none

def enter (p : Process) (phase : Phase) : Process := { p with phase }

def fail (p : Process) (message : Text) : Process := p.enter (.ended (.error message))

/-- `save`, up to where it has the text to write. -/
def save (toml : Toml) (home : Home) (machines : List Machine) (p : Process) : Process :=
  match toml.encode machines with
  | .error error => p.fail ("cannot encode ".toList ++ displayPath home.machinesFile ++
      ": ".toList ++ error)
  | .ok text => p.enter (.creating text.bytes)

/-- What a command does first with the list it has loaded. -/
def loaded (toml : Toml) (home : Home) (saved : List Machine) (p : Process) : Process :=
  match p.command with
  | .add label target =>
    match saved.find? (·.label = label) with
    | some existing =>
      if existing.ssh ≠ target then
        p.fail ("`".toList ++ label ++ "` is already saved for ".toList ++ existing.ssh ++
          "; remove it first to point it elsewhere".toList)
      else p.enter (.connecting saved)
    | none => p.enter (.connecting saved)
  | .remove label =>
    let kept := saved.filter (·.label ≠ label)
    if kept.length = saved.length then
      p.fail ("no machine is saved as `".toList ++ label ++ "`".toList)
    else p.save toml home kept

/-- The end of `add`, when the host has what it needs. -/
def connected (toml : Toml) (home : Home) (uuid : Text) (saved : List Machine) (p : Process) :
    Process :=
  match p.command with
  | .add label target =>
    if saved.any (·.label = label) then p.enter (.ended (.ok ()))
    else p.save toml home (saved ++ [Machine.new label target uuid])
  | .remove _ => p

/-- The text is written, or some of it is left. -/
def wrote (inode offset : Nat) (rest : Bytes) (p : Process) : Process :=
  p.enter (if rest = [] then .renaming else .writing inode offset rest)

end Process

/-- What a process does next, and how it comes out: an operation on the files that fails
does so with an error of the system. -/
inductive Op
  /-- `invalid_label`, and `Config::load` with its message if it fails. -/
  | check (config : Option Text)
  | openCatalog (failure : Option Fs.IoError)
  /-- Reads up to `n` bytes, and ends at the end of the file. -/
  | read (n : Nat)
  | readFails (error : Fs.IoError)
  /-- The work on the host, with its message if it fails. -/
  | connect (failure : Option Text) (uuid : Text)
  | create (failure : Option Fs.IoError)
  | openPartial (failure : Option Fs.IoError)
  /-- Writes up to `n` bytes. -/
  | write (n : Nat)
  | writeFails (error : Fs.IoError)
  | rename (failure : Option Fs.IoError)
deriving DecidableEq

/-- One step of a process, with what it does to the files. -/
def Process.step (toml : Toml) (home : Home) (d : Files) (p : Process) :
    Op → Option (Process × Files)
  | .check config =>
    match p.phase, p.command with
    | .checking, .add label _ =>
      match invalidLabel label, config with
      | some reason, _ => some (p.fail ("cannot name a machine `".toList ++ label ++
          "`: ".toList ++ reason.toList), d)
      | none, some message => some (p.fail message, d)
      | none, none => some (p.enter .loading, d)
    | _, _ => none
  | .openCatalog failure =>
    match p.phase, failure, d.entry .catalog with
    | .loading, some error, _ =>
      -- A file that is not there is no failure.
      if error.kind = .notFound then none else some (p.fail (cannotRead home error), d)
    | .loading, none, none => some (p.loaded toml home [], d)
    | .loading, none, some inode =>
      some ({ p with basis := some inode, phase := .reading inode [] }, d)
    | _, _, _ => none
  | .read n =>
    match p.phase with
    | .reading inode got =>
      if n = 0 then none
      else
        match ((d.content inode).drop got.length).take n with
        | [] =>
          match parse toml home got with
          | .error message => some (p.fail message, d)
          | .ok saved => some (p.loaded toml home saved, d)
        | more => some (p.enter (.reading inode (got ++ more)), d)
    | _ => none
  | .readFails error =>
    match p.phase with
    | .reading _ _ =>
      if error.kind = .notFound then none else some (p.fail (cannotRead home error), d)
    | _ => none
  | .connect failure uuid =>
    match p.phase, failure with
    | .connecting _, some message => some (p.fail message, d)
    | .connecting saved, none => some (p.connected toml home uuid saved, d)
    | _, _ => none
  | .create failure =>
    match p.phase, failure with
    | .creating _, some error => some (p.fail (cannotWrite home error), d)
    | .creating text, none => some (p.enter (.opening text), d)
    | _, _ => none
  | .openPartial failure =>
    match p.phase, failure with
    | .opening _, some error => some (p.fail (cannotWrite home error), d)
    | .opening text, none =>
      let (d, inode) := d.openCut .partialCatalog
      some (p.wrote inode 0 text, d)
    | _, _ => none
  | .write n =>
    match p.phase with
    | .writing inode offset rest =>
      if n = 0 then none
      else some (p.wrote inode (offset + (rest.take n).length) (rest.drop n),
        d.write 0 inode offset (rest.take n))
    | _ => none
  | .writeFails error =>
    match p.phase with
    | .writing _ _ _ => some (p.fail (cannotWrite home error), d)
    | _ => none
  | .rename failure =>
    match p.phase, failure with
    | .renaming, some error => some (p.fail (cannotWrite home error), d)
    | .renaming, none =>
      (d.rename .partialCatalog .catalog).map fun d => (p.enter (.ended (.ok ())), d)
    | _, _ => none

/-! ### Two processes -/

/-- Two commands in one home. -/
structure World where
  files : Files
  processes : Bool → Process

/-- One of the processes has come to this, and the files to these. -/
def World.after (w : World) (i : Bool) (p : Process) (files : Files) : World :=
  { files, processes := Function.update w.processes i p }

structure Action where
  process : Bool
  op : Op
deriving DecidableEq

def step (toml : Toml) (home : Home) (w : World) (a : Action) : Option World :=
  ((w.processes a.process).step toml home w.files a.op).map fun (p, files) =>
    w.after a.process p files

end Client

end FilePeeker
