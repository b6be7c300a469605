import FilePeeker.Home.MachineId
import FilePeeker.Task.Types

/-!
# Where a machine's files live

`Home` of `home.rs`: the host directory, and the connections directory with the two
sockets.  `Home.fromEnv` finds both from two variables, the machine's ID and the uid.

`fromEnv_iff` is what it makes of them: an absolute `FILE_PEEKER_HOME` is the host
directory and has the connections in its `run/`; otherwise an absolute `HOME` has
the host directory inside, and the connections are in `/tmp`, whatever `HOME` is.
-/

namespace FilePeeker

open FilePeeker.Path

/-- `build_info::RELEASE`, or not. -/
inductive Profile
  | release
  | dev
deriving DecidableEq, Repr

/-- `DIRECTORY_NAME`. -/
def directoryName : Profile → Bytes
  | .release => ascii ".file-peeker"
  | .dev => ascii ".file-peeker-dev"

/-- `RUN_PREFIX`. -/
def runPrefix : Profile → Bytes
  | .release => ascii "fpk"
  | .dev => ascii "fpk-dev"

/-- `HOSTS`. -/
def hosts : Bytes := ascii "hosts"

/-- `BY_NAME`. -/
def byName : Bytes := ascii "by-name"

/-- `RUN`: the connections directory under an overriding `FILE_PEEKER_HOME`. -/
def run : Bytes := ascii "run"

/-- The variables `from_env` reads, as a process has them. -/
structure Vars where
  home : Option Bytes
  filePeekerHome : Option Bytes
deriving DecidableEq, Repr

/-- Where this machine's `by-name/` link goes. -/
structure Home.Name where
  byName : Bytes
  id : Bytes
deriving DecidableEq, Repr

structure Home where
  dir : Bytes
  run : Bytes
  name : Option Home.Name
deriving DecidableEq, Repr

namespace Home

/-- `Home::at`: both places under `dir`. -/
def atDir (dir : Bytes) : Home := { dir, run := join dir FilePeeker.run, name := none }

/-- An absolute path a variable is set to. -/
def absolute (value : Option Bytes) : Option Bytes := value.filter fun path => isAbsolute path

def noHomeDirectory : IoError :=
  ⟨.notFound, "cannot find a home directory: set HOME or FILE_PEEKER_HOME to an absolute path"⟩

def noMachineId : IoError :=
  ⟨.notFound, "cannot read this machine's ID from /etc/machine-id or /var/lib/dbus/machine-id"⟩

/-- `/tmp/<prefix>-<uid>`. -/
def tmpRun (profile : Profile) (uid : UInt32) : Bytes :=
  ascii "/tmp/" ++ runPrefix profile ++ ascii "-" ++ ascii (toString uid.toNat)

/-- Both places of a machine under the home directory `home`. -/
def hosted (profile : Profile) (home id : Bytes) (uid : UInt32) : Home :=
  let root := join home (directoryName profile)
  { dir := join (join root hosts) id
    run := tmpRun profile uid
    name := some { byName := join root FilePeeker.byName, id } }

def resolve (profile : Profile) (vars : Vars) (machineId : Except IoError Bytes) (uid : UInt32) :
    Except IoError Home :=
  match absolute vars.filePeekerHome with
  | some dir => .ok (atDir dir)
  | none =>
    match absolute vars.home with
    | none => .error noHomeDirectory
    | some home => do
      let id ← machineId
      return hosted profile home id uid

/-- `machine_id`. -/
def machineId (files : MachineIdFiles) : Except IoError Bytes :=
  match platformMachineId files with
  | some id => .ok id
  | none => .error noMachineId

def fromEnv (profile : Profile) (vars : Vars) (files : MachineIdFiles) (uid : UInt32) :
    Except IoError Home := resolve profile vars (machineId files) uid

/-- Whether `FILE_PEEKER_HOME` placed the directory. -/
def isOverridden (home : Home) : Bool := home.name.isNone

def apiSocket (home : Home) : Bytes := join home.run (ascii "api.sock")

def clientSocket (home : Home) : Bytes := join home.run (ascii "client.sock")

def lock (home : Home) : Bytes := join home.dir (ascii "server.lock")

/-- `SOCKET_PATH_MAX`, on Linux. -/
def socketPathMax : Nat := 107

/-- `check_socket_path`. -/
def checkSocketPath (path : Bytes) : Except Text Unit :=
  if path.length > socketPathMax then
    .error ("the socket ".toList ++ fromUtf8Lossy path ++
      (" is " ++ toString path.length ++ " bytes long, and a unix socket's path can be at most " ++
        toString socketPathMax).toList)
  else .ok ()

/-- Fails, saying what to do, when a socket's path is longer than one can bind. -/
def checkSockets (home : Home) : Except Text Unit := do
  for path in [home.apiSocket, home.clientSocket] do
    (checkSocketPath path).mapError fun why =>
      why ++ "; set FILE_PEEKER_HOME to a shorter directory".toList

/-! ### What the environment decides -/

variable {profile : Profile} {vars : Vars} {files : MachineIdFiles} {uid : UInt32}
  {value : Option Bytes} {dir home id : Bytes} {h : Home}

theorem absolute_eq_some : absolute value = some dir ↔ value = some dir ∧ isAbsolute dir := by
  simp [absolute, Option.filter_eq_some_iff]

theorem absolute_eq_none :
    absolute value = none ↔ ∀ path, value = some path → ¬ isAbsolute path := by
  simp [absolute]

/-- What `from_env` makes of the environment. -/
theorem fromEnv_iff : fromEnv profile vars files uid = .ok h ↔
    (∃ dir, absolute vars.filePeekerHome = some dir ∧ h = atDir dir) ∨
      absolute vars.filePeekerHome = none ∧ ∃ home id, absolute vars.home = some home ∧
        platformMachineId files = some id ∧ h = hosted profile home id uid := by
  rw [fromEnv, resolve, machineId]
  cases absolute vars.filePeekerHome with
  | some dir => simp [eq_comm]
  | none =>
    cases absolute vars.home with
    | none => simp
    | some home =>
      cases platformMachineId files with
      | none => simp [bind, Except.bind]
      | some id => simp [bind, Except.bind, pure, Except.pure, eq_comm]

/-! ### Paths by their components -/

theorem inner_directoryName (profile : Profile) :
    inner (directoryName profile) = [.normal (directoryName profile)] := by
  cases profile <;> exact inner_name (by decide) (by decide) (by decide) (by decide)

theorem inner_hosts : inner hosts = [.normal hosts] :=
  inner_name (by decide) (by decide) (by decide) (by decide)

theorem not_isAbsolute_directoryName (profile : Profile) :
    ¬ isAbsolute (directoryName profile) := by
  cases profile <;> decide

theorem slash_not_mem_of_isId (hid : IsId id) : slash ∉ id := fun h =>
  absurd (hid.hex _ h) (by decide)

theorem inner_id (hid : IsId id) : inner id = [.normal id] := by
  have hlen := hid.length
  refine inner_name (slash_not_mem_of_isId hid) ?_ ?_ ?_
  all_goals
    rintro rfl
    exact absurd hlen (by decide)

theorem not_isAbsolute_id (hid : IsId id) : ¬ isAbsolute id := by
  intro h
  obtain ⟨rest, rfl⟩ := isAbsolute_iff.mp h
  exact slash_not_mem_of_isId hid (by simp)

theorem components_hosted_dir (hhome : isAbsolute home) (hid : IsId id) :
    components (hosted profile home id uid).dir = components home ++
      [.normal (directoryName profile), .normal hosts, .normal id] := by
  have hroot : isAbsolute (join home (directoryName profile)) := isAbsolute_join hhome
  rw [hosted, components_join (isAbsolute_join hroot) (not_isAbsolute_id hid),
    components_join hroot (by decide),
    components_join hhome (not_isAbsolute_directoryName profile), inner_directoryName, inner_hosts,
    inner_id hid, List.append_assoc, List.append_assoc]
  rfl

/-! ### The connections directory in `/tmp` -/

theorem decimal_eq (n : Nat) : ascii (toString n) =
    (Nat.toDigits 10 n).map fun c => c.toNat.toUInt8 := by
  show ascii n.repr = _
  rw [ascii, Nat.toList_repr]

theorem slash_not_mem_decimal (n : Nat) : slash ∉ ascii (toString n) := by
  intro h
  rw [decimal_eq] at h
  obtain ⟨c, hc, heq⟩ := List.mem_map.mp h
  have hdigit := Nat.isDigit_of_mem_toDigits (by decide) (Nat.le_refl 10) hc
  have hrange : 48 ≤ c.toNat ∧ c.toNat ≤ 57 := by
    simpa [Char.isDigit, UInt32.le_iff_toNat_le] using hdigit
  have hn := congrArg UInt8.toNat heq
  rw [Nat.toUInt8, UInt8.toNat_ofNat'] at hn
  have hs : slash.toNat = 47 := rfl
  omega

theorem length_decimal (uid : UInt32) : (ascii (toString uid.toNat)).length ≤ 10 := by
  rw [decimal_eq, List.length_map, Nat.length_toDigits_le_iff (by decide) (by decide)]
  have := uid.toNat_lt
  omega

/-- The name of the connections directory in `/tmp`. -/
def tmpName (profile : Profile) (uid : UInt32) : Bytes :=
  runPrefix profile ++ ascii "-" ++ ascii (toString uid.toNat)

theorem four_le_length_tmpName (profile : Profile) (uid : UInt32) :
    4 ≤ (tmpName profile uid).length := by
  have hprefix : 3 ≤ (runPrefix profile).length := by cases profile <;> decide
  have hdash : (ascii "-").length = 1 := by decide
  simp only [tmpName, List.length_append]
  omega

theorem components_tmpRun (profile : Profile) (uid : UInt32) : components (tmpRun profile uid) =
    [.rootDir, .normal (ascii "tmp"), .normal (tmpName profile uid)] := by
  have heq : tmpRun profile uid = slash :: (ascii "tmp" ++ slash :: tmpName profile uid) := by
    simp only [tmpRun, tmpName, List.append_assoc]
    rfl
  have hslash : slash ∉ tmpName profile uid := by
    simp only [tmpName, List.mem_append, not_or]
    exact ⟨⟨by cases profile <;> decide, by decide⟩, slash_not_mem_decimal _⟩
  have hlen := four_le_length_tmpName profile uid
  have hname : inner (tmpName profile uid) = [.normal (tmpName profile uid)] := by
    refine inner_name hslash ?_ ?_ ?_
    all_goals
      intro h
      rw [h] at hlen
      exact absurd hlen (by decide)
  have htmp : inner (ascii "tmp") = [.normal (ascii "tmp")] :=
    inner_name (by decide) (by decide) (by decide) (by decide)
  rw [components_absolute (isAbsolute_iff.mpr ⟨_, heq⟩), heq, inner_root, inner_append, htmp,
    hname]
  rfl
theorem length_join_le (a b : Bytes) : (join a b).length ≤ a.length + 1 + b.length := by
  unfold join
  split_ifs
  · omega
  · rw [List.length_append]
    omega
  · rw [List.length_append, List.length_cons]
    omega

/-- The paths in `/tmp` are short enough. -/
theorem checkSockets_hosted : (hosted profile home id uid).checkSockets = .ok () := by
  have hprefix : (runPrefix profile).length ≤ 7 := by cases profile <;> decide
  have hdigits := length_decimal uid
  have htmp : (ascii "/tmp/").length = 5 := by decide
  have hdash : (ascii "-").length = 1 := by decide
  have hrun : (tmpRun profile uid).length ≤ 23 := by
    simp only [tmpRun, List.length_append]
    omega
  have hshort (name : Bytes) (hname : name.length ≤ 11) :
      checkSocketPath (join (tmpRun profile uid) name) = .ok () := by
    have := length_join_le (tmpRun profile uid) name
    rw [checkSocketPath, if_neg]
    simp only [socketPathMax]
    omega
  have hapi := hshort (ascii "api.sock") (by decide)
  have hclient := hshort (ascii "client.sock") (by decide)
  show checkSockets ⟨_, tmpRun profile uid, _⟩ = _
  simp only [checkSockets, apiSocket, clientSocket, List.forIn_cons, List.forIn_nil, hapi, hclient]
  rfl

end Home

end FilePeeker
