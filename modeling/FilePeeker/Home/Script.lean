import FilePeeker.Home.Home
import FilePeeker.Lib.Shell

/-!
# The host directory as the shell finds it

`host_dir_script` of `home.rs`, on Linux: the shell a client sends ahead of every
command over SSH.  It is to mirror `Home::from_env` on the machine that runs it.

It does so where both read the environment alike (`AgreesWhen`).  The shell takes
a relative `FILE_PEEKER_HOME`, which the server ignores, and never asks whether
`HOME` is absolute.  It looks for an ID among hex digits, dashes, blanks, tabs,
newlines and NULs in any order (`ShellReads`), where the server wants the white space
outside and knows more of it; and it writes a `/` after a `HOME` that ends in one.
-/

namespace FilePeeker

open FilePeeker.Path Home Shell

variable {profile : Profile} {vars : Vars} {files : MachineIdFiles} {uid : UInt32}
  {content home id dir : Bytes} {c : UInt8}

/-! ### The script -/

/-- What comes of running the script. -/
inductive ScriptOutcome
  | sets (fpkHostDir : Bytes)
  | exits (status : Nat) (stderr : String)
deriving DecidableEq, Repr

/-- `[0-9a-f]`. -/
def isLowerHex (c : UInt8) : Bool := (0x30 ≤ c ∧ c ≤ 0x39) ∨ (0x61 ≤ c ∧ c ≤ 0x66)

/-- `' \t\n-'`. -/
def dropped : Bytes := [0x20, 0x09, newline, dash]

/-- `fpk_id`: what it leaves in `id`, and whether it succeeds. -/
def fpkId (arg : Bytes) : Bytes × Bool :=
  let id := substitute (trRange 0x41 0x46 0x61 (trDelete dropped arg))
  -- `*[!0-9a-f]*`, then not `*[!0]*`, then the length.
  (id, if id.any fun c => !isLowerHex c then false
    else if ¬ id.any fun c => c ≠ zero then false
    else id.length = 32)

/-- `id` after the loop over the files, which begins and ends a round it is not left
in with `id=`. -/
def findId : List (Option Bytes) → Bytes
  | [] => []
  | none :: files => findId files
  | some content :: files =>
    let (id, success) := fpkId (substitute content)
    if success then id else findId files

def hostDirScript (profile : Profile) (vars : Vars) (files : MachineIdFiles) :
    ScriptOutcome :=
  if expand vars.filePeekerHome ≠ [] then .sets (expand vars.filePeekerHome)
  else
    let id := findId files.inOrder
    if id = [] then .exits 2 "fpk: cannot read this machine's ID\n"
    else .sets (expand vars.home ++ slash :: (directoryName profile ++ slash ::
      (hosts ++ slash :: id)))

/-! ### Which files the shell takes -/

/-- Hex digits, with what the shell drops anywhere among them. -/
def ShellReads (content : Bytes) : Prop :=
  (∀ c ∈ content, isHexDigit c ∨ c ∈ 0 :: dropped) ∧ IsId (digits content)

/-- `tr 'A-F' 'a-f'`, of one byte. -/
def trHex (c : UInt8) : UInt8 := if 0x41 ≤ c ∧ c ≤ 0x46 then c - 0x41 + 0x61 else c

theorem toNat_upper (h : 0x41 ≤ c ∧ c ≤ 0x46) : (c - 0x41 + 0x61).toNat = c.toNat + 0x20 := by
  have hle : (0x41 : UInt8) ≤ c := h.1
  have h2 := h.2
  simp only [UInt8.le_iff_toNat_le, UInt8.toNat_ofNat] at hle h2
  rw [UInt8.toNat_add, UInt8.toNat_sub_of_le _ _ h.1]
  simp only [UInt8.toNat_ofNat]
  omega

theorem isLowerHex_trHex : isLowerHex (trHex c) = isHexDigit c := by
  rw [Bool.eq_iff_iff, trHex]
  split_ifs with h
  · have hn := toNat_upper h
    simp only [isLowerHex, isHexDigit, decide_eq_true_eq, UInt8.le_iff_toNat_le, hn,
      UInt8.toNat_ofNat] at *
    omega
  · simp only [isLowerHex, isHexDigit, decide_eq_true_eq]
    tauto

theorem trHex_of_isHexDigit (h : isHexDigit c) : trHex c = toAsciiLowercase c := by
  rw [trHex, toAsciiLowercase]
  simp only [isHexDigit, decide_eq_true_eq] at h
  split_ifs with hupper hletter hletter
  · apply UInt8.toNat_inj.mp
    rw [toNat_upper hupper, UInt8.toNat_add]
    have hle := hupper.2
    simp only [UInt8.le_iff_toNat_le, UInt8.toNat_ofNat] at hle ⊢
    omega
  · simp only [UInt8.le_iff_toNat_le, UInt8.toNat_ofNat] at *
    omega
  · simp only [UInt8.le_iff_toNat_le, UInt8.toNat_ofNat] at *
    omega
  · rfl

theorem trHex_ne (h : c ∉ 0 :: dropped) : trHex c ≠ 0 ∧ trHex c ≠ newline := by
  rw [trHex]
  split_ifs with hupper
  · have hn := toNat_upper hupper
    constructor
    all_goals
      intro heq
      have := congrArg UInt8.toNat heq
      rw [hn] at this
      simp [newline] at this
  · constructor
    all_goals
      rintro rfl
      exact h (by decide)

/-- What `fpk_id` leaves in `id`. -/
theorem fpkId_fst (content : Bytes) :
    (fpkId (substitute content)).1 = (trDelete (0 :: dropped) content).map trHex := by
  have hrange (input : Bytes) : trRange 0x41 0x46 0x61 input = input.map trHex := rfl
  rw [fpkId, hrange, trDelete_substitute (by decide)]
  refine substitute_plain fun c hc => ?_
  obtain ⟨d, hd, rfl⟩ := List.mem_map.mp hc
  exact trHex_ne (by simpa using List.of_mem_filter hd)

theorem not_isHexDigit_of_mem : ∀ c ∈ 0 :: dropped, ¬ isHexDigit c := by decide +kernel

/-- `fpk_id` succeeds on 32 lowercase hex digits that are not all `0`. -/
theorem fpkId_snd (arg : Bytes) : (fpkId arg).2 ↔ (∀ c ∈ (fpkId arg).1, isLowerHex c) ∧
    (∃ c ∈ (fpkId arg).1, c ≠ zero) ∧ (fpkId arg).1.length = 32 := by
  simp [fpkId]

theorem map_trHex_eq_digits (h : ∀ c ∈ content, isHexDigit c ∨ c ∈ 0 :: dropped) :
    (trDelete (0 :: dropped) content).map trHex = digits content := by
  have hfilter : trDelete (0 :: dropped) content = content.filter isHexDigit := by
    refine List.filter_congr fun c hc => ?_
    rcases h c hc with hhex | hdrop
    · have hnot : c ∉ 0 :: dropped := fun hdrop => not_isHexDigit_of_mem c hdrop hhex
      rw [hhex, decide_eq_true hnot]
    · have hnot : isHexDigit c = false := by simpa using not_isHexDigit_of_mem c hdrop
      rw [hnot, decide_eq_false (not_not_intro hdrop)]
  rw [hfilter, digits]
  exact List.map_congr_left fun c hc => trHex_of_isHexDigit (List.of_mem_filter hc)

/-- What the shell makes of one file. -/
def readByShell (file : Option Bytes) : Option Bytes :=
  file.bind fun content =>
    let (id, success) := fpkId (substitute content)
    if success then some id else none

theorem forall_isLowerHex_iff :
    (∀ c ∈ (trDelete (0 :: dropped) content).map trHex, isLowerHex c) ↔
      ∀ c ∈ content, isHexDigit c ∨ c ∈ 0 :: dropped := by
  constructor
  · intro h c hc
    by_cases hdrop : c ∈ 0 :: dropped
    · exact .inr hdrop
    · have hmem : c ∈ trDelete (0 :: dropped) content :=
        List.mem_filter.mpr ⟨hc, decide_eq_true hdrop⟩
      have hlower := h (trHex c) (List.mem_map_of_mem hmem)
      rw [isLowerHex_trHex] at hlower
      exact .inl hlower
  · intro h c hc
    obtain ⟨d, hd, rfl⟩ := List.mem_map.mp hc
    obtain ⟨hmem, hdrop⟩ := List.mem_filter.mp hd
    rw [isLowerHex_trHex]
    exact (h d hmem).resolve_right (of_decide_eq_true hdrop)

theorem isHexDigit_digits : ∀ c ∈ digits content, isHexDigit c := by
  intro c hc
  obtain ⟨d, hd, rfl⟩ := List.mem_map.mp hc
  rw [isHexDigit_toAsciiLowercase]
  exact List.of_mem_filter hd

/-- `fpk_id` succeeds on what a file holds where that is hex digits, with nothing
among them that it does not drop. -/
theorem fpkId_snd_iff (content : Bytes) :
    (fpkId (substitute content)).2 ↔ ShellReads content := by
  rw [fpkId_snd, fpkId_fst, forall_isLowerHex_iff]
  constructor
  · rintro ⟨hall, hzero, hlen⟩
    rw [map_trHex_eq_digits hall] at hzero hlen
    exact ⟨hall, hlen, isHexDigit_digits, hzero⟩
  · rintro ⟨hall, hid⟩
    rw [map_trHex_eq_digits hall]
    exact ⟨hall, hid.nonzero, hid.length⟩

theorem shellReads_iff :
    readByShell (some content) = some id ↔ ShellReads content ∧ id = digits content := by
  have hread : readByShell (some content) = some id ↔
      (fpkId (substitute content)).2 ∧ (fpkId (substitute content)).1 = id := by
    rw [readByShell, Option.bind_some, Option.ite_none_right_eq_some, Option.some.injEq]
  rw [hread, fpkId_snd_iff, fpkId_fst]
  constructor
  · rintro ⟨h, rfl⟩
    exact ⟨h, map_trHex_eq_digits h.1⟩
  · rintro ⟨h, rfl⟩
    exact ⟨h, map_trHex_eq_digits h.1⟩

/-- What the loop leaves in `id`. -/
theorem findId_eq (files : List (Option Bytes)) :
    findId files = (files.findSome? readByShell).getD [] := by
  induction files with
  | nil => rfl
  | cons file files ih =>
    rw [List.findSome?_cons]
    cases file with
    | none => exact ih
    | some content =>
      rw [findId, readByShell, Option.bind_some]
      obtain ⟨id, success⟩ := fpkId (substitute content)
      cases success with
      | false => exact ih
      | true => rfl

theorem findSome?_readByShell_iff {files : List (Option Bytes)} :
    files.findSome? readByShell = some id ↔ Spells ShellReads files id :=
  findSome?_iff_spells rfl fun _ _ => shellReads_iff

/-! ### Agreeing with the server -/

/-- Two paths to one place: their components are the same. -/
def SamePath (a b : Bytes) : Prop := components a = components b

/-- The script sets what `from_env` finds, and fails where that does. -/
def Agree (same : Bytes → Bytes → Prop) (profile : Profile) (vars : Vars)
    (files : MachineIdFiles) (uid : UInt32) : Prop :=
  match fromEnv profile vars files uid, hostDirScript profile vars files with
  | .ok home, .sets dir => same dir home.dir
  | .ok _, .exits _ _ => False
  | .error _, .sets _ => False
  | .error _, .exits status _ => status ≠ 0

/-- The first file the server takes and the first one the shell takes spell one ID,
or neither takes a file. -/
def ReadAlike (files : MachineIdFiles) : Prop :=
  ∀ id, Spells ServerReads files.inOrder id ↔ Spells ShellReads files.inOrder id

/-- A `FILE_PEEKER_HOME` that is not empty is absolute; without one, the files read
alike under an absolute `HOME`, and under any other the shell takes none of them. -/
def AgreesWhen (vars : Vars) (files : MachineIdFiles) : Prop :=
  if expand vars.filePeekerHome ≠ [] then isAbsolute (expand vars.filePeekerHome) = true
  else if isAbsolute (expand vars.home) then ReadAlike files
  else ∀ id, ¬ Spells ShellReads files.inOrder id

/-- Where an absolute `HOME` is asked and the machine has an ID, `HOME` does not end in
a `/`. -/
def NoSecondSlash (vars : Vars) (files : MachineIdFiles) : Prop :=
  expand vars.filePeekerHome = [] → isAbsolute (expand vars.home) →
    (∃ id, Spells ServerReads files.inOrder id) → (expand vars.home).getLast? ≠ some slash

theorem isId_of_spells_shell {files : List (Option Bytes)} (h : Spells ShellReads files id) :
    IsId id := by
  obtain ⟨_, content, _, -, ⟨-, hid⟩, -, rfl⟩ := h
  exact hid

/-- What the script names under `HOME`. -/
def shellDir (profile : Profile) (home id : Bytes) : Bytes :=
  home ++ slash :: (directoryName profile ++ slash :: (hosts ++ slash :: id))

/-- Without `FILE_PEEKER_HOME`, the script goes by the files alone. -/
theorem hostDirScript_eq (h : expand vars.filePeekerHome = []) :
    hostDirScript profile vars files = match files.inOrder.findSome? readByShell with
      | some id => .sets (shellDir profile (expand vars.home) id)
      | none => .exits 2 "fpk: cannot read this machine's ID\n" := by
  rw [hostDirScript, if_neg (not_not_intro h), findId_eq]
  cases hfind : files.inOrder.findSome? readByShell with
  | none => rfl
  | some id =>
    have hne : id ≠ [] := by
      rintro rfl
      exact absurd (isId_of_spells_shell (findSome?_readByShell_iff.mp hfind)).length (by decide)
    rw [Option.getD_some, if_neg hne]
    rfl

theorem components_shellDir (hhome : isAbsolute home) (hid : IsId id) :
    components (shellDir profile home id) = components home ++
      [.normal (directoryName profile), .normal hosts, .normal id] := by
  rw [shellDir, components_absolute (isAbsolute_append hhome _), components_absolute hhome,
    inner_append, inner_append, inner_append, inner_directoryName, inner_hosts, inner_id hid]
  rfl

theorem join_after {stem name b : Bytes} (hne : name ≠ []) (hlast : name.getLast? ≠ some slash)
    (hb : ¬ isAbsolute b) : join (stem ++ name) b = stem ++ name ++ slash :: b := by
  have hend : ¬ (stem ++ name = [] ∨ (stem ++ name).getLast? = some slash) := by
    rintro (h | h)
    · exact hne (List.append_eq_nil_iff.mp h).2
    · rw [List.getLast?_append_of_ne_nil _ hne] at h
      exact hlast h
  rw [join, if_neg hb, if_neg hend]

/-- The two write one path, but for the slash between `HOME` and what is in it. -/
theorem hosted_dir_eq (hhome : isAbsolute home) (hid : IsId id) :
    (hosted profile home id uid).dir = if home.getLast? = some slash
      then home ++ (directoryName profile ++ slash :: (hosts ++ slash :: id))
      else shellDir profile home id := by
  have hne : home ≠ [] := fun h => by simp [h, isAbsolute] at hhome
  have hname : directoryName profile ≠ [] ∧ (directoryName profile).getLast? ≠ some slash := by
    cases profile <;> decide
  have hin (stem : Bytes) : join (join (stem ++ directoryName profile) hosts) id =
      stem ++ (directoryName profile ++ slash :: (hosts ++ slash :: id)) := by
    rw [join_after hname.1 hname.2 (by decide), ← List.singleton_append, ← List.append_assoc,
      join_after (by decide) (by decide) (not_isAbsolute_id hid)]
    simp
  rw [hosted, join.eq_def home, if_neg (not_isAbsolute_directoryName profile)]
  by_cases hlast : home.getLast? = some slash
  · rw [if_pos hlast, if_pos (.inr hlast), hin]
  · have hstem := hin (home ++ [slash])
    rw [List.append_assoc, List.singleton_append, List.append_assoc, List.singleton_append] at hstem
    rw [if_neg hlast, if_neg (not_or_intro hne hlast), hstem]
    rfl

theorem samePath_iff {id' : Bytes} (hhome : isAbsolute home) (hid : IsId id) (hid' : IsId id') :
    SamePath (shellDir profile home id') (hosted profile home id uid).dir ↔ id' = id := by
  rw [SamePath, components_shellDir hhome hid', components_hosted_dir hhome hid]
  simp

theorem eq_dir_iff {id' : Bytes} (hhome : isAbsolute home) (hid : IsId id) (hid' : IsId id') :
    shellDir profile home id' = (hosted profile home id uid).dir ↔
      id' = id ∧ home.getLast? ≠ some slash := by
  rw [hosted_dir_eq hhome hid]
  split_ifs with hlast
  · constructor
    · intro h
      have hlen := congrArg List.length h
      simp only [shellDir, List.length_append, List.length_cons, hid.length, hid'.length] at hlen
      omega
    · exact fun h => absurd hlast h.2
  · simp [shellDir, hlast]

/-- An empty or relative variable is none that `from_env` goes by. -/
theorem absolute_of_expand {value : Option Bytes} (h : ¬ isAbsolute (expand value)) :
    absolute value = none := by
  rw [absolute_eq_none]
  rintro path rfl
  exact h

theorem absolute_of_isAbsolute {value : Option Bytes} (h : isAbsolute (expand value)) :
    absolute value = some (expand value) := by
  cases value with
  | none => exact absurd h (by decide)
  | some path => exact absolute_eq_some.mpr ⟨rfl, h⟩

theorem agree_iff_of_home {same : Bytes → Bytes → Prop}
    (hfph : expand vars.filePeekerHome = []) :
    Agree same profile vars files uid ↔
      match platformMachineId files, files.inOrder.findSome? readByShell with
      | some id, some id' => if isAbsolute (expand vars.home) then
          same (shellDir profile (expand vars.home) id')
            (hosted profile (expand vars.home) id uid).dir else False
      | some _, none => ¬ isAbsolute (expand vars.home)
      | none, some _ => False
      | none, none => True := by
  have hfph' : absolute vars.filePeekerHome = none :=
    absolute_of_expand (by rw [hfph]; decide)
  rw [Agree, hostDirScript_eq hfph, fromEnv, resolve, hfph', machineId]
  cases platformMachineId files with
  | none =>
    cases files.inOrder.findSome? readByShell <;> cases absolute vars.home <;>
      simp [bind, Except.bind]
  | some id =>
    by_cases hhome : isAbsolute (expand vars.home)
    · rw [absolute_of_isAbsolute hhome]
      cases files.inOrder.findSome? readByShell <;>
        simp [bind, Except.bind, pure, Except.pure, hhome]
    · rw [absolute_of_expand hhome]
      cases files.inOrder.findSome? readByShell <;> simp [hhome]

theorem readAlike_iff : ReadAlike files ↔
    platformMachineId files = files.inOrder.findSome? readByShell := by
  constructor
  · intro h
    refine Option.ext fun id => ?_
    rw [platformMachineId_iff, findSome?_readByShell_iff, h id]
  · intro h id
    rw [← platformMachineId_iff, ← findSome?_readByShell_iff, h]

theorem none_read_iff : (∀ id, ¬ Spells ShellReads files.inOrder id) ↔
    files.inOrder.findSome? readByShell = none := by
  rw [Option.eq_none_iff_forall_ne_some]
  exact forall_congr' fun id => not_congr findSome?_readByShell_iff.symm

/-- A relative `FILE_PEEKER_HOME` is what the script sets, and what `from_env` never
finds. -/
theorem not_agree_of_relative {same : Bytes → Bytes → Prop}
    (hpath : ∀ {a b}, same a b → SamePath a b) (hne : expand vars.filePeekerHome ≠ [])
    (hrel : ¬ isAbsolute (expand vars.filePeekerHome)) :
    ¬ Agree same profile vars files uid := by
  rw [Agree, hostDirScript, if_pos hne]
  cases henv : fromEnv profile vars files uid with
  | error e => exact id
  | ok h =>
    intro hsame
    rcases fromEnv_iff.mp henv with ⟨dir, hdir, -⟩ | ⟨-, home, id, hhome, hid, rfl⟩
    · rw [absolute_of_expand hrel] at hdir
      simp at hdir
    · have hhome := (absolute_eq_some.mp hhome).2
      have hcomp := hpath hsame
      rw [SamePath, components_hosted_dir hhome (isId_of_platformMachineId hid),
        components_absolute hhome] at hcomp
      exact hrel (isAbsolute_of_components hcomp)

section

variable (same : Bytes → Bytes → Prop) (fits : Bytes → Prop)

/-- What it takes to agree, where `same` holds of the two directories under one `HOME`
if they are for one ID and `HOME` is as it has to be. -/
theorem agree_iff (hrefl : ∀ dir, same dir dir) (hpath : ∀ {a b}, same a b → SamePath a b)
    (hsame : ∀ {home id id'}, isAbsolute home → IsId id → IsId id' →
      (same (shellDir profile home id') (hosted profile home id uid).dir ↔
        id' = id ∧ fits home)) :
    Agree same profile vars files uid ↔ AgreesWhen vars files ∧
      (expand vars.filePeekerHome = [] → isAbsolute (expand vars.home) →
        (∃ id, Spells ServerReads files.inOrder id) → fits (expand vars.home)) := by
  unfold AgreesWhen
  by_cases hfph : expand vars.filePeekerHome = []
  · rw [agree_iff_of_home hfph, if_neg (not_not_intro hfph)]
    simp only [← platformMachineId_iff, readAlike_iff, none_read_iff]
    cases hserver : platformMachineId files with
    | none => cases hshell : files.inOrder.findSome? readByShell <;> split_ifs <;> simp
    | some id =>
      by_cases hhome : isAbsolute (expand vars.home)
      · cases hshell : files.inOrder.findSome? readByShell with
        | none => simp [hhome]
        | some id' =>
          have hid := isId_of_platformMachineId hserver
          have hid' := isId_of_spells_shell (findSome?_readByShell_iff.mp hshell)
          simp only [if_pos hhome, hsame hhome hid hid', Option.some.injEq]
          simp [hfph, hhome, eq_comm]
      · cases hshell : files.inOrder.findSome? readByShell <;> simp [hhome]
  · rw [if_pos hfph]
    by_cases habs : isAbsolute (expand vars.filePeekerHome)
    · have henv : fromEnv profile vars files uid = .ok (atDir (expand vars.filePeekerHome)) :=
        fromEnv_iff.mpr (.inl ⟨_, absolute_of_isAbsolute habs, rfl⟩)
      rw [Agree, henv, hostDirScript, if_pos hfph]
      simp [habs, hfph, hrefl, atDir]
    · simp [not_agree_of_relative hpath hfph habs, habs]

end

/-- The script names the place `from_env` finds where both read the environment alike
(`AgreesWhen`), and names it in the same bytes where in addition `HOME` brings no second
slash. -/
theorem script_agrees_iff (profile : Profile) (vars : Vars) (files : MachineIdFiles)
    (uid : UInt32) :
    (Agree SamePath profile vars files uid ↔ AgreesWhen vars files) ∧
      (Agree (· = ·) profile vars files uid ↔
        AgreesWhen vars files ∧ NoSecondSlash vars files) := by
  constructor
  · have hplace : Agree SamePath profile vars files uid ↔ AgreesWhen vars files ∧
        (expand vars.filePeekerHome = [] → isAbsolute (expand vars.home) →
          (∃ id, Spells ServerReads files.inOrder id) → True) :=
      agree_iff SamePath (fun _ => True) (fun _ => rfl) id fun hhome hid hid' => by
        rw [samePath_iff hhome hid hid', and_true]
    simpa using hplace
  · exact agree_iff (· = ·) (fun home => home.getLast? ≠ some slash) (fun _ => rfl)
      (fun h => congrArg components h) eq_dir_iff

def underHome : Vars := ⟨some (ascii "/home/me"), none⟩

/-- With a relative `FILE_PEEKER_HOME` the script sets that, and the server finds the
directory under `HOME`. -/
theorem relative_override_disagrees :
    (fromEnv .release { underHome with filePeekerHome := some (ascii "relative") }
        (machineWithId [newline]) 501).toOption.map Home.dir =
      some (ascii "/home/me/.file-peeker/hosts/0123456789abcdef0123456789abcdef") ∧
    hostDirScript .release { underHome with filePeekerHome := some (ascii "relative") }
        (machineWithId [newline]) = .sets (ascii "relative") ∧
    ¬ Agree (· = ·) .release { underHome with filePeekerHome := some (ascii "relative") }
        (machineWithId [newline]) 501 := by
  refine ⟨by decide +kernel, by decide +kernel, ?_⟩
  exact not_agree_of_relative (fun h => congrArg components h) (by decide) (by decide)

-- A line that ends in a carriage return: the server has an ID, and the script none.
example : (fromEnv .dev underHome (machineWithId [0x0D, newline]) 501).toOption.map Home.dir =
      some (ascii "/home/me/.file-peeker-dev/hosts/0123456789abcdef0123456789abcdef") ∧
    hostDirScript .dev underHome (machineWithId [0x0D, newline]) =
      .exits 2 "fpk: cannot read this machine's ID\n" := by
  decide +kernel

end FilePeeker
