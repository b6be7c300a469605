import FilePeeker.Fs.Error
import FilePeeker.Home.MachineId
import FilePeeker.Lib.Code
import Mathlib.Algebra.Group.Nat.Defs

/-!
# The fingerprint of a source

A dev build is told by the hash of the files it was built from.  What `Source::read` gives
the hasher for them is, for each, its path, a NUL, the length of its content, and the
content.  A path has no NUL and a length is eight bytes, so those bytes tell the files, in
their order: two different lists of files have one hash only where the hash takes two
different texts to one (`fingerprint_tells_source`).
-/

namespace FilePeeker.Client

open Utf8

/-! ### What is hashed -/

/-- The lowest `k` bytes of a number, the lowest first. -/
def leBytes : Nat → Nat → Bytes
  | 0, _ => []
  | k + 1, n => n.toUInt8 :: leBytes k (n / 256)

/-- `u64::to_le_bytes` of a length. -/
def lengthBytes (n : Nat) : Bytes := leBytes 8 n

/-- What the hasher is given for one file. -/
def hashed (file : Str × Bytes) : Bytes :=
  (file.1.bytes ++ [0]) ++ (lengthBytes file.2.length ++ file.2)

def preimage (files : List (Str × Bytes)) : Bytes := files.flatMap hashed

/-! ### Reading a source -/

/-- What `git` ended with. -/
structure Output where
  success : Bool
  stdout : Bytes
  stderr : Bytes

/-- A directory, and what there is to see of it. -/
structure Checkout where
  dir : Bytes
  /-- What `git ls-files -z` gives, or why it did not run. -/
  git : Except Text Output
  isFile : Str → Bool
  read : Str → Except Text Bytes

structure Source where
  dir : Text
  files : List Str
  hash : Text
deriving DecidableEq

namespace Checkout

/-- The files `git` lists, sorted, without the crate under `old/` and without what is gone
from the working tree. -/
def listed (c : Checkout) (stdout : Bytes) : List Str :=
  let paths := ((stdout.splitOn 0).filter fun path => !path.isEmpty).map lossy
  ((paths.filter fun path => !(ascii "old/").isPrefixOf path.bytes).filter c.isFile).mergeSort
    fun a b => !List.lex b.bytes a.bytes fun x y => x.toNat < y.toNat

/-- A file with its content. -/
def file (c : Checkout) (path : Str) : Except Text (Str × Bytes) :=
  match c.read path with
  | .error error => .error ("cannot read ".toList ++ path.chars ++ ": ".toList ++ error)
  | .ok content => .ok (path, content)

/-- The files and what is in them. -/
def files (c : Checkout) : Except Text (List (Str × Bytes)) :=
  match c.git with
  | .error error =>
    .error ("cannot run git in ".toList ++ displayPath c.dir ++ ": ".toList ++ error)
  | .ok output =>
    if output.success then
      (c.listed output.stdout).mapM c.file
    else .error ("a dev build installs the source it was built from, and ".toList ++
      displayPath c.dir ++ " is not a git checkout: ".toList ++
      trim isWhitespace (fromUtf8Lossy output.stderr))

end Checkout

/-- `hash` is SHA-256 in hexadecimal. -/
def Source.read (hash : Bytes → Text) (c : Checkout) : Except Text Source := do
  let files ← c.files
  return { dir := displayPath c.dir, files := files.map Prod.fst, hash := hash (preimage files) }

/-! ### The build that is wanted -/

/-- What `fpk probe` says of a host. -/
structure Probe where
  installed : Bool
  version : Text
  clientProtocol : Nat
  build : Text
  sourceHash : Option Text

/-- `str::get(..n)`, in bytes. -/
def prefixOf : Nat → Text → Option Text
  | 0, _ => some []
  | _ + 1, [] => none
  | n + 1, c :: rest =>
    if c.utf8Size ≤ n + 1 then (prefixOf (n + 1 - c.utf8Size) rest).map (c :: ·) else none

/-- The first eight characters of a source hash. -/
def short (hash : Text) : Text := (prefixOf 8 hash).getD hash

def Probe.describe (probe : Probe) : Text :=
  if !probe.installed then "nothing installed".toList
  else if probe.build = "dev".toList then
    match probe.sourceHash with
    | some hash => "dev, source ".toList ++ short hash
    | none => "dev, source unknown".toList
  else "release v".toList ++ probe.version

inductive Wanted
  | release (version : Text)
  | dev (source : Source)

def clientProtocol : Nat := 3

/-- Why a host's build is not the wanted one, or `none` where it is. -/
def Wanted.mismatch (wanted : Wanted) (probe : Probe) : Option Text :=
  if !probe.installed then some "nothing is installed".toList
  else
    let same : Bool := match wanted with
      | .release version => probe.build = "release".toList ∧ probe.version = version
      | .dev source => probe.build = "dev".toList ∧ probe.sourceHash = some source.hash
    if same ∧ probe.clientProtocol = clientProtocol then none
    else some ("it has ".toList ++ probe.describe)

/-! ### What the bytes tell -/

theorem length_leBytes (k n : Nat) : (leBytes k n).length = k := by
  induction k generalizing n with
  | zero => rfl
  | succ k ih => rw [leBytes, List.length_cons, ih]

theorem leBytes_inj : ∀ {k m n : Nat}, m < 256 ^ k → n < 256 ^ k → leBytes k m = leBytes k n →
    m = n := by
  intro k
  induction k with
  | zero =>
    intro m n hm hn _
    rw [Nat.pow_zero, Nat.lt_one_iff] at hm hn
    rw [hm, hn]
  | succ k ih =>
    intro m n hm hn h
    obtain ⟨hlow, hrest⟩ := List.cons.inj h
    rw [Nat.pow_succ, Nat.mul_comm] at hm hn
    have hhigh := ih (Nat.div_lt_of_lt_mul hm) (Nat.div_lt_of_lt_mul hn) hrest
    have hlow' : m % 256 = n % 256 := congrArg UInt8.toNat hlow
    rw [← Nat.div_add_mod m 256, ← Nat.div_add_mod n 256, hhigh, hlow']

/-- A path as the hasher can be given one: not empty, and without a NUL. -/
def IsPath (path : Str) : Prop := path.bytes ≠ [] ∧ 0 ∉ path.bytes

/-- A file as the hasher can be given one. -/
def Hashable (file : Str × Bytes) : Prop := IsPath file.1 ∧ file.2.length < 2 ^ 64

/-- What is hashed for a file tells the file, and where the next one begins. -/
theorem hashed_selfDelimiting : SelfDelimiting Hashable hashed := by
  have hpath : SelfDelimiting IsPath fun path => path.bytes ++ [0] :=
    .terminated (fun _ _ _ _ => Str.ext_bytes) fun _ h => h.2
  have hlength : SelfDelimiting (· < 2 ^ 64) lengthBytes :=
    .ofLength 8 (fun n _ => length_leBytes 8 n) fun m n hm hn h => by
      rw [show (2 : Nat) ^ 64 = 256 ^ 8 by decide] at hm hn
      exact leBytes_inj hm hn h
  exact hpath.append fun _ => hlength.lengthPrefixed

theorem hashed_ne_nil (file : Str × Bytes) : hashed file ≠ [] := by simp [hashed]

/-- What is hashed for some files tells them. -/
theorem preimage_inj {files files' : List (Str × Bytes)} (h : ∀ file ∈ files, Hashable file)
    (h' : ∀ file ∈ files', Hashable file) (heq : preimage files = preimage files') :
    files = files' :=
  hashed_selfDelimiting.flatMap_inj hashed_ne_nil h h' heq

/-! ### What is read -/

/-- What `git -z` lists are paths. -/
theorem Checkout.isPath_of_listed {c : Checkout} {stdout : Bytes} {path : Str}
    (h : path ∈ c.listed stdout) : IsPath path := by
  have hpaths := List.mem_of_mem_filter (List.mem_of_mem_filter (List.mem_mergeSort.mp h))
  obtain ⟨segment, hsegment, rfl⟩ := List.mem_map.mp hpaths
  obtain ⟨hsplit, hne⟩ := List.mem_filter.mp hsegment
  have hne' : segment ≠ [] := by
    rintro rfl
    cases hne
  exact ⟨lossy_ne_nil hne', fun hzero =>
    notMem_of_mem_splitOn hsplit (mem_lossy (by decide) hzero)⟩

theorem Checkout.file_fst {c : Checkout} {path : Str} {file : Str × Bytes}
    (h : c.file path = .ok file) : file.1 = path := by
  unfold Checkout.file at h
  split at h <;> cases h
  rfl

theorem Checkout.isPath_of_files {c : Checkout} {files : List (Str × Bytes)}
    (h : c.files = .ok files) : ∀ file ∈ files, IsPath file.1 := by
  unfold Checkout.files at h
  split at h
  · cases h
  · next output _ =>
    split at h
    · have hlisted : ∀ path ∈ c.listed output.stdout, IsPath path :=
        fun _ => Checkout.isPath_of_listed
      generalize c.listed output.stdout = paths at h hlisted
      induction paths generalizing files with
      | nil =>
        cases h
        exact List.forall_mem_nil _
      | cons path paths ih =>
        obtain ⟨hpath, hpaths⟩ := List.forall_mem_cons.mp hlisted
        rw [List.mapM_cons] at h
        cases hfile : c.file path with
        | error error => rw [hfile] at h; cases h
        | ok file =>
          cases hrest : paths.mapM c.file with
          | error error => rw [hfile, hrest] at h; cases h
          | ok rest =>
            rw [hfile, hrest] at h
            cases h
            exact List.forall_mem_cons.mpr ⟨Checkout.file_fst hfile ▸ hpath, ih hrest hpaths⟩
    · cases h

theorem Source.read_hash {hash : Bytes → Text} {c : Checkout} {source : Source}
    (h : Source.read hash c = .ok source) :
    ∃ files, c.files = .ok files ∧ source.hash = hash (preimage files) := by
  unfold Source.read at h
  cases hfiles : c.files with
  | error error => rw [hfiles] at h; cases h
  | ok files =>
    rw [hfiles] at h
    cases h
    exact ⟨files, rfl, rfl⟩

theorem Wanted.hash_of_matches {source : Source} {probe : Probe}
    (h : (Wanted.dev source).mismatch probe = none) : probe.sourceHash = some source.hash := by
  unfold Wanted.mismatch at h
  split at h
  · cases h
  · dsimp only at h
    split at h
    · next hsame => exact (of_decide_eq_true hsame.1).2
    · cases h

/-- **The fingerprint tells the source.**  What is hashed for two lists of files is the same
only for one and the same list; and where a host's build, made from another checkout, passes
for the wanted one, the two have the same files, or the hash takes two texts to one. -/
theorem fingerprint_tells_source :
    (∀ files files' : List (Str × Bytes), (∀ file ∈ files, Hashable file) →
      (∀ file ∈ files', Hashable file) → preimage files = preimage files' → files = files') ∧
    ∀ (hash : Bytes → Text) (here there : Checkout) (source built : Source) (probe : Probe)
      (files files' : List (Str × Bytes)),
      Source.read hash here = .ok source → here.files = .ok files →
      Source.read hash there = .ok built → there.files = .ok files' →
      (∀ file ∈ files ++ files', file.2.length < 2 ^ 64) →
      probe.sourceHash = some built.hash → (Wanted.dev source).mismatch probe = none →
      files = files' ∨
        preimage files ≠ preimage files' ∧ hash (preimage files) = hash (preimage files') := by
  refine ⟨fun _ _ => preimage_inj, ?_⟩
  intro hash here there source built probe files files' hsource hfiles hbuilt hfiles' hsize
    hprobe hmatches
  have hpath := Checkout.isPath_of_files hfiles
  have hpath' := Checkout.isPath_of_files hfiles'
  obtain ⟨_, hread, hhash⟩ := Source.read_hash hsource
  obtain rfl := Except.ok.inj (hfiles.symm.trans hread)
  obtain ⟨_, hread', hhash'⟩ := Source.read_hash hbuilt
  obtain rfl := Except.ok.inj (hfiles'.symm.trans hread')
  have hsame : hash (preimage files) = hash (preimage files') := by
    rw [← hhash, ← hhash']
    exact Option.some.inj ((Wanted.hash_of_matches hmatches).symm.trans hprobe)
  by_cases heq : preimage files = preimage files'
  · refine .inl (preimage_inj (fun file h => ⟨hpath file h, ?_⟩) (fun file h => ⟨hpath' file h, ?_⟩)
      heq)
    · exact hsize file (List.mem_append_left _ h)
    · exact hsize file (List.mem_append_right _ h)
  · exact .inr ⟨heq, hsame⟩

theorem valid_singleton_a : Valid [0x61] := .singleton (by decide)

theorem valid_singleton_b : Valid [0x62] := .singleton (by decide)

/-- Two files, `a` and `b`. -/
def filesAB (a b : Bytes) : List (Str × Bytes) :=
  [(⟨[0x61], valid_singleton_a⟩, a), (⟨[0x62], valid_singleton_b⟩, b)]

theorem hashable_filesAB {a b : Bytes} (ha : a.length < 2 ^ 64) (hb : b.length < 2 ^ 64) :
    ∀ file ∈ filesAB a b, Hashable file := by
  intro file hfile
  have hzero : (0 : UInt8) ∉ [0x61] ∧ (0 : UInt8) ∉ [0x62] := by decide
  rcases List.mem_pair.mp hfile with rfl | rfl
  · exact ⟨⟨List.cons_ne_nil _ _, hzero.1⟩, ha⟩
  · exact ⟨⟨List.cons_ne_nil _ _, hzero.2⟩, hb⟩

/-- A byte that goes from one file to the next is seen. -/
theorem moved_byte_is_seen :
    preimage (filesAB [0x63, 0x64] []) ≠ preimage (filesAB [0x63] [0x64]) := by
  intro h
  have hsame := fingerprint_tells_source.1 (filesAB [0x63, 0x64] []) (filesAB [0x63] [0x64])
    (hashable_filesAB (by decide) (by decide)) (hashable_filesAB (by decide) (by decide)) h
  exact absurd hsame (by decide)

end FilePeeker.Client
