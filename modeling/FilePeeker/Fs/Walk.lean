import FilePeeker.Fs.FileName
import FilePeeker.Lib.Unfold
import FilePeeker.Path.Join
import FilePeeker.Wire.Entries

/-!
# Walking a directory

`walk_dir` of `fs/walk.rs` and `inspect` of `fs/entry.rs`: a stream that keeps a stack of
the directories it is in.  What it gives is the pre-order of what is below the root
(`rows`), up to the first error (`walk_is_pre_order`): of each directory its entries in the
order it lists them, each followed by what is below it.

A directory is gone into where its metadata could be read.  One whose metadata is refused is
listed like a file, and that it cannot be opened is no error
(`refused_directory_is_no_error`).
-/

namespace FilePeeker.Fs

open FilePeeker.Path
open Wire (Timespec)

/-! ### What the system says of a file -/

inductive EntryKind
  | file
  | directory
  | symlink
  | other
deriving DecidableEq, Repr

/-- What `symlink_metadata` gives. -/
structure Stat where
  kind : EntryKind
  size : Nat
  modified : Option Timespec
  mode : Nat

/-- One entry that `read_dir` gives: a name, and a kind that it may have to ask for. -/
structure DirEntry where
  name : Bytes
  fileType : Except IoError EntryKind
  isFileName : IsFileName name

/-- An open directory: its entries, and the error that reading them ends in, if it does. -/
structure Listing where
  entries : List DirEntry
  failure : Option IoError

/-- A file system that stays as it is, by what it answers for each path. -/
structure FileSystem where
  /-- What is there. -/
  kind : Bytes → EntryKind
  readDir : Bytes → Except IoError Listing
  symlinkMetadata : Bytes → Except IoError Stat
  /-- Whether the file a path leads to is a directory. -/
  isDir : Bytes → Except IoError Bool
  readLink : Bytes → Except IoError Bytes
  kind_of_stat : ∀ path stat, symlinkMetadata path = .ok stat → stat.kind = kind path

/-! ### One entry -/

structure EntryMetadata where
  size : Nat
  modified : Option Timespec
  mode : Nat
  symlinkTarget : Option PathString
deriving DecidableEq

structure DirectoryEntry where
  name : PathString
  kind : EntryKind
  navigable : Bool
  metadata : Option EntryMetadata
  defect : Option Text
deriving DecidableEq

structure Inspected where
  path : Bytes
  entry : DirectoryEntry
  descend : Bool

variable (fs : FileSystem)

/-- Describes an entry of `dir`, and never fails. -/
def inspect (dir : Bytes) (entry : DirEntry) : Inspected :=
  let path := join dir entry.name
  let name := PathString.ofBytes entry.name
  match fs.symlinkMetadata path with
  | .error error =>
    { path
      entry :=
        { name
          kind := match entry.fileType with
            | .ok kind => kind
            | .error _ => .other
          navigable := false
          metadata := none
          defect := some (FsError.fromIo error).message }
      descend := false }
  | .ok stat =>
    { path
      entry :=
        { name
          kind := stat.kind
          navigable := match stat.kind with
            | .directory => true
            | .symlink => (match fs.isDir path with
              | .ok isDir => isDir
              | .error _ => false)
            | .file | .other => false
          metadata := some
            { size := stat.size
              modified := stat.modified
              mode := stat.mode
              symlinkTarget := if stat.kind = .symlink then
                  (fs.readLink path).toOption.map PathString.ofBytes
                else none }
          defect := none }
      descend := stat.kind = .directory }

/-! ### The walk -/

structure WalkEntry where
  relativePath : PathString
  entry : DirectoryEntry
  depth : Nat
deriving DecidableEq

structure Frame where
  /-- Where the directory was opened, and what is still to be read of it. -/
  dir : Bytes
  entries : Listing
  relativeDir : PathString
  childDepth : Nat

/-- The innermost frame comes first. -/
structure Walk where
  stack : List Frame
  descendInto : Option (Bytes × PathString × Nat)

def openDir (path : Bytes) : Except FsError Listing :=
  (fs.readDir path).mapError (FsError.at "cannot walk" path)

/-- The loop of one step: the next entry of the innermost directory that has one. -/
def Walk.loop : List Frame → Option (Except FsError WalkEntry × Option Walk)
  | [] => none
  | frame :: stack =>
    match frame.entries with
    | ⟨entry :: entries, failure⟩ =>
      let inspected := inspect fs frame.dir entry
      let relativePath := frame.relativeDir.join inspected.entry.name
      let frame' := { frame with entries := ⟨entries, failure⟩ }
      some (.ok ⟨relativePath, inspected.entry, frame.childDepth⟩, some
        { stack := frame' :: stack
          descendInto := if inspected.descend then
              some (inspected.path, relativePath, frame.childDepth + 1)
            else none })
    | ⟨[], none⟩ => Walk.loop stack
    | ⟨[], some error⟩ => some (.error (FsError.fromIo error), none)

/-- The function that the stream is unfolded with. -/
def Walk.next (walk : Walk) : Option (Except FsError WalkEntry × Option Walk) :=
  match walk.descendInto with
  | none => Walk.loop fs walk.stack
  | some (path, relativeDir, childDepth) =>
    match openDir fs path with
    | .ok entries => Walk.loop fs (⟨path, entries, relativeDir, childDepth⟩ :: walk.stack)
    | .error error => some (.error error, none)

/-- What the walk is to be unfolded from. -/
def walkDir (path : PathString) : Except FsError Walk := do
  let root ← absolute path
  let entries ← openDir fs root
  return { stack := [⟨root, entries, .fromLiteral .empty, 1⟩], descendInto := none }

/-! ### The tree -/

/-- What a directory has in it, in the order it lists it; of a directory in it, what that
has in it, or why it cannot be opened. -/
inductive Contents
  | done (failure : Option IoError)
  | leaf (entry : DirEntry) (rest : Contents)
  | closed (entry : DirEntry) (error : IoError) (rest : Contents)
  | directory (entry : DirEntry) (inside rest : Contents)

/-- These are the contents of an open directory, as deep as they go. -/
inductive Shows : Bytes → Listing → Contents → Prop
  | done {dir : Bytes} (failure : Option IoError) : Shows dir ⟨[], failure⟩ (.done failure)
  | leaf {dir : Bytes} {entry : DirEntry} {entries : List DirEntry} {failure : Option IoError}
      {rest : Contents} (hkind : fs.kind (join dir entry.name) ≠ .directory)
      (hrest : Shows dir ⟨entries, failure⟩ rest) :
      Shows dir ⟨entry :: entries, failure⟩ (.leaf entry rest)
  | closed {dir : Bytes} {entry : DirEntry} {entries : List DirEntry} {failure : Option IoError}
      {error : IoError} {rest : Contents} (hkind : fs.kind (join dir entry.name) = .directory)
      (hopen : fs.readDir (join dir entry.name) = .error error)
      (hrest : Shows dir ⟨entries, failure⟩ rest) :
      Shows dir ⟨entry :: entries, failure⟩ (.closed entry error rest)
  | directory {dir : Bytes} {entry : DirEntry} {entries : List DirEntry}
      {failure : Option IoError} {listing : Listing} {inside rest : Contents}
      (hkind : fs.kind (join dir entry.name) = .directory)
      (hopen : fs.readDir (join dir entry.name) = .ok listing)
      (hinside : Shows (join dir entry.name) listing inside)
      (hrest : Shows dir ⟨entries, failure⟩ rest) :
      Shows dir ⟨entry :: entries, failure⟩ (.directory entry inside rest)

/-- Where these names lead to from the root. -/
def within (root : Bytes) (names : List Bytes) : Bytes := names.foldl join root

/-- An entry of the directory that the names lead to. -/
def row (root : Bytes) (names : List Bytes) (entry : DirEntry) : WalkEntry where
  relativePath := .ofBytes (joined (names ++ [entry.name]))
  entry := (inspect fs (within root names) entry).entry
  depth := (names ++ [entry.name]).length

/-- The pre-order of what is below a directory, of the directories that are gone into;
with the errors of opening and reading them, in their places. -/
def rows (goesInto : Bytes → Bool) (root : Bytes) :
    List Bytes → Contents → List (Except FsError WalkEntry)
  | _, .done none => []
  | _, .done (some error) => [.error (.fromIo error)]
  | names, .leaf entry rest => .ok (row fs root names entry) :: rows goesInto root names rest
  | names, .closed entry error rest =>
    let path := within root (names ++ [entry.name])
    .ok (row fs root names entry) ::
      ((if goesInto path then [.error (.at "cannot walk" path error)] else []) ++
        rows goesInto root names rest)
  | names, .directory entry inside rest =>
    .ok (row fs root names entry) ::
      ((if goesInto (within root (names ++ [entry.name])) then
          rows goesInto root (names ++ [entry.name]) inside
        else []) ++ rows goesInto root names rest)

/-- The metadata of what is there can be read. -/
def FileSystem.described (path : Bytes) : Bool := (fs.symlinkMetadata path).isOk

variable {fs} {root dir : Bytes} {names : List Bytes} {entry : DirEntry} {listing : Listing}
  {contents : Contents} {stack : List Frame} {walk : Walk} {items : List (Except FsError WalkEntry)}

/-! ### Relative paths -/

theorem join_within (root : Bytes) (names : List Bytes) (name : Bytes) :
    join (within root names) name = within root (names ++ [name]) := by
  rw [within, within, List.foldl_concat]

theorem joined_concat (hne : names ≠ []) (name : Bytes) :
    joined (names ++ [name]) = joined names ++ slash :: name := by
  induction names with
  | nil => exact absurd rfl hne
  | cons first names ih =>
    cases names with
    | nil => simp [joined, List.intercalate_cons_cons]
    | cons second names =>
      have ih := ih (List.cons_ne_nil _ _)
      rw [joined] at ih ⊢
      rw [joined, List.cons_append, List.cons_append, List.intercalate_cons_cons,
        ← List.cons_append, ih, joined, List.intercalate_cons_cons]
      simp only [List.append_assoc]

theorem getLast?_joined (hnames : ∀ name ∈ names, IsFileName name) :
    (joined names).getLast? ≠ some slash := by
  induction names using List.reverseRecOn with
  | nil => simp [joined]
  | append_singleton names name _ =>
    have hname := hnames name (List.mem_append_right _ (List.mem_singleton_self name))
    have hlast : name.getLast? ≠ some slash := fun h =>
      hname.2.1 (List.mem_of_getLast? h)
    by_cases hne : names = []
    · subst hne
      rwa [List.nil_append, joined, List.intercalate_singleton]
    · rw [joined_concat hne, List.getLast?_append_of_ne_nil _ (List.cons_ne_nil _ _),
        List.getLast?_cons_of_ne_nil hname.1]
      exact hlast

theorem joined_ne_nil (hnames : ∀ name ∈ names, IsFileName name) (hne : names ≠ []) :
    joined names ≠ [] := by
  cases names with
  | nil => exact absurd rfl hne
  | cons name names =>
    have hname := (hnames name List.mem_cons_self).1
    cases names with
    | nil => rwa [joined, List.intercalate_singleton]
    | cons second names =>
      rw [joined, List.intercalate_cons_cons]
      simp

/-- One level down, the relative path is what is joined there. -/
theorem relativePath_concat (hnames : ∀ name ∈ names, IsFileName name) (name : Bytes) :
    (PathString.ofBytes (joined names)).join (.ofBytes name) =
      .ofBytes (joined (names ++ [name])) := by
  by_cases hne : names = []
  · subst hne
    have hempty : (escape (joined [])).bytes = [] := escape_nil
    rw [PathString.join, PathString.ofBytes, if_pos hempty, List.nil_append, joined,
      List.intercalate_singleton]
  · rw [ofBytes_join (joined_ne_nil hnames hne), if_neg (getLast?_joined hnames),
      joined_concat hne]

theorem inner_joined (hnames : ∀ name ∈ names, IsFileName name) :
    inner (joined names) = names.map .normal := by
  induction names with
  | nil => rfl
  | cons name names ih =>
    obtain ⟨hname, hrest⟩ := List.forall_mem_cons.mp hnames
    have hfirst := inner_name hname.2.1 hname.1 hname.2.2.1 hname.2.2.2
    cases names with
    | nil => rwa [joined, List.intercalate_singleton]
    | cons second names =>
      rw [joined, List.intercalate_cons_cons, List.append_assoc, List.singleton_append,
        inner_append, hfirst]
      exact congrArg _ (ih hrest)

/-- The names are the components of the path they are joined to. -/
theorem components_joined (hnames : ∀ name ∈ names, IsFileName name) :
    components (joined names) = names.map .normal := by
  cases names with
  | nil => rfl
  | cons name names =>
    obtain ⟨hname, hrest⟩ := List.forall_mem_cons.mp hnames
    have hfirst := firstComponent_eq_normal.mpr ⟨rfl, hname.1, hname.2.2⟩
    cases names with
    | nil =>
      rw [joined, List.intercalate_singleton, components_segment hname.2.1, hfirst]
      rfl
    | cons second names =>
      rw [joined, List.intercalate_cons_cons, List.append_assoc, List.singleton_append,
        components_segments hname.2.1 hname.1, hfirst]
      exact congrArg _ (inner_joined hrest)

/-! ### One step -/

theorem inspect_path : (inspect fs dir entry).path = join dir entry.name := by
  rw [inspect]
  cases fs.symlinkMetadata (join dir entry.name) <;> rfl

theorem inspect_name : (inspect fs dir entry).entry.name = .ofBytes entry.name := by
  rw [inspect]
  cases fs.symlinkMetadata (join dir entry.name) <;> rfl

/-- A directory is gone into where its metadata could be read. -/
theorem inspect_descend : (inspect fs dir entry).descend =
    (fs.described (join dir entry.name) && fs.kind (join dir entry.name) = .directory) := by
  rw [inspect, FileSystem.described]
  cases hstat : fs.symlinkMetadata (join dir entry.name) with
  | error error => rfl
  | ok stat =>
    rw [← fs.kind_of_stat _ _ hstat]
    rfl

/-- The frame of the directory that the names lead to. -/
def frameAt (root : Bytes) (names : List Bytes) (entries : Listing) : Frame where
  dir := within root names
  entries := entries
  relativeDir := .ofBytes (joined names)
  childDepth := names.length + 1

/-- The walk once the entry was given: it goes into the entry next, or on. -/
def after (fs : FileSystem) (root : Bytes) (names : List Bytes) (entry : DirEntry)
    (entries : Listing) (stack : List Frame) : Walk where
  stack := frameAt root names entries :: stack
  descendInto :=
    if fs.described (within root (names ++ [entry.name])) ∧
        fs.kind (within root (names ++ [entry.name])) = .directory then
      some (within root (names ++ [entry.name]), .ofBytes (joined (names ++ [entry.name])),
        (names ++ [entry.name]).length + 1)
    else none

theorem next_entry (hnames : ∀ name ∈ names, IsFileName name) {entries : List DirEntry}
    {failure : Option IoError} :
    Walk.next fs ⟨frameAt root names ⟨entry :: entries, failure⟩ :: stack, none⟩ =
      some (.ok (row fs root names entry),
        some (after fs root names entry ⟨entries, failure⟩ stack)) := by
  simp only [Walk.next, Walk.loop, frameAt, inspect_name, inspect_path, inspect_descend,
    relativePath_concat hnames, join_within, row, after, List.length_append,
    List.length_singleton, Bool.and_eq_true, decide_eq_true_eq]

theorem next_of_descendInto {path : Bytes} {relativeDir : PathString} {childDepth : Nat}
    (hopen : fs.readDir path = .ok listing) :
    Walk.next fs ⟨stack, some (path, relativeDir, childDepth)⟩ =
      Walk.next fs ⟨⟨path, listing, relativeDir, childDepth⟩ :: stack, none⟩ := by
  simp only [Walk.next, openDir, hopen, mapError_ok]

theorem next_of_refused {path : Bytes} {relativeDir : PathString} {childDepth : Nat}
    {error : IoError} (hopen : fs.readDir path = .error error) :
    Walk.next fs ⟨stack, some (path, relativeDir, childDepth)⟩ =
      some (.error (.at "cannot walk" path error), none) := by
  simp only [Walk.next, openDir, hopen, mapError_error]

theorem isFileName_concat (hnames : ∀ name ∈ names, IsFileName name) :
    ∀ name ∈ names ++ [entry.name], IsFileName name := by
  intro name hname
  rcases List.mem_append.mp hname with hname | hname
  · exact hnames name hname
  · rw [List.mem_singleton.mp hname]
    exact entry.isFileName

/-- **What a directory gives of the stream**: its rows, and then what the directories it is
in give, unless there is an error among the rows. -/
theorem yields_rows (h : Shows fs dir listing contents) :
    ∀ {names : List Bytes} {stack : List Frame} {later : List (Except FsError WalkEntry)},
      dir = within root names → (∀ name ∈ names, IsFileName name) →
      Yields (Walk.next fs) (some ⟨stack, none⟩) (upToError later) →
      Yields (Walk.next fs) (some ⟨frameAt root names listing :: stack, none⟩)
        (upToError (rows fs fs.described root names contents ++ later)) := by
  induction h with
  | done failure =>
    intro names stack later hdir hnames hlater
    cases failure with
    | none =>
      have hpop : Walk.next fs ⟨frameAt root names ⟨[], none⟩ :: stack, none⟩ =
          Walk.next fs ⟨stack, none⟩ := rfl
      rw [rows, List.nil_append]
      exact hlater.congr hpop
    | some error => exact .item rfl .ended
  | @leaf dir entry entries failure rest hkind hrest ih =>
    intro names stack later hdir hnames hlater
    subst hdir
    rw [join_within] at hkind
    rw [rows, List.cons_append, upToError_ok]
    refine .item (next_entry hnames) ?_
    rw [after, if_neg fun hdescend => hkind hdescend.2]
    exact ih rfl hnames hlater
  | @closed dir entry entries failure error rest hkind hopen hrest ih =>
    intro names stack later hdir hnames hlater
    subst hdir
    rw [join_within] at hkind hopen
    rw [rows, List.cons_append, List.append_assoc, upToError_ok]
    refine .item (next_entry hnames) ?_
    by_cases hdescribed : fs.described (within root (names ++ [entry.name]))
    · rw [after, if_pos ⟨hdescribed, hkind⟩, if_pos hdescribed]
      exact .item (next_of_refused hopen) .ended
    · rw [after, if_neg fun hdescend => hdescribed hdescend.1, if_neg hdescribed]
      exact ih rfl hnames hlater
  | @directory dir entry entries failure listing inside rest hkind hopen hinside hrest ihi ihr =>
    intro names stack later hdir hnames hlater
    subst hdir
    rw [join_within] at hkind hopen ihi
    rw [rows, List.cons_append, List.append_assoc, upToError_ok]
    refine .item (next_entry hnames) ?_
    by_cases hdescribed : fs.described (within root (names ++ [entry.name]))
    · rw [after, if_pos ⟨hdescribed, hkind⟩, if_pos hdescribed]
      have hinner := ihi rfl (isFileName_concat hnames) (ihr rfl hnames hlater)
      exact hinner.congr (next_of_descendInto hopen)
    · rw [after, if_neg fun hdescend => hdescribed hdescend.1, if_neg hdescribed]
      exact ihr rfl hnames hlater

/-! ### The whole walk -/

/-- The walk of every directory that can be opened is the pre-order of what it shows, of the
directories that are gone into, up to the first error: that is its stream, and no other. -/
def WalksInPreOrder (fs : FileSystem) (goesInto : Bytes → Bool) : Prop :=
  ∀ path root listing contents, absolute path = .ok root → fs.readDir root = .ok listing →
    Shows fs root listing contents → ∃ walk, walkDir fs path = .ok walk ∧
      ∀ items, Yields (Walk.next fs) (some walk) items ↔
        items = upToError (rows fs goesInto root [] contents)

theorem walksInPreOrder (fs : FileSystem) : WalksInPreOrder fs fs.described := by
  intro path root listing contents hroot hopen hshows
  have hwalk : walkDir fs path = .ok ⟨[frameAt root [] listing], none⟩ := by
    rw [walkDir, hroot]
    simp only [bind, Except.bind, openDir, hopen, mapError_ok]
    rfl
  have hdone : Yields (Walk.next fs) (some ⟨[], none⟩) (upToError []) := .done rfl
  have hrows : Yields (Walk.next fs) (some ⟨[frameAt root [] listing], none⟩)
      (upToError (rows fs fs.described root [] contents ++ [])) :=
    yields_rows hshows rfl (fun _ h => absurd h List.not_mem_nil) hdone
  rw [List.append_nil] at hrows
  exact ⟨_, hwalk, fun items => ⟨fun h => h.unique hrows, fun h => h ▸ hrows⟩⟩

/-- Every row is of names that lead to it from the root. -/
theorem rows_named {goesInto : Bytes → Bool} {given : WalkEntry}
    (hnames : ∀ name ∈ names, IsFileName name)
    (h : .ok given ∈ rows fs goesInto root names contents) : ∃ names : List Bytes,
      names ≠ [] ∧ (∀ name ∈ names, IsFileName name) ∧
        given.relativePath = .ofBytes (joined names) ∧ given.depth = names.length := by
  have hrow : ∀ {names : List Bytes} {entry : DirEntry}, (∀ name ∈ names, IsFileName name) →
      given = row fs root names entry → ∃ names : List Bytes,
        names ≠ [] ∧ (∀ name ∈ names, IsFileName name) ∧
          given.relativePath = .ofBytes (joined names) ∧ given.depth = names.length := by
    rintro names entry hnames rfl
    exact ⟨names ++ [entry.name], List.append_ne_nil_of_right_ne_nil _ (List.cons_ne_nil _ _),
      isFileName_concat hnames, rfl, rfl⟩
  induction contents generalizing names with
  | done failure => cases failure <;> simp [rows] at h
  | leaf entry rest ih =>
    rcases List.mem_cons.mp h with h | h
    · exact hrow hnames (Except.ok.inj h)
    · exact ih hnames h
  | closed entry error rest ih =>
    rcases List.mem_cons.mp h with h | h
    · exact hrow hnames (Except.ok.inj h)
    · rcases List.mem_append.mp h with h | h
      · split_ifs at h <;> simp at h
      · exact ih hnames h
  | directory entry inside rest ihi ihr =>
    rcases List.mem_cons.mp h with h | h
    · exact hrow hnames (Except.ok.inj h)
    · rcases List.mem_append.mp h with h | h
      · split_ifs at h
        · exact ihi (isFileName_concat hnames) h
        · cases h
      · exact ihr hnames h

/-- Every row has the escape of a relative path, and as its depth how many components that
has. -/
theorem rows_relative {goesInto : Bytes → Bool} {given : WalkEntry}
    (hnames : ∀ name ∈ names, IsFileName name)
    (h : .ok given ∈ rows fs goesInto root names contents) : ∃ names : List Bytes,
      names ≠ [] ∧ given.relativePath = .ofBytes (joined names) ∧
        components (joined names) = names.map .normal ∧ given.depth = names.length := by
  obtain ⟨names, hne, hall, hpath, hdepth⟩ := rows_named hnames h
  exact ⟨names, hne, hpath, components_joined hall, hdepth⟩

/-- **A walk is the pre-order** of what is below its root, of the directories whose metadata
could be read, and ends with the first directory that cannot be opened or read on.  It is
none where the root cannot be opened. -/
theorem walk_is_pre_order (fs : FileSystem) :
    WalksInPreOrder fs fs.described ∧
    (∀ path error, absolute path = .error error → walkDir fs path = .error error) ∧
    (∀ path root error, absolute path = .ok root → fs.readDir root = .error error →
      walkDir fs path = .error (.at "cannot walk" root error)) ∧
    ∀ root contents given, .ok given ∈ rows fs fs.described root [] contents →
      ∃ names : List Bytes, names ≠ [] ∧ given.relativePath = .ofBytes (joined names) ∧
        components (joined names) = names.map .normal ∧ given.depth = names.length := by
  refine ⟨walksInPreOrder fs, fun path error hroot => ?_, fun path root error hroot hopen => ?_,
    fun root contents given h => rows_relative (fun _ h => absurd h List.not_mem_nil) h⟩
  · rw [walkDir, hroot]
    rfl
  · rw [walkDir, hroot]
    simp only [bind, Except.bind, openDir, hopen, mapError_error]

/-! ### A directory in a directory -/

theorem isFileName_d : IsFileName [0x64] := by decide

theorem isFileName_f : IsFileName [0x66] := by decide

def entryD : DirEntry := ⟨[0x64], .ok .directory, isFileName_d⟩

def entryF : DirEntry := ⟨[0x66], .ok .file, isFileName_f⟩

/-- `/r`. -/
def listedRoot : Bytes := [slash, 0x72]

theorem absolute_listedRoot : absolute (.ofBytes listedRoot) = .ok listedRoot := by
  decide +kernel

def permissionDenied : IoError := ⟨.permissionDenied, "Permission denied (os error 13)".toList⟩

/-- `/r/d`. -/
def nestedD : Bytes := join listedRoot entryD.name

def nestedKind (path : Bytes) : EntryKind :=
  if path = nestedD ∨ path = join nestedD entryD.name then .directory else .file

def nestedStat (path : Bytes) : Except IoError Stat :=
  if path = join nestedD entryD.name then .error permissionDenied
  else .ok ⟨nestedKind path, 0, none, 0⟩

theorem nestedKind_of_stat (path : Bytes) (stat : Stat) (h : nestedStat path = .ok stat) :
    stat.kind = nestedKind path := by
  unfold nestedStat at h
  split_ifs at h
  cases h
  rfl

/-- `/r` and `/r/d` have a directory `d` and a file `f` each, and nothing can be known of
`/r/d/d`. -/
def nested : FileSystem where
  kind := nestedKind
  readDir path :=
    if path = listedRoot ∨ path = nestedD then .ok ⟨[entryD, entryF], none⟩
    else .error permissionDenied
  symlinkMetadata := nestedStat
  isDir _ := .ok false
  readLink _ := .error permissionDenied
  kind_of_stat := nestedKind_of_stat

theorem shows_nested : Shows nested listedRoot ⟨[entryD, entryF], none⟩
    (.directory entryD (.closed entryD permissionDenied (.leaf entryF (.done none)))
      (.leaf entryF (.done none))) :=
  .directory (by decide) rfl
    (.closed (by decide) rfl (.leaf (by decide) (.done none))) (.leaf (by decide) (.done none))

/-- Its walk goes into `/r/d` before it comes to `/r/f`. -/
theorem nested_walk : ∃ walk, walkDir nested (.ofBytes listedRoot) = .ok walk ∧
    Yields (Walk.next nested) (some walk) [.ok (row nested listedRoot [] entryD),
      .ok (row nested listedRoot [entryD.name] entryD),
      .ok (row nested listedRoot [entryD.name] entryF), .ok (row nested listedRoot [] entryF)] := by
  obtain ⟨walk, hwalk, hstream⟩ := (walk_is_pre_order nested).1 _ _ _ _ absolute_listedRoot
    rfl shows_nested
  exact ⟨walk, hwalk, (hstream _).mpr rfl⟩

/-! ### A directory that may be listed and not searched -/

def listedKind (path : Bytes) : EntryKind :=
  if path = join listedRoot entryD.name then .directory else .file

theorem listedKind_of_stat (path : Bytes) (stat : Stat)
    (h : .error permissionDenied = Except.ok stat) : stat.kind = listedKind path := by
  cases h

/-- Whoever may only read `/r` is told what is in it, and nothing of what that is. -/
def listedOnly : FileSystem where
  kind := listedKind
  readDir path :=
    if path = listedRoot then .ok ⟨[entryD, entryF], none⟩ else .error permissionDenied
  symlinkMetadata _ := .error permissionDenied
  isDir _ := .error permissionDenied
  readLink _ := .error permissionDenied
  kind_of_stat := listedKind_of_stat

theorem readDir_listedOnly {path : Bytes} (h : path ≠ listedRoot) :
    listedOnly.readDir path = .error permissionDenied := by simp only [listedOnly, if_neg h]

theorem shows_listedOnly : Shows listedOnly listedRoot ⟨[entryD, entryF], none⟩
    (.closed entryD permissionDenied (.leaf entryF (.done none))) :=
  .closed (by decide) (readDir_listedOnly (by decide)) (.leaf (by decide) (.done none))

/-- The directory in `/r` cannot be opened, and the walk goes on. -/
theorem refused_directory_is_no_error : ¬ ∀ fs, WalksInPreOrder fs fun _ => true := by
  intro h
  obtain ⟨walk, hwalk, hstream⟩ := h listedOnly _ _ _ _ absolute_listedRoot rfl shows_listedOnly
  obtain ⟨walk', hwalk', hstream'⟩ :=
    walksInPreOrder listedOnly _ _ _ _ absolute_listedRoot rfl shows_listedOnly
  obtain rfl : walk = walk' := Except.ok.inj (hwalk.symm.trans hwalk')
  have heq := (hstream _).mp ((hstream' _).mpr rfl)
  cases heq

end FilePeeker.Fs
