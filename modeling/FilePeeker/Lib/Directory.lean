import Mathlib.Logic.Function.Basic

/-!
# Names and the files they name

A directory as the kernel keeps it: what a name stands for is a file, known by its
number, and a file has its content whatever name it goes by.  So who has a file open
writes to it after it was renamed, replaced or removed, and two names can stand for one
file.

A file is settled (`Settled`) where a name does not stand for it and no new file will
be it; what is written by that name leaves it as it is.
-/

namespace FilePeeker

/-- The names of some files, and all the files there ever were. -/
structure Directory (ν β : Type*) where
  entry : ν → Option Nat
  content : Nat → List β
  fresh : Nat
  old : ∀ {name inode}, entry name = some inode → inode < fresh

/-- `new` put over what is in a file from `offset` on; what was never written in between
is `hole`. -/
def overwrite {β : Type*} (hole : β) (old : List β) (offset : Nat) (new : List β) : List β :=
  old.take offset ++ List.replicate (offset - old.length) hole ++ new ++
    old.drop (offset + new.length)

theorem overwrite_end {β : Type*} (hole : β) (old new : List β) :
    overwrite hole old old.length new = old ++ new := by
  simp [overwrite]

namespace Directory

variable {ν β : Type*} {d d' : Directory ν β} {name src dst other : ν} {inode inode' : Nat}
  {file : Option Nat} {content new : List β} {hole : β} {offset : Nat}

/-- A file is given this content. -/
def fill (d : Directory ν β) (inode : Nat) (content : List β) : Directory ν β :=
  { d with content := Function.update d.content inode content }

/-- Bytes written to a file at an offset. -/
def write (d : Directory ν β) (hole : β) (inode offset : Nat) (new : List β) : Directory ν β :=
  d.fill inode (overwrite hole (d.content inode) offset new)

/-- What is in the file a name stands for. -/
def read (d : Directory ν β) (name : ν) : Option (List β) := (d.entry name).map d.content

@[simp] theorem fill_entry : (d.fill inode content).entry = d.entry := rfl

@[simp] theorem fill_fresh : (d.fill inode content).fresh = d.fresh := rfl

@[simp] theorem fill_content : (d.fill inode content).content inode' =
    if inode' = inode then content else d.content inode' := by
  simp [fill, Function.update_apply]

@[simp] theorem write_entry : (d.write hole inode offset new).entry = d.entry := rfl

@[simp] theorem write_fresh : (d.write hole inode offset new).fresh = d.fresh := rfl

theorem write_content_of_ne (h : inode' ≠ inode) :
    (d.write hole inode offset new).content inode' = d.content inode' := by
  simp [write, h]

theorem write_content_end (hole : β) (new : List β) (h : offset = (d.content inode).length) :
    (d.write hole inode offset new).content inode = d.content inode ++ new := by
  simp [write, h, overwrite_end]

variable [DecidableEq ν]

/-- A new file under a name, with nothing in it. -/
def create (d : Directory ν β) (name : ν) : Directory ν β where
  entry := Function.update d.entry name (some d.fresh)
  content := Function.update d.content d.fresh []
  fresh := d.fresh + 1
  old := by
    intro other inode h
    rw [Function.update_apply] at h
    split at h
    · cases h
      exact Nat.lt_succ_self _
    · exact Nat.lt_succ_of_lt (d.old h)

/-- Opened to be written from its start: the file a name stands for, cut to nothing, or
else a new one. -/
def openCut (d : Directory ν β) (name : ν) : Directory ν β × Nat :=
  match d.entry name with
  | some inode => (d.fill inode [], inode)
  | none => (d.create name, d.fresh)

/-- A name stands for a file no more. -/
def unlink (d : Directory ν β) (name : ν) : Directory ν β where
  entry := Function.update d.entry name none
  content := d.content
  fresh := d.fresh
  old := by
    intro other inode h
    rw [Function.update_apply] at h
    split at h
    · cases h
    · exact d.old h

/-- `dst` stands for the file of `src` too. -/
def addName (d : Directory ν β) (src dst : ν) : Directory ν β where
  entry := Function.update d.entry dst (d.entry src)
  content := d.content
  fresh := d.fresh
  old := by
    intro other inode h
    rw [Function.update_apply] at h
    split at h
    · exact d.old h
    · exact d.old h

/-- `rename(2)`: `src` becomes `dst`, whatever `dst` stood for, unless both stand for one
file. -/
def rename (d : Directory ν β) (src dst : ν) : Option (Directory ν β) :=
  match d.entry src with
  | none => none
  | some inode => some (if d.entry dst = some inode then d else (d.addName src dst).unlink src)

/-- `link(2)`: `dst` stands for the file of `src` too, where it stood for none. -/
def link (d : Directory ν β) (src dst : ν) : Option (Directory ν β) :=
  match d.entry src, d.entry dst with
  | some _, none => some (d.addName src dst)
  | _, _ => none

/-! ### What is where afterwards -/

@[simp] theorem create_entry : (d.create name).entry other =
    if other = name then some d.fresh else d.entry other := by
  simp [create, Function.update_apply]

@[simp] theorem create_content : (d.create name).content inode =
    if inode = d.fresh then [] else d.content inode := by
  simp [create, Function.update_apply]

@[simp] theorem create_fresh : (d.create name).fresh = d.fresh + 1 := rfl

@[simp] theorem unlink_entry : (d.unlink name).entry other =
    if other = name then none else d.entry other := by
  simp [unlink, Function.update_apply]

@[simp] theorem unlink_content : (d.unlink name).content = d.content := rfl

@[simp] theorem unlink_fresh : (d.unlink name).fresh = d.fresh := rfl

@[simp] theorem addName_entry : (d.addName src dst).entry other =
    if other = dst then d.entry src else d.entry other := by
  simp [addName, Function.update_apply]

@[simp] theorem addName_content : (d.addName src dst).content = d.content := rfl

@[simp] theorem addName_fresh : (d.addName src dst).fresh = d.fresh := rfl

/-- What is opened is the file the name stands for from then on, with nothing in it. -/
theorem openCut_opened (d : Directory ν β) (name : ν) :
    (d.openCut name).1.entry name = some (d.openCut name).2 ∧
    (d.openCut name).1.content (d.openCut name).2 = [] := by
  unfold openCut
  split
  · next hentry => exact ⟨hentry, by simp⟩
  · exact ⟨by simp, by simp⟩

theorem openCut_entry_of_ne (h : other ≠ name) :
    (d.openCut name).1.entry other = d.entry other := by
  unfold openCut
  split
  · rfl
  · rw [create_entry, if_neg h]

theorem rename_eq_some : d.rename src dst = some d' ↔ ∃ inode, d.entry src = some inode ∧
    d' = if d.entry dst = some inode then d else (d.addName src dst).unlink src := by
  cases hsrc : d.entry src <;> simp [rename, hsrc, eq_comm]

theorem link_eq_some : d.link src dst = some d' ↔
    (∃ inode, d.entry src = some inode) ∧ d.entry dst = none ∧ d' = d.addName src dst := by
  cases hsrc : d.entry src <;> cases hdst : d.entry dst <;> simp [link, hsrc, hdst, eq_comm]

theorem read_of_rename (h : d.rename src dst = some d') : d.read src ≠ none := by
  obtain ⟨inode, hsrc, -⟩ := rename_eq_some.mp h
  rw [read, hsrc]
  nofun

theorem read_of_link (h : d.link src dst = some d') : d.read src ≠ none := by
  obtain ⟨⟨inode, hsrc⟩, -⟩ := link_eq_some.mp h
  rw [read, hsrc]
  nofun

/-- What is renamed is read under its new name. -/
theorem read_renamed (h : d.rename src dst = some d') : d'.read dst = d.read src := by
  obtain ⟨inode, hsrc, rfl⟩ := rename_eq_some.mp h
  split
  · next hdst => rw [read, read, hsrc, hdst]
  · next hdst =>
    have hne : dst ≠ src := by
      rintro rfl
      exact hdst hsrc
    simp [read, hne]

theorem read_linked (h : d.link src dst = some d') : d'.read dst = d.read src := by
  obtain ⟨-, -, rfl⟩ := link_eq_some.mp h
  simp [read]

theorem rename_fresh (h : d.rename src dst = some d') : d'.fresh = d.fresh := by
  obtain ⟨inode, -, rfl⟩ := rename_eq_some.mp h
  split <;> rfl

theorem rename_content (h : d.rename src dst = some d') : d'.content = d.content := by
  obtain ⟨inode, -, rfl⟩ := rename_eq_some.mp h
  split <;> rfl

/-! ### Settled files -/

/-- A file, if it is one, that the name does not stand for and no new file will be. -/
def Settled (d : Directory ν β) (name : ν) (file : Option Nat) : Prop :=
  ∀ inode, file = some inode → inode < d.fresh ∧ d.entry name ≠ some inode

namespace Settled

omit [DecidableEq ν] in
theorem of_entry (h : ∀ inode, d.entry other = some inode → d.entry name ≠ some inode) :
    d.Settled name (d.entry other) :=
  fun _ hfile => ⟨d.old hfile, h _ hfile⟩

omit [DecidableEq ν] in
theorem fill (h : d.Settled name file) : (d.fill inode content).Settled name file := h

theorem create (h : d.Settled name file) : (d.create other).Settled name file := by
  intro inode hfile
  obtain ⟨hlt, hne⟩ := h inode hfile
  refine ⟨Nat.lt_succ_of_lt hlt, ?_⟩
  rw [create_entry]
  split
  · simp only [ne_eq, Option.some.injEq]
    omega
  · exact hne

theorem openCut (h : d.Settled name file) : (d.openCut other).1.Settled name file := by
  unfold Directory.openCut
  split
  · exact h.fill
  · exact h.create

theorem unlink (h : d.Settled name file) : (d.unlink other).Settled name file := by
  intro inode hfile
  obtain ⟨hlt, hne⟩ := h inode hfile
  refine ⟨hlt, ?_⟩
  rw [unlink_entry]
  split
  · nofun
  · exact hne

theorem rename (h : d.Settled src file) (hrename : d.rename src dst = some d') :
    d'.Settled src file := by
  obtain ⟨inode, -, rfl⟩ := rename_eq_some.mp hrename
  split
  · exact h
  · intro inode hfile
    refine ⟨(h inode hfile).1, ?_⟩
    simp

/-- Cutting a file a name stands for, or making a new one, leaves a settled file as it
is. -/
theorem openCut_content (h : d.Settled name (some inode)) :
    (d.openCut name).1.content inode = d.content inode := by
  obtain ⟨hlt, hne⟩ := h inode rfl
  unfold Directory.openCut
  split
  · next inode' hentry =>
    have hinode : inode ≠ inode' := fun heq => hne (heq ▸ hentry)
    simp [hinode]
  · have hinode : inode ≠ d.fresh := Nat.ne_of_lt hlt
    simp [hinode]

omit [DecidableEq ν] in
theorem write_content (h : d.Settled name (some inode)) (hentry : d.entry name = some inode') :
    (d.write hole inode' offset new).content inode = d.content inode :=
  write_content_of_ne fun heq => (h inode rfl).2 (heq ▸ hentry)

end Settled

end Directory

end FilePeeker
