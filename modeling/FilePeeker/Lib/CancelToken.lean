import Mathlib.Data.List.Basic

/-!
# Cancellation tokens

A token is a cell that can be cancelled once, and a child token is cancelled
with its parent.  A token is modelled by its cell and the cells of its
ancestors, nearest first; `fired` is the list of the cells that were cancelled
themselves.  A token is cancelled when its own cell or an ancestor's is in it.
-/

namespace FilePeeker

variable {ι : Type*}

/-- A cancellation token: its own cell, and its ancestors' from its parent up. -/
structure CancelToken (ι : Type*) where
  cell : ι
  ancestors : List ι
deriving DecidableEq, Repr

namespace CancelToken

/-- A token with no parent. -/
def root (i : ι) : CancelToken ι := ⟨i, []⟩

/-- The cell of a token and those of its ancestors. -/
def lineage (t : CancelToken ι) : List ι := t.cell :: t.ancestors

/-- A token that is cancelled with `t`. -/
def child (t : CancelToken ι) (i : ι) : CancelToken ι := ⟨i, t.lineage⟩

/-- The cell of the token this one is a child of. -/
def parent (t : CancelToken ι) : Option ι := t.ancestors.head?

/-- The cell at the top of the tree this token is in. -/
def top (t : CancelToken ι) : ι := t.ancestors.getLast?.getD t.cell

@[simp] theorem root_lineage (i : ι) : (root i).lineage = [i] := rfl

@[simp] theorem child_lineage (t : CancelToken ι) (i : ι) :
    (t.child i).lineage = i :: t.lineage := rfl

@[simp] theorem child_parent (t : CancelToken ι) (i : ι) : (t.child i).parent = some t.cell := rfl

@[simp] theorem root_parent (i : ι) : (root i).parent = none := rfl

@[simp] theorem root_top (i : ι) : (root i).top = i := rfl

@[simp] theorem child_top (t : CancelToken ι) (i : ι) : (t.child i).top = t.top := by
  obtain ⟨c, as⟩ := t
  cases as with
  | nil => rfl
  | cons a as => simp [child, top, lineage, List.getLast?_cons]

theorem cell_mem_lineage (t : CancelToken ι) : t.cell ∈ t.lineage := List.mem_cons_self

theorem parent_eq_none {t : CancelToken ι} : t.parent = none ↔ t.ancestors = [] := by
  simp [parent]

variable [DecidableEq ι]

/-- Whether the token, or one it is a child of, was cancelled. -/
def isCancelled (fired : List ι) (t : CancelToken ι) : Bool :=
  t.lineage.any fun i => decide (i ∈ fired)

theorem isCancelled_iff {fired : List ι} {t : CancelToken ι} :
    t.isCancelled fired = true ↔ ∃ i ∈ t.lineage, i ∈ fired := by
  simp [isCancelled]

theorem isCancelled_of_mem {fired : List ι} {t : CancelToken ι} (h : t.cell ∈ fired) :
    t.isCancelled fired = true :=
  isCancelled_iff.mpr ⟨t.cell, t.cell_mem_lineage, h⟩

/-- **A child token is cancelled with its parent.** -/
theorem isCancelled_child {fired : List ι} {t : CancelToken ι}
    (h : t.isCancelled fired = true) (i : ι) : (t.child i).isCancelled fired = true := by
  obtain ⟨j, hj, hf⟩ := isCancelled_iff.mp h
  exact isCancelled_iff.mpr ⟨j, List.mem_cons_of_mem _ hj, hf⟩

/-- Cancellation reaches every token whose lineage holds a cancelled one's. -/
theorem isCancelled_of_suffix {fired : List ι} {t u : CancelToken ι}
    (h : t.isCancelled fired = true) (hle : t.lineage ⊆ u.lineage) :
    u.isCancelled fired = true := by
  obtain ⟨j, hj, hf⟩ := isCancelled_iff.mp h
  exact isCancelled_iff.mpr ⟨j, hle hj, hf⟩

/-- A cancelled token stays cancelled. -/
theorem isCancelled_mono {fired fired' : List ι} (hle : fired ⊆ fired') {t : CancelToken ι}
    (h : t.isCancelled fired = true) : t.isCancelled fired' = true := by
  obtain ⟨j, hj, hf⟩ := isCancelled_iff.mp h
  exact isCancelled_iff.mpr ⟨j, hj, hle hf⟩

end CancelToken

end FilePeeker
