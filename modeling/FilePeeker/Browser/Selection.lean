import FilePeeker.Browser.Refines
import FilePeeker.Browser.Stale

/-!
# The selection while listings go on

The selection is an index, and listings put rows in anywhere.  A row that goes in where
the selection is pushes it down, so what was selected stays selected
(`streaming_keeps_selection`).

Nothing is asked of the tree here but that the selected row is there: not even that its
placements are where they should be.
-/

namespace FilePeeker.Browser

open PreOrder

variable {μ : Type} {t t' : Tree μ} {i k e : Nat} {row : Row μ} {op : TreeOp μ}

/-- What a listing that goes on does to a tree. -/
def TreeOp.Streams : TreeOp μ → Prop
  | .extendRoot _ | .finishRoot _ | .extendChild .. | .finishChild .. => True
  | .beginExpansion .. | .collapse _ | .restart => False

instance : (op : TreeOp μ) → Decidable op.Streams
  | .extendRoot _ | .finishRoot _ | .extendChild .. | .finishChild .. => .isTrue trivial
  | .beginExpansion .. | .collapse _ | .restart => .isFalse id

theorem TreeOp.Streams.allowed (h : op.Streams) : op.Allowed t := by
  cases op <;> trivial

namespace Tree

/-- The selection was made, and it is of this row, however it is expanded by now. -/
def Chosen (t : Tree μ) (row : Row μ) : Prop :=
  ∃ i row', t.selectedIndex = some i ∧ t.rows[i]? = some row' ∧ row.Same row'

theorem effectiveSelection_chosen (hsel : t.selectedIndex = some i) (hrow : t.rows[i]? = some row) :
    t.effectiveSelection = some i := by
  have hlt : i < t.rows.length := (List.getElem?_eq_some_iff.mp hrow).1
  have hne : t.rows.isEmpty = false := by
    rw [List.isEmpty_eq_false_iff]
    exact List.ne_nil_of_length_pos (by omega)
  rw [effectiveSelection, hne, hsel]
  exact congrArg some (Nat.min_eq_left (Nat.le_sub_one_of_lt hlt))

theorem Chosen.selectedRow (h : t.Chosen row) : ∃ row', t.selectedRow = some row' ∧
    row.Same row' := by
  obtain ⟨i, row', hsel, hrow, hsame⟩ := h
  refine ⟨row', ?_, hsame⟩
  rw [Tree.selectedRow, effectiveSelection_chosen hsel hrow]
  exact hrow

/-- A selection that is in range is not clamped. -/
theorem Chosen.clamp (h : t.Chosen row) : t.clampSelection.Chosen row := by
  obtain ⟨i, row', hsel, hrow, hsame⟩ := h
  have hlt : i < t.rows.length := (List.getElem?_eq_some_iff.mp hrow).1
  refine ⟨i, row', ?_, hrow, hsame⟩
  rw [clampSelection, hsel]
  cases hlen : t.rows.length with
  | zero => omega
  | succ length => exact congrArg some (Nat.min_eq_left (by omega))

theorem Chosen.extendRoot (h : t.Chosen row) (entries : List (DirectoryEntry μ)) :
    (t.extendRoot entries).Chosen row := by
  obtain ⟨i, row', hsel, hrow, hsame⟩ := h
  have hlt : i < t.rows.length := (List.getElem?_eq_some_iff.mp hrow).1
  refine ⟨i, row', ?_, ?_, hsame⟩
  · unfold Tree.extendRoot placementsAfterInsertion
    simp [hsel]
  · rw [(extendRoot_spec t entries).1.1, splice_before (Nat.le_refl _) hlt, hrow]

/-- Rows go in at `k`: the selection moves with the row it is of. -/
theorem Chosen.extendChild {id : RequestId} {entries : List (DirectoryEntry μ)}
    (h : t.Chosen row) (heq : t.extendChild id entries = some t') : t'.Chosen row := by
  obtain ⟨i, row', hsel, hrow, hsame⟩ := h
  unfold Tree.extendChild at heq
  split at heq
  · obtain rfl := Option.some.inj heq
    exact ⟨i, row', hsel, hrow, hsame⟩
  · next p hp =>
    obtain ⟨parent, hparent, heq⟩ := Option.bind_eq_some_iff.mp heq
    dsimp only at heq
    split at heq
    · cases heq
    · next hle =>
      obtain rfl := Option.some.inj heq
      have hle : p.insertion ≤ t.rows.length := Nat.le_of_not_lt hle
      refine ⟨movedDown p.insertion entries.length i, row', ?_, ?_, hsame⟩
      · simp only [placementsAfterInsertion, hsel, Option.map_some, movedDown]
        split <;> split <;> first | rfl | omega
      · have hlen : (childRows parent p.depth entries).length = entries.length :=
          List.length_map _
        rw [← hlen, ← hrow]
        exact splice_movedDown hle

theorem Chosen.finishChild {id : RequestId} {result : Except String Unit} (h : t.Chosen row)
    (heq : t.finishChild id result = some t') : t'.Chosen row := by
  unfold Tree.finishChild at heq
  split at heq
  · obtain rfl := Option.some.inj heq
    exact h
  · next p hp =>
    obtain ⟨parent, hparent, heq⟩ := Option.bind_eq_some_iff.mp heq
    obtain rfl := Option.some.inj heq
    refine Chosen.clamp ?_
    obtain ⟨i, row', hsel, hrow, hsame⟩ := h
    -- Only the row that was listed has changed, and only in how it is expanded.
    by_cases hi : p.parent = i
    · subst hi
      obtain rfl : parent = row' := Option.some.inj (hparent.symm.trans hrow)
      have hlt := (List.getElem?_eq_some_iff.mp hrow).1
      exact ⟨p.parent, _, hsel, List.getElem?_set_self hlt, hsame.path, hsame.depth, hsame.entry⟩
    · exact ⟨i, row', hsel, (List.getElem?_set_ne hi).trans hrow, hsame⟩

/-- What comes of a listing keeps the selection. -/
theorem Chosen.apply (h : t.Chosen row) (hop : op.Streams) (heq : t.apply op = some t') :
    t'.Chosen row := by
  cases op with
  | extendRoot entries => obtain rfl := Option.some.inj heq; exact h.extendRoot entries
  | finishRoot result =>
      obtain rfl := Option.some.inj heq
      refine Chosen.clamp ?_
      obtain ⟨i, row', hsel, hrow, hsame⟩ := h
      exact ⟨i, row', hsel, hrow, hsame⟩
  | extendChild id entries => exact h.extendChild heq
  | finishChild id result => exact h.finishChild heq
  | beginExpansion index id => exact hop.elim
  | collapse index => exact hop.elim
  | restart => exact hop.elim

end Tree

theorem wf_streams (hwf : t.Wf 1) (hop : op.Streams) (heq : t.apply op = some t') : t'.Wf 1 := by
  cases op with
  | extendRoot entries => obtain rfl := Option.some.inj heq; exact hwf.extendRoot entries
  | finishRoot result => obtain rfl := Option.some.inj heq; exact hwf.finishRoot result
  | extendChild id entries =>
      cases hp : t.placements.lookup id with
      | none => exact Option.some.inj ((Tree.extendChild_none hp entries).symm.trans heq) ▸ hwf
      | some p => exact hwf.extendChild (Nat.le_refl 1) hp heq
  | finishChild id result =>
      cases hp : t.placements.lookup id with
      | none => exact Option.some.inj ((Tree.finishChild_none hp result).symm.trans heq) ▸ hwf
      | some p => exact hwf.finishChild hp heq
  | beginExpansion index id => exact hop.elim
  | collapse index => exact hop.elim
  | restart => exact hop.elim

/-- **Streaming keeps the selection.**  What listings bring, in any order, leaves a row
that was chosen selected; and where the tree is as it should be, none of it panics. -/
theorem streaming_keeps_selection (hsel : t.selectedIndex = some i)
    (hrow : t.rows[i]? = some row)
    (hrun : Steps Tree.apply (fun _ op => op.Streams) t t') :
    t.selectedRow = some row ∧
    (∃ row', t'.selectedRow = some row' ∧ row'.path = row.path ∧ row'.depth = row.depth ∧
      row'.entry = row.entry) ∧
    (t.Wf 1 → ∀ op : TreeOp μ, op.Streams → ∃ t'', t'.apply op = some t'') := by
  have hchosen : t.Chosen row := ⟨i, row, hsel, hrow, rfl, rfl, rfl⟩
  have hstays : t'.Chosen row :=
    hrun.invariant (I := (·.Chosen row)) (fun _ _ _ h hop heq => h.apply hop heq) hchosen
  obtain ⟨row', hrow', hsame⟩ := hstays.selectedRow
  refine ⟨?_, ⟨row', hrow', hsame.path, hsame.depth, hsame.entry⟩, fun hwf op hop => ?_⟩
  · rw [Tree.selectedRow, Tree.effectiveSelection_chosen hsel hrow]
    exact hrow
  · exact apply_isSome
      (hrun.invariant (I := Tree.Wf 1) (fun _ _ _ h hop heq => wf_streams h hop heq) hwf)
      hop.allowed

/-- `c` is selected, and `a`, above it, is being listed. -/
def halfListed : Tree Unit :=
  { runs Tree.apply (fun t op => op.Allowed t) (.new (letters [0x72]))
      [.extendRoot [entryNamed (letters [0x61]) true, entryNamed (letters [0x63]) false],
        .beginExpansion 0 1] with
    selectedIndex := some 1 }

/-- What is listed comes in just where the selection is. -/
def streamed : Tree Unit :=
  runs Tree.apply (fun _ op => op.Streams) halfListed
    [.extendChild 1 [entryNamed (letters [0x62]) false, entryNamed (letters [0x64]) false],
      .extendRoot [entryNamed (letters [0x65]) false], .finishChild 1 (.ok ())]

theorem streamed_selection : streamed.selectedIndex = some 3 ∧
    ∃ row, streamed.selectedRow = some row ∧ row.entry = entryNamed (letters [0x63]) false := by
  obtain ⟨row, hrow, -, -, hentry⟩ :=
    (streaming_keeps_selection (i := 1) rfl
      (show halfListed.rows[1]? = some (Row.new (childPath (letters [0x72]) (letters [0x63])) 0
        (entryNamed (letters [0x63]) false)) by decide +kernel)
      (show Steps Tree.apply (fun _ op => op.Streams) halfListed streamed from
        steps_runs _ _)).2.1
  exact ⟨by decide +kernel, row, hrow, hentry⟩

end FilePeeker.Browser
