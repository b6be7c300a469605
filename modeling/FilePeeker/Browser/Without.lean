import FilePeeker.Browser.Placed
import FilePeeker.Lib.Folds

/-!
# A tree without what was opened later

Requests are numbered as rows are expanded.  `Without n t u` says that `u` is `t`
without what any request after `n` has opened: those rows are collapsed in `u`,
with nothing beneath them, and all other rows and placements are those of `t`.

Opening a row after `n`, and what its listing sends, changes nothing of that, and no
more does closing it; what any other listing sends is the same for both trees.
-/

namespace FilePeeker.Browser

open PreOrder

variable {μ : Type}

/-- The row was expanded by a request after `n`. -/
def Row.isLater (n : Nat) (row : Row μ) : Bool :=
  row.expansion.requestId.any fun id : Nat => n < id

/-- The rows that were expanded after `n` are folded. -/
def laterFolds (n : Nat) : Folds (Row μ) where
  depth := Row.depth
  folded := Row.isLater n
  shut := fun row => { row with expansion := .collapsed }

/-- Where a placement is among the rows that are seen. -/
def Placement.seen (n : Nat) (rows : List (Row μ)) (p : Placement) : Placement :=
  { parent := (laterFolds n).place rows p.parent
    depth := p.depth
    insertion := (laterFolds n).place rows p.insertion }

namespace Tree

variable {t t' u u' : Tree μ} {n id : Nat} {p : Placement} {row next : Row μ}
  {i j k d stop : Nat} {new : List (Row μ)} {entries : List (DirectoryEntry μ)}
  {result : Except String Unit}

/-- Nothing is beneath a collapsed row. -/
def Leaves (t : Tree μ) : Prop := ∀ (i : Nat) (row next : Row μ), t.rows[i]? = some row →
  t.rows[i + 1]? = some next → row.expansion = .collapsed → next.depth ≤ row.depth

structure Without (n : Nat) (t u : Tree μ) : Prop where
  rows : u.rows = (laterFolds n).shown none t.rows
  lookup : ∀ id : Nat, u.placements.lookup id =
    if id ≤ n then (t.placements.lookup id).map (Placement.seen n t.rows) else none
  hidden : ∀ row ∈ (laterFolds n).hidden none t.rows, ∀ id : Nat,
    row.expansion.requestId = some id → n < id
  rootPath : u.rootPath = t.rootPath
  status : u.status = t.status

theorem isLater_iff : row.isLater n ↔ ∃ id : Nat, row.expansion.requestId = some id ∧ n < id := by
  unfold Row.isLater
  cases row.expansion.requestId <;> simp

theorem not_later_collapsed (h : row.expansion = .collapsed) : row.isLater n = false := by
  rw [Row.isLater, h]
  rfl

theorem not_later_of_le (h : row.expansion.requestId = some id) (hid : id ≤ n) :
    row.isLater n = false := by
  rw [Row.isLater, h, Option.any_some, decide_eq_false_iff_not]
  exact Nat.not_lt.mpr hid

theorem seen_of_not_later (h : row.isLater n = false) : (laterFolds n).seen row = row := by
  rw [Folds.seen, show (laterFolds n).folded row = false from h, if_neg Bool.false_ne_true]

theorem seen_of_later (h : row.isLater n = true) :
    (laterFolds n).seen row = { row with expansion := .collapsed } := if_pos h

/-! ### Rows that are collapsed -/

theorem leaves_of_rows (h : t.Leaves) (hrows : t'.rows = t.rows) : t'.Leaves := by
  rw [Leaves, hrows]
  exact h

theorem Leaves.inserted (h : t.Leaves) (hins : t.Inserted t' k new d) (hk : k ≤ t.rows.length)
    (hnew : ∀ r ∈ new, r.depth = d ∧ r.expansion = .collapsed)
    (hbefore : ∀ row, 0 < k → t.rows[k - 1]? = some row → row.expansion = .collapsed →
      d ≤ row.depth)
    (hbehind : ∀ row, t.rows[k]? = some row → row.depth ≤ d) : t'.Leaves := by
  intro i row next hi hnext hcollapsed
  rw [hins.1] at hi hnext
  rcases Nat.eq_zero_or_pos new.length with hzero | hpos
  · rw [List.length_eq_zero_iff.mp hzero, splice_nil] at hi hnext
    exact h i row next hi hnext hcollapsed
  rcases Nat.lt_or_ge (i + 1) k with hik | hik
  · rw [splice_before hk (by omega)] at hi
    rw [splice_before hk hik] at hnext
    exact h i row next hi hnext hcollapsed
  rcases Nat.lt_or_ge i k with hlt | hge
  · obtain rfl : k = i + 1 := by omega
    rw [splice_before hk hlt] at hi
    rw [splice_inside hk hik (by omega)] at hnext
    rw [(hnew next (List.mem_of_getElem? hnext)).1]
    exact hbefore row (Nat.succ_pos i) hi hcollapsed
  rcases Nat.lt_or_ge i (k + new.length) with hin | hout
  · rw [splice_inside hk hge hin] at hi
    rw [(hnew row (List.mem_of_getElem? hi)).1]
    rcases Nat.lt_or_ge (i + 1) (k + new.length) with hin' | hout'
    · rw [splice_inside hk hik hin'] at hnext
      exact Nat.le_of_eq (hnew next (List.mem_of_getElem? hnext)).1
    · rw [show i + 1 = k + new.length by omega, splice_after hk (Nat.le_refl k)] at hnext
      exact hbehind next hnext
  · obtain ⟨i, rfl⟩ : ∃ i', i = i' + new.length := ⟨i - new.length, by omega⟩
    rw [splice_after hk (by omega)] at hi
    rw [show i + new.length + 1 = i + 1 + new.length by omega,
      splice_after hk (by omega)] at hnext
    exact h i row next hi hnext hcollapsed

theorem Leaves.marked {expansion : Expansion} (h : t.Leaves) (hmark : t.Marked t' i expansion)
    (hopen : expansion ≠ .collapsed) : t'.Leaves := by
  intro j row next hj hnext hcollapsed
  obtain ⟨old, hold, hcase⟩ := hmark.cases hj
  obtain ⟨old', hold', hcase'⟩ := hmark.cases hnext
  have hdepth : next.depth = old'.depth := by
    rcases hcase' with ⟨-, rfl⟩ | ⟨-, rfl⟩ <;> rfl
  rcases hcase with ⟨-, rfl⟩ | ⟨-, rfl⟩
  · exact absurd hcollapsed hopen
  · rw [hdepth]
    exact h j row old' hold hold' hcollapsed

theorem Leaves.removed (h : t.Leaves) (hrem : t.Removed t' i stop row)
    (hend : IsEnd t.depths i stop) (hi : t.rows[i]? = some row) : t'.Leaves := by
  intro j r next hj hnext hcollapsed
  have hlt := hend.lt
  obtain ⟨m, hm, hmout, old, hold, hcase⟩ := hrem.cases hend hi hj
  obtain ⟨m', hm', hmout', old', hold', hcase'⟩ := hrem.cases hend hi hnext
  have hdepth : next.depth = old'.depth := by
    rcases hcase' with ⟨-, rfl⟩ | ⟨-, rfl⟩ <;> rfl
  rw [hdepth]
  rcases hcase with ⟨rfl, rfl⟩ | ⟨hmi, rfl⟩
  · -- Behind the row that was closed comes what was behind its subtree.
    have hnextm : m' = stop := by
      unfold movedUp at hm hm'
      split at hm <;> split at hm' <;> omega
    subst hnextm
    have hle := hend.outside row.depth old'.depth (depths_of_row hi) (depths_of_row hold')
    rw [hi, Option.some.injEq] at hold
    rw [← hold]
    exact hle
  · have hnextm : m' = m + 1 := by
      unfold movedUp at hm hm'
      split at hm <;> split at hm' <;> omega
    subst hnextm
    exact h m r old' hold hold' hcollapsed

/-- A collapsed row is the end of its subtree. -/
theorem Leaves.isEnd (h : t.Leaves) (hi : t.rows[i]? = some row)
    (hcollapsed : row.expansion = .collapsed) (hend : IsEnd t.depths i stop) : stop = i + 1 := by
  have hlt := hend.lt
  have hle := hend.le
  by_contra hne
  rw [length_depths] at hle
  have hnext : t.rows[i + 1]? = some t.rows[i + 1] := List.getElem?_eq_getElem (by omega)
  have hshallow := h i row _ hi hnext hcollapsed
  have hdeep := hend.inside (i + 1) row.depth _ (by omega) (by omega) (depths_of_row hi)
    (depths_of_row hnext)
  omega

/-! ### What is seen -/

/-- A row of an earlier request is seen. -/
theorem Without.isShown (h : Without n t u) (hi : t.rows[i]? = some row)
    (hrow : row.expansion.requestId = some id) (hid : id ≤ n) :
    (laterFolds n).IsShown t.rows i := by
  by_contra hnot
  have := h.hidden row (Folds.mem_hidden hi hnot) id hrow
  omega

/-- What an earlier request brings is beneath no row that was opened later. -/
theorem Without.insertion_shown (h : Without n t u) (hwf : t.Wf 1)
    (hp : t.placements.lookup id = some p) (hid : id ≤ n) :
    ∀ x ∈ (laterFolds n).after none (t.rows.take p.insertion), p.depth ≤ x := by
  intro x hx
  obtain ⟨parent, hparent, hl⟩ := hwf.loading id p hp
  have hrequest : parent.expansion.requestId = some id := by
    rw [hl]
    rfl
  obtain ⟨j, row, hj, hrow, hfolded, hdepth, hbetween⟩ := Folds.of_after hx
  rw [← hdepth]
  rcases Nat.lt_trichotomy j p.parent with hjp | rfl | hpj
  · -- The row that loads would be hidden.
    exact absurd (h.isShown hparent hrequest hid)
      (hbetween p.parent parent hjp (hwf.slot id p hp).lt hparent).2
  · obtain rfl : row = parent := Option.some.inj (hrow.symm.trans hparent)
    have hnot := not_later_of_le hrequest hid
    rw [show Row.isLater n row = true from hfolded] at hnot
    cases hnot
  · exact (hwf.slot id p hp).within j _ hpj hj (depths_of_row hrow)

/-- What a later request brings is hidden. -/
theorem insertion_hidden (hwf : t.Wf 1) (hp : t.placements.lookup id = some p) (hid : n < id) :
    ∃ x, (laterFolds n).after none (t.rows.take p.insertion) = some x ∧ x < p.depth := by
  obtain ⟨parent, hparent, hl⟩ := hwf.loading id p hp
  have hslot := hwf.slot id p hp
  obtain ⟨y, hy, hdepth⟩ := hslot.parent
  rw [depths_of_row hparent, Option.some.injEq] at hy
  have hfolded : (laterFolds n).folded parent = true :=
    isLater_iff.mpr ⟨id, by rw [hl]; rfl, hid⟩
  obtain ⟨x, hx, hle⟩ := Folds.after_beneath hparent hfolded hslot.lt fun m c hpm hm hc => by
    have := hslot.within m _ hpm hm (depths_of_row hc)
    show parent.depth < c.depth
    omega
  have hle : x ≤ parent.depth := hle
  exact ⟨x, hx, by omega⟩

/-- Where an earlier request's rows go in, the next row is seen. -/
theorem Without.insertion_isShown (h : Without n t u) (hwf : t.Wf 1)
    (hp : t.placements.lookup id = some p) (hid : id ≤ n) :
    (laterFolds n).IsShown t.rows p.insertion := by
  intro row hrow
  refine Folds.not_hides fun x hx => ?_
  have hnext := (hwf.slot id p hp).next _ (depths_of_row hrow)
  have hle := h.insertion_shown hwf hp hid x hx
  show row.depth ≤ x
  omega

/-- How the places of an earlier request lie to any other place. -/
theorem Without.places (h : Without n t u) (hwf : t.Wf 1)
    (hp : t.placements.lookup id = some p) (hid : id ≤ n) (hk : k ≤ t.rows.length) :
    (k ≤ p.parent ↔ (laterFolds n).place t.rows k ≤ (laterFolds n).place t.rows p.parent) ∧
      (p.insertion < k → (laterFolds n).place t.rows p.insertion <
        (laterFolds n).place t.rows k) := by
  obtain ⟨parent, hparent, hl⟩ := hwf.loading id p hp
  have hshown := h.isShown hparent (by rw [hl]; rfl) hid
  constructor
  · constructor
    · exact Folds.place_mono
    · intro hle
      by_contra hlt
      have hmono := Folds.place_mono (f := laterFolds n) (l := t.rows)
        (show p.parent + 1 ≤ k by omega)
      rw [(Folds.shown_at hparent hshown).2] at hmono
      omega
  · intro hlt
    have hlt' : p.insertion < t.rows.length := by omega
    have hat := Folds.shown_at (List.getElem?_eq_getElem hlt') (h.insertion_isShown hwf hp hid)
    have hmono := Folds.place_mono (f := laterFolds n) (l := t.rows)
      (show p.insertion + 1 ≤ k by omega)
    rw [hat.2] at hmono
    omega

/-! ### What listings send -/

theorem folds_new (hnew : ∀ r ∈ new, r.depth = d ∧ r.expansion = .collapsed) :
    ∀ r ∈ new, (laterFolds n).depth r = d ∧ (laterFolds n).folded r = false :=
  fun r hr => ⟨(hnew r hr).1, not_later_collapsed (hnew r hr).2⟩

/-- Where a listing goes on is seen to move as it does. -/
theorem seen_afterInsertion {rows rows' : List (Row μ)} {count : Nat}
    (hlt : p.parent < p.insertion)
    (hbefore : ∀ j, j ≤ k → (laterFolds n).place rows' j = (laterFolds n).place rows j)
    (hafter : ∀ j, k ≤ j →
      (laterFolds n).place rows' (j + count) = (laterFolds n).place rows j + count)
    (hparent : k ≤ p.parent ↔
      (laterFolds n).place rows k ≤ (laterFolds n).place rows p.parent)
    (hinsertion : p.insertion < k →
      (laterFolds n).place rows p.insertion < (laterFolds n).place rows k)
    (hinside : p.parent < k → k < p.insertion → p.depth ≤ d) :
    (p.seen n rows).afterInsertion ((laterFolds n).place rows k) count d =
      (p.afterInsertion k count d).seen n rows' := by
  unfold Placement.afterInsertion
  by_cases hkp : k ≤ p.parent
  · rw [if_pos hkp, if_pos (show _ ≤ (p.seen n rows).parent from hparent.mp hkp)]
    exact (Placement.mk.injEq ..).mpr
      ⟨(hafter p.parent hkp).symm, rfl, (hafter p.insertion (by omega)).symm⟩
  · rw [if_neg hkp, if_neg (show ¬ _ ≤ (p.seen n rows).parent from
      fun hle => hkp (hparent.mpr hle))]
    have hpk := (hbefore p.parent (by omega)).symm
    by_cases hki : k < p.insertion ∨ k = p.insertion ∧ p.depth ≤ d
    · have hle : k ≤ p.insertion := by omega
      have hplace := Folds.place_mono (f := laterFolds n) (l := rows) hle
      have hseen : (laterFolds n).place rows k < (p.seen n rows).insertion ∨
          (laterFolds n).place rows k = (p.seen n rows).insertion ∧ (p.seen n rows).depth ≤ d := by
        rcases hki with hki | ⟨rfl, hd⟩
        · rcases Nat.lt_or_eq_of_le hplace with hlt | heq
          · exact .inl hlt
          · exact .inr ⟨heq, hinside (by omega) hki⟩
        · exact .inr ⟨rfl, hd⟩
      rw [if_pos hki, if_pos hseen]
      exact (Placement.mk.injEq ..).mpr ⟨hpk, rfl, (hafter p.insertion hle).symm⟩
    · have hseen : ¬ ((laterFolds n).place rows k < (p.seen n rows).insertion ∨
          (laterFolds n).place rows k = (p.seen n rows).insertion ∧
            (p.seen n rows).depth ≤ d) := by
        rcases Nat.lt_or_ge p.insertion k with hik | hik
        · have hlt := hinsertion hik
          show ¬ (_ < (laterFolds n).place rows p.insertion ∨
            _ = (laterFolds n).place rows p.insertion ∧ p.depth ≤ d)
          omega
        · obtain rfl : k = p.insertion := by omega
          show ¬ (_ < (laterFolds n).place rows p.insertion ∨ _ ∧ p.depth ≤ d)
          omega
      rw [if_neg hki, if_neg hseen]
      exact (Placement.mk.injEq ..).mpr ⟨hpk, rfl, (hbefore p.insertion (by omega)).symm⟩

/-- **Rows that both trees get.** -/
theorem Without.inserted (h : Without n t u) (hwf : t.Wf 1) (ht : t.Inserted t' k new d)
    (hu : u.Inserted u' ((laterFolds n).place t.rows k) new d) (hk : k ≤ t.rows.length)
    (hin : ∀ x ∈ (laterFolds n).after none (t.rows.take k), d ≤ x)
    (hnew : ∀ r ∈ new, r.depth = d ∧ r.expansion = .collapsed)
    (hbehind : ∀ row ∈ t.rows[k]?, row.depth ≤ d)
    (hinside : ∀ id p, t.placements.lookup id = some p → p.parent < k → k < p.insertion →
      p.depth ≤ d)
    (hroot : t'.rootPath = t.rootPath ∧ t'.status = t.status)
    (hroot' : u'.rootPath = u.rootPath ∧ u'.status = u.status) : Without n t' u' := by
  obtain ⟨hrows, hhidden, hbefore, hafter⟩ :=
    Folds.shown_splice (f := laterFolds n) hk hin (folds_new hnew) hbehind
  rw [← ht.1] at hrows hhidden hbefore hafter
  refine ⟨?_, fun id => ?_, ?_, ?_, ?_⟩
  · rw [hu.1, hrows, h.rows]
  · rw [hu.2, ht.2, Table.lookup_map, Table.lookup_map, h.lookup]
    by_cases hid : id ≤ n
    · rw [if_pos hid, if_pos hid, Option.map_map, Option.map_map]
      cases hp : t.placements.lookup id with
      | none => rfl
      | some p =>
        obtain ⟨hparent, hinsertion⟩ := h.places hwf hp hid hk
        exact congrArg some (seen_afterInsertion (hwf.slot id p hp).lt hbefore hafter hparent
          hinsertion (hinside id p hp))
    · rw [if_neg hid, if_neg hid]
      rfl
  · rw [hhidden]
    exact h.hidden
  · rw [hroot'.1, hroot.1, h.rootPath]
  · rw [hroot'.2, hroot.2, h.status]

/-- **Rows that go in where all is hidden.** -/
theorem Without.insertedHidden {x : Nat} (h : Without n t u) (hwf : t.Wf 1)
    (ht : t.Inserted t' k new d) (hk : k ≤ t.rows.length)
    (hin : (laterFolds n).after none (t.rows.take k) = some x) (hx : x < d)
    (hnew : ∀ r ∈ new, r.depth = d ∧ r.expansion = .collapsed)
    (hroot : t'.rootPath = t.rootPath ∧ t'.status = t.status) : Without n t' u := by
  obtain ⟨hrows, hhidden, hbefore, hafter⟩ := Folds.shown_splice_hidden hk hin
    fun r (hr : r ∈ new) => by
      show x < r.depth
      rw [(hnew r hr).1]
      exact hx
  refine ⟨?_, fun id => ?_, ?_, ?_, ?_⟩
  · rw [ht.1, hrows, h.rows]
  · rw [ht.2, Table.lookup_map, h.lookup, Option.map_map]
    congr 1
    cases hp : t.placements.lookup id with
    | none => rfl
    | some p =>
      have hlt := (hwf.slot id p hp).lt
      refine congrArg some ?_
      simp only [Function.comp, Placement.seen, Placement.afterInsertion, ht.1]
      split
      · next hkp => simp only [hafter p.parent hkp, hafter p.insertion (by omega)]
      · next hkp =>
        have hpk := hbefore p.parent (by omega)
        split
        · next hki => simp only [hpk, hafter p.insertion (by omega)]
        · next hki => simp only [hpk, hbefore p.insertion (by omega)]
  · intro row hrow id hid
    rw [ht.1] at hrow
    rcases hhidden row hrow with hrow | hrow
    · rw [(hnew row hrow).2] at hid
      cases hid
    · exact h.hidden row hrow id hid
  · rw [hroot.1, h.rootPath]
  · rw [hroot.2, h.status]

theorem Without.extendRoot (h : Without n t u) (hwf : t.Wf 1)
    (entries : List (DirectoryEntry μ)) :
    Without n (t.extendRoot entries) (u.extendRoot entries) := by
  obtain ⟨ht, hroot⟩ := extendRoot_spec t entries
  obtain ⟨hu, hroot'⟩ := extendRoot_spec u entries
  have hplace : (laterFolds n).place t.rows t.rows.length = u.rows.length := by
    rw [Folds.place, List.take_length, h.rows]
  have hrows : u.rootRows entries = t.rootRows entries := by
    rw [rootRows, rootRows, h.rootPath]
  refine h.inserted hwf ht (by rw [hplace, ← hrows]; exact hu) (Nat.le_refl _)
    (fun x _ => Nat.zero_le x) ?_ ?_ ?_ hroot hroot'
  · intro r hr
    obtain ⟨entry, -, rfl⟩ := List.mem_map.mp hr
    exact ⟨rfl, rfl⟩
  · intro row hrow
    rw [List.getElem?_eq_none (Nat.le_refl _)] at hrow
    cases hrow
  · intro id p hp _ hlt
    have := (hwf.slot id p hp).le
    rw [length_depths] at this
    omega

theorem childRows_collapsed (parent : Row μ) (depth : Nat) (entries : List (DirectoryEntry μ)) :
    ∀ r ∈ childRows parent depth entries, r.depth = depth ∧ r.expansion = .collapsed := by
  intro r hr
  obtain ⟨entry, -, rfl⟩ := List.mem_map.mp hr
  exact ⟨rfl, rfl⟩

/-- Where the row that an earlier request lists is seen. -/
theorem Without.parent (h : Without n t u) (hp : t.placements.lookup id = some p) (hid : id ≤ n)
    {parent : Row μ} (hparent : t.rows[p.parent]? = some parent)
    (hl : parent.expansion = .loading id) :
    u.placements.lookup id = some (p.seen n t.rows) ∧
      u.rows[(laterFolds n).place t.rows p.parent]? = some parent := by
  have hrequest : parent.expansion.requestId = some id := by
    rw [hl]
    rfl
  refine ⟨by rw [h.lookup, if_pos hid, hp, Option.map_some], ?_⟩
  rw [h.rows, (Folds.shown_at hparent (h.isShown hparent hrequest hid)).1,
    seen_of_not_later (not_later_of_le hrequest hid)]

theorem Without.extendChild (h : Without n t u) (hwf : t.Wf 1) (hwf' : u.Wf 1) (hid : id ≤ n)
    (ht : t.extendChild id entries = some t') :
    ∃ u', u.extendChild id entries = some u' ∧ Without n t' u' := by
  cases hp : t.placements.lookup id with
  | none =>
    rw [extendChild_none hp, Option.some.injEq] at ht
    have hp' : u.placements.lookup id = none := by rw [h.lookup, if_pos hid, hp, Option.map_none]
    exact ⟨u, extendChild_none hp' entries, ht ▸ h⟩
  | some p =>
    obtain ⟨parent, t₂, hparent, heq, hins, hroot⟩ := extendChild_spec hwf hp entries
    obtain rfl : t' = t₂ := Option.some.inj (ht.symm.trans heq)
    obtain ⟨row, hrow, hl⟩ := hwf.loading id p hp
    obtain rfl : row = parent := Option.some.inj (hrow.symm.trans hparent)
    obtain ⟨hp', hparent'⟩ := h.parent hp hid hrow hl
    obtain ⟨row', u', hrow', heq', hins', hroot'⟩ := extendChild_spec hwf' hp' entries
    obtain rfl : row' = row := Option.some.inj (hrow'.symm.trans hparent')
    have hslot := hwf.slot id p hp
    refine ⟨u', heq', h.inserted hwf hins hins' ?_ (h.insertion_shown hwf hp hid)
      (childRows_collapsed row' p.depth entries) ?_ ?_ hroot hroot'⟩
    · have := hslot.le
      rwa [length_depths] at this
    · intro next hnext
      have := hslot.next _ (depths_of_row hnext)
      omega
    · intro id' q hq hlt hin
      exact hwf.inside (Nat.le_refl 1) hp hq hlt hin

/-- What a later request brings is not seen. -/
theorem Without.extendLater (h : Without n t u) (hwf : t.Wf 1) (hid : n < id)
    (ht : t.extendChild id entries = some t') : Without n t' u := by
  cases hp : t.placements.lookup id with
  | none =>
    rw [extendChild_none hp, Option.some.injEq] at ht
    exact ht ▸ h
  | some p =>
    obtain ⟨parent, t₂, hparent, heq, hins, hroot⟩ := extendChild_spec hwf hp entries
    obtain rfl : t' = t₂ := Option.some.inj (ht.symm.trans heq)
    obtain ⟨x, hx, hlt⟩ := insertion_hidden hwf hp hid
    have hle := (hwf.slot id p hp).le
    rw [length_depths] at hle
    exact h.insertedHidden hwf hins hle hx hlt (childRows_collapsed parent p.depth entries) hroot

/-! ### Listings that end -/

theorem seen_of_place {rows rows' : List (Row μ)}
    (h : ∀ j, (laterFolds n).place rows' j = (laterFolds n).place rows j) :
    (Placement.seen n rows' : Placement → Placement) = Placement.seen n rows := by
  funext p
  rw [Placement.seen, Placement.seen, h, h]

/-- A row that goes over to another state of its listing. -/
theorem Marked.folds {expansion : Expansion} (hmark : t.Marked t' i expansion)
    (hi : t.rows[i]? = some row) (hsame : expansion.requestId = row.expansion.requestId) :
    t'.rows = t.rows.set i { row with expansion } ∧
      (laterFolds n).folded { row with expansion } = (laterFolds n).folded row := by
  obtain ⟨row', hrow', heq⟩ := hmark
  obtain rfl : row' = row := Option.some.inj (hrow'.symm.trans hi)
  refine ⟨heq, ?_⟩
  show Row.isLater n _ = Row.isLater n _
  rw [Row.isLater, Row.isLater, hsame]

theorem Without.markedHidden {expansion : Expansion} (h : Without n t u) {row : Row μ}
    (hmark : t.Marked t' i expansion) (hi : t.rows[i]? = some row)
    (hsame : expansion.requestId = row.expansion.requestId) :
    ∀ r ∈ (laterFolds n).hidden none t'.rows, ∀ id : Nat,
      r.expansion.requestId = some id → n < id := by
  obtain ⟨heq, hfolded⟩ := hmark.folds (n := n) hi hsame
  intro r hr id hid
  rw [heq] at hr
  rcases (Folds.shown_set (f := laterFolds n) (b := { row with expansion }) hi rfl
    hfolded).2.2.1 r hr with hr | ⟨rfl, hrow⟩
  · exact h.hidden r hr id hid
  · exact h.hidden row hrow id (hsame ▸ hid)

/-- The listing of an earlier request ends in both trees. -/
theorem Without.finishChild (h : Without n t u) (hwf : t.Wf 1) (hwf' : u.Wf 1) (hid : id ≤ n)
    (ht : t.finishChild id result = some t') :
    ∃ u', u.finishChild id result = some u' ∧ Without n t' u' := by
  cases hp : t.placements.lookup id with
  | none =>
    rw [finishChild_none hp, Option.some.injEq] at ht
    have hp' : u.placements.lookup id = none := by rw [h.lookup, if_pos hid, hp, Option.map_none]
    exact ⟨u, finishChild_none hp' result, ht ▸ h⟩
  | some p =>
    obtain ⟨t₂, heq, hmark, hplacements, hroot, hstatus⟩ := finishChild_spec hwf hp result
    obtain rfl : t' = t₂ := Option.some.inj (ht.symm.trans heq)
    obtain ⟨row, hrow, hl⟩ := hwf.loading id p hp
    obtain ⟨hp', hrow'⟩ := h.parent hp hid hrow hl
    obtain ⟨u', heq', hmark', hplacements', hroot', hstatus'⟩ := finishChild_spec hwf' hp' result
    have hrequest : row.expansion.requestId = some id := by
      rw [hl]
      rfl
    have hsame : (finished id result).requestId = row.expansion.requestId := by
      rw [finished_requestId, hrequest]
    obtain ⟨hrows, hfolded⟩ := hmark.folds (n := n) hrow hsame
    obtain ⟨hrows', -⟩ := hmark'.folds (n := n) hrow' hsame
    obtain ⟨hshown, -, -, hplace⟩ := Folds.shown_set (f := laterFolds n)
      (b := { row with expansion := finished id result }) hrow rfl hfolded
    refine ⟨u', heq', ?_, fun id' => ?_, h.markedHidden hmark hrow hsame, ?_, ?_⟩
    · have hlater : Row.isLater n { row with expansion := finished id result } = false :=
        not_later_of_le (finished_requestId id result) hid
      rw [hrows', hrows, hshown (h.isShown hrow hrequest hid), h.rows, seen_of_not_later hlater]
      rfl
    · rw [hplacements', hplacements, Table.lookup_erase_if, Table.lookup_erase_if, h.lookup, hrows,
        seen_of_place hplace]
      by_cases hid' : id' = id
      · rw [if_pos hid', if_pos hid', Option.map_none, ite_self]
      · rw [if_neg hid', if_neg hid']
    · rw [hroot', hroot, h.rootPath]
    · rw [hstatus', hstatus, h.status]

/-- That the listing of a later request ends is not seen. -/
theorem Without.finishLater (h : Without n t u) (hwf : t.Wf 1) (hid : n < id)
    (ht : t.finishChild id result = some t') : Without n t' u := by
  cases hp : t.placements.lookup id with
  | none =>
    rw [finishChild_none hp, Option.some.injEq] at ht
    exact ht ▸ h
  | some p =>
    obtain ⟨t₂, heq, hmark, hplacements, hroot, hstatus⟩ := finishChild_spec hwf hp result
    obtain rfl : t' = t₂ := Option.some.inj (ht.symm.trans heq)
    obtain ⟨row, hrow, hl⟩ := hwf.loading id p hp
    have hrequest : row.expansion.requestId = some id := by
      rw [hl]
      rfl
    have hsame : (finished id result).requestId = row.expansion.requestId := by
      rw [finished_requestId, hrequest]
    obtain ⟨hrows, hfolded⟩ := hmark.folds (n := n) hrow hsame
    obtain ⟨hshown, hnot, -, hplace⟩ := Folds.shown_set (f := laterFolds n)
      (b := { row with expansion := finished id result }) hrow rfl hfolded
    have hlater : row.isLater n = true := isLater_iff.mpr ⟨id, hrequest, hid⟩
    refine ⟨?_, fun id' => ?_, h.markedHidden hmark hrow hsame, ?_, ?_⟩
    · rw [hrows, h.rows]
      by_cases hseen : (laterFolds n).IsShown t.rows p.parent
      · -- It is seen collapsed all the same.
        have hat := (Folds.shown_at hrow hseen).1
        rw [hshown hseen, seen_of_later (hfolded.trans hlater)]
        rw [seen_of_later hlater] at hat
        obtain ⟨hlt, hget⟩ := List.getElem?_eq_some_iff.mp hat
        exact (hget ▸ List.set_getElem_self hlt).symm
      · rw [hnot hseen]
    · rw [hplacements, Table.lookup_erase_if, h.lookup, hrows, seen_of_place hplace]
      by_cases hid' : id' = id
      · subst hid'
        rw [if_neg (Nat.not_le.mpr hid), if_neg (Nat.not_le.mpr hid)]
      · rw [if_neg hid']
    · rw [hroot, h.rootPath]
    · rw [hstatus, h.status]

/-! ### Rows that are opened and closed -/

theorem collapsed_self (h : row.expansion = .collapsed) :
    ({ row with expansion := .collapsed } : Row μ) = row := by
  rw [← h]

/-- What comes behind a collapsed row is not beneath it. -/
theorem Leaves.head (h : t.Leaves) (hi : t.rows[i]? = some row)
    (hcollapsed : row.expansion = .collapsed) :
    ∀ next ∈ (t.rows.drop (i + 1)).head?, next.depth ≤ row.depth := by
  intro next hnext
  rw [List.head?_drop] at hnext
  exact h i row next hi hnext hcollapsed

/-- **A collapsed row is opened later.** -/
theorem Without.beginExpansion (h : Without n t u) (hleaves : t.Leaves)
    (hi : t.rows[i]? = some row) (hcollapsed : row.expansion = .collapsed) (hid : n < id)
    {path : PathString} (ht : t.beginExpansion i id = some (t', path)) : Without n t' u := by
  obtain ⟨t₂, heq, ⟨row₂, hrow₂, hrows⟩, hplacements, hroot, hstatus, -⟩ :=
    beginExpansion_spec id hi
  obtain rfl : t' = t₂ := by
    rw [ht, Option.some.injEq, Prod.mk.injEq] at heq
    exact heq.1
  obtain rfl : row₂ = row := Option.some.inj (hrow₂.symm.trans hi)
  have hlater : Row.isLater n { row₂ with expansion := .loading id } = true :=
    isLater_iff.mpr ⟨id, rfl, hid⟩
  have hseen : (laterFolds n).seen { row₂ with expansion := .loading id } = row₂ := by
    rw [seen_of_later hlater]
    exact collapsed_self hcollapsed
  have hlt := (List.getElem?_eq_some_iff.mp hi).1
  have hnew : t'.rows = t.rows.take i ++
      { row₂ with expansion := .loading id } :: ([] ++ t.rows.drop (i + 1)) := by
    rw [hrows, List.set_eq_take_append_cons_drop, if_pos hlt, List.nil_append]
  have hhead := hleaves.head hi hcollapsed
  have hnot := not_later_collapsed (n := n) hcollapsed
  obtain ⟨hshown, -, hhidden⟩ := Folds.shown_shut (f := laterFolds n) (t.rows.take i)
    hseen hnot rfl (by simp) hhead (.inr (show ([] : List (Row μ)) = [] from rfl))
  obtain ⟨hbefore, hafter⟩ := Folds.place_shut (f := laterFolds n) (t.rows.take i)
    hseen hnot rfl (by simp) hhead (.inr (show ([] : List (Row μ)) = [] from rfl))
  rw [← Folds.eq_split hi, ← hnew] at hshown hhidden hbefore hafter
  have hplace (j : Nat) : (laterFolds n).place t'.rows j = (laterFolds n).place t.rows j := by
    rcases Nat.le_total j ((t.rows.take i).length + 1) with hj | hj
    · exact (hbefore j hj).symm
    · exact (hafter j hj).symm
  refine ⟨?_, fun id' => ?_, fun r hr id' hid' => ?_, ?_, ?_⟩
  · rw [h.rows, hshown]
  · rw [hplacements, Table.lookup_insert_if, seen_of_place hplace, h.lookup]
    by_cases hsame : id' = id
    · subst hsame
      rw [if_neg (Nat.not_le.mpr hid), if_neg (Nat.not_le.mpr hid)]
    · rw [if_neg hsame]
  · rcases hhidden r hr with hr | rfl | hr
    · exact h.hidden r hr id' hid'
    · obtain rfl := Option.some.inj hid'
      exact hid
    · cases hr
  · rw [hroot, h.rootPath]
  · rw [hstatus, h.status]

/-- The rows are those before the row, the row, those beneath it, and those behind. -/
theorem rows_around (hi : t.rows[i]? = some row) (hend : IsEnd t.depths i stop) :
    t.rows = t.rows.take i ++ row :: ((t.rows.take stop).drop (i + 1) ++ t.rows.drop stop) := by
  have hlt := hend.lt
  have hle := hend.le
  rw [length_depths] at hle
  have hdrop : t.rows.drop (i + 1) = (t.rows.take stop).drop (i + 1) ++ t.rows.drop stop := by
    conv_lhs => rw [← List.take_append_drop stop t.rows]
    rw [List.drop_append_of_le_length (by rw [List.length_take]; omega)]
  rw [← hdrop]
  exact Folds.eq_split hi

theorem depth_beneath (hi : t.rows[i]? = some row) (hend : IsEnd t.depths i stop) :
    ∀ r ∈ (t.rows.take stop).drop (i + 1), row.depth < r.depth := by
  intro r hr
  obtain ⟨m, hm⟩ := List.mem_iff_getElem?.mp hr
  rw [List.getElem?_drop, List.getElem?_take] at hm
  split at hm
  · exact hend.inside (i + 1 + m) row.depth r.depth (by omega) (by omega) (depths_of_row hi)
      (depths_of_row hm)
  · cases hm

theorem depth_behind (hi : t.rows[i]? = some row) (hend : IsEnd t.depths i stop) :
    ∀ r ∈ (t.rows.drop stop).head?, r.depth ≤ row.depth := by
  intro r hr
  rw [List.head?_drop] at hr
  exact hend.outside row.depth r.depth (depths_of_row hi) (depths_of_row hr)

theorem Removed.rows_eq (hrem : t.Removed t' i stop row) (hi : t.rows[i]? = some row) :
    t'.rows = t.rows.take i ++ { row with expansion := .collapsed } :: t.rows.drop stop := by
  have hilt := (List.getElem?_eq_some_iff.mp hi).1
  have hlen : (t.rows.take i).length = i := by rw [List.length_take, Nat.min_eq_left (by omega)]
  rw [hrem.rows, removeRange, List.take_add_one, hi, Option.toList_some, List.append_assoc,
    List.set_append_right _ _ (by omega), hlen, Nat.sub_self]
  rfl

/-- What is seen once a row is closed that was seen closed. -/
theorem Removed.shown (hrem : t.Removed t' i stop row) (hleaves : t.Leaves)
    (hi : t.rows[i]? = some row) (hcase : row.isLater n = true ∨ row.expansion = .collapsed)
    (hend : IsEnd t.depths i stop) :
    (laterFolds n).shown none t'.rows = (laterFolds n).shown none t.rows ∧
      (∀ r ∈ (laterFolds n).hidden none t'.rows,
        r ∈ (laterFolds n).hidden none t.rows ∨ r = { row with expansion := .collapsed }) ∧
      (∀ j, j ≤ i + 1 → (laterFolds n).place t'.rows j = (laterFolds n).place t.rows j) ∧
      ∀ j, stop ≤ j →
        (laterFolds n).place t'.rows (j - (stop - (i + 1))) = (laterFolds n).place t.rows j := by
  have hlt := hend.lt
  have hle := hend.le
  rw [length_depths] at hle
  have hseen : (laterFolds n).seen row = { row with expansion := .collapsed } := by
    rcases hcase with hlater | hcollapsed
    · exact seen_of_later hlater
    · rw [seen_of_not_later (not_later_collapsed hcollapsed), collapsed_self hcollapsed]
  have hempty : (laterFolds n).folded row = true ∨ (t.rows.take stop).drop (i + 1) = [] := by
    rcases hcase with hlater | hcollapsed
    · exact .inl hlater
    · rw [hleaves.isEnd hi hcollapsed hend]
      exact .inr (List.drop_eq_nil_iff.mpr (List.length_take_le _ _))
  have hnot : (laterFolds n).folded { row with expansion := .collapsed } = false := rfl
  have hinside := depth_beneath hi hend
  have hbehind := depth_behind hi hend
  obtain ⟨hshown, hhidden, -⟩ := Folds.shown_shut (f := laterFolds n) (t.rows.take i)
    hseen hnot rfl hinside hbehind hempty
  obtain ⟨hbefore, hafter⟩ := Folds.place_shut (f := laterFolds n) (t.rows.take i)
    hseen hnot rfl hinside hbehind hempty
  have hlen : (t.rows.take i).length = i := by rw [List.length_take, Nat.min_eq_left (by omega)]
  rw [← rows_around hi hend, ← hrem.rows_eq hi] at hshown hhidden hbefore hafter
  rw [hlen] at hbefore hafter
  rw [List.length_drop, List.length_take, Nat.min_eq_left hle] at hafter
  refine ⟨hshown, hhidden, hbefore, fun j hj => ?_⟩
  rw [hafter _ (by omega), show j - (stop - (i + 1)) + (stop - (i + 1)) = j by omega]

/-- A row that an earlier request lists is not in a subtree that is seen closed. -/
theorem Without.parent_outside (h : Without n t u) (hwf : t.Wf 1) (hleaves : t.Leaves)
    (hi : t.rows[i]? = some row) (hcase : row.isLater n = true ∨ row.expansion = .collapsed)
    (hend : IsEnd t.depths i stop) (hp : t.placements.lookup id = some p) (hid : id ≤ n) :
    p.parent < i ∨ stop ≤ p.parent := by
  obtain ⟨parent, hparent, hl⟩ := hwf.loading id p hp
  have hrequest : parent.expansion.requestId = some id := by
    rw [hl]
    rfl
  by_contra hcon
  rcases hcase with hlater | hcollapsed
  · rcases Nat.lt_or_eq_of_le (show i ≤ p.parent by omega) with hip | rfl
    · exact Folds.not_shown_beneath (f := laterFolds n) hi hlater hip hparent
        (hend.inside p.parent _ _ hip (by omega) (depths_of_row hi) (depths_of_row hparent))
        (fun m c hm hmp hc => hend.inside m _ _ hm (by omega) (depths_of_row hi)
          (depths_of_row hc))
        (h.isShown hparent hrequest hid)
    · obtain rfl : row = parent := Option.some.inj (hi.symm.trans hparent)
      rw [not_later_of_le hrequest hid] at hlater
      cases hlater
  · have hstop := hleaves.isEnd hi hcollapsed hend
    have hlt := hend.lt
    obtain rfl : p.parent = i := by omega
    obtain rfl : row = parent := Option.some.inj (hi.symm.trans hparent)
    rw [hcollapsed] at hl
    cases hl

/-- Where a listing goes on is seen not to move where it is not in what is removed. -/
theorem seen_afterRemoval {rows rows' : List (Row μ)} (hlt : p.parent < p.insertion)
    (hi : i < stop) (hout : p.parent < i ∨ stop ≤ p.parent)
    (hslot : p.insertion ≤ i ∨ stop ≤ p.insertion)
    (hbefore : ∀ j, j ≤ i + 1 → (laterFolds n).place rows' j = (laterFolds n).place rows j)
    (hafter : ∀ j, stop ≤ j →
      (laterFolds n).place rows' (j - (stop - (i + 1))) = (laterFolds n).place rows j) :
    p.seen n rows = (p.afterRemoval (i + 1) stop).seen n rows' := by
  unfold Placement.afterRemoval
  by_cases hbehind : stop ≤ p.parent
  · rw [if_pos hbehind]
    exact (Placement.mk.injEq ..).mpr
      ⟨(hafter p.parent hbehind).symm, rfl, (hafter p.insertion (by omega)).symm⟩
  · rw [if_neg hbehind]
    have hparent := (hbefore p.parent (by omega)).symm
    rcases hslot with hn | hn
    · rw [if_neg (by omega), if_neg (by omega)]
      exact (Placement.mk.injEq ..).mpr ⟨hparent, rfl, (hbefore p.insertion (by omega)).symm⟩
    · rw [if_pos hn]
      exact (Placement.mk.injEq ..).mpr ⟨hparent, rfl, (hafter p.insertion hn).symm⟩

/-- **A row that was opened later is closed**, or a row that is closed already. -/
theorem Without.collapse (h : Without n t u) (hwf : t.Wf 1) (hleaves : t.Leaves)
    (hi : t.rows[i]? = some row) (hcase : row.isLater n = true ∨ row.expansion = .collapsed)
    (hend : IsEnd t.depths i stop) (hrem : t.Removed t' i stop row) : Without n t' u := by
  obtain ⟨hshown, hhidden, hbefore, hafter⟩ := hrem.shown hleaves hi hcase hend
  have hlt := hend.lt
  refine ⟨by rw [h.rows, hshown], fun id => ?_, fun r hr id hid => ?_, ?_, ?_⟩
  · rw [h.lookup]
    by_cases hid : id ≤ n
    · rw [if_pos hid, if_pos hid, hrem.lookup]
      cases hp : t.placements.lookup id with
      | none =>
        rw [Option.map_none, Option.map_none, ite_self]
        rfl
      | some p =>
        have hout := h.parent_outside hwf hleaves hi hcase hend hp hid
        have hkept : id ∉ t.requestsIn i stop := by
          intro hin
          obtain ⟨j, r, hij, hj, hr, hrid⟩ := mem_requestsIn.mp hin
          have := hwf.parent_eq hp hr hrid
          omega
        have hplt := (hwf.slot id p hp).lt
        have hslot : p.insertion ≤ i ∨ stop ≤ p.insertion := by
          rcases hout with hout | hout
          · exact (hwf.slot id p hp).outside hend hout
          · exact .inr (by omega)
        rw [if_neg hkept]
        exact congrArg some (seen_afterRemoval hplt hlt hout hslot hbefore hafter)
    · rw [if_neg hid, if_neg hid]
  · rcases hhidden r hr with hr | rfl
    · exact h.hidden r hr id hid
    · cases hid
  · rw [hrem.rootPath, h.rootPath]
  · rw [hrem.status, h.status]

/-! ### Nothing was opened later -/

theorem Without.self (hwf : t.Wf 1) (hno : ∀ row ∈ t.rows, row.isLater n = false) :
    Without n t t := by
  obtain ⟨hshown, -, hhidden⟩ := Folds.all_shown (f := laterFolds n) hno
  refine ⟨hshown.symm, fun id => ?_, by rw [hhidden]; simp, rfl, rfl⟩
  cases hp : t.placements.lookup id with
  | none => rw [Option.map_none, ite_self]
  | some p =>
    obtain ⟨parent, hparent, hl⟩ := hwf.loading id p hp
    have hid : id ≤ n := by
      by_contra hlt
      have hlater := isLater_iff.mpr ⟨id, by rw [hl]; rfl, Nat.not_le.mp hlt⟩
      rw [hno parent (List.mem_of_getElem? hparent)] at hlater
      cases hlater
    have hle := (hwf.slot id p hp).le
    have hlt := (hwf.slot id p hp).lt
    rw [length_depths] at hle
    rw [if_pos hid, Option.map_some, Placement.seen, Folds.place_self hno (by omega),
      Folds.place_self hno hle]

/-- Then both trees are the same. -/
theorem Without.eq (h : Without n t u) (hwf : t.Wf 1)
    (hno : ∀ row ∈ t.rows, row.isLater n = false) :
    u.rows = t.rows ∧ ∀ id, u.placements.lookup id = t.placements.lookup id := by
  have hself := Without.self hwf hno
  exact ⟨h.rows.trans hself.rows.symm, fun id => (h.lookup id).trans (hself.lookup id).symm⟩

end Tree

end FilePeeker.Browser
