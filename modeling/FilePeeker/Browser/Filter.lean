import FilePeeker.Browser.Refines
import FilePeeker.Browser.Window
import FilePeeker.Lib.Ancestors

/-!
# What a filter leaves on screen

The loop of `window` goes through the rows once, with a chain of the rows that the next one
may be beneath.  `Inv` says what it has made of the rows so far: the rows on screen, in
order, and a chain that is the rows whose subtrees have not ended, each marked if it is on
screen.  The rows above the next row are the chain cut at its depth, and those of them
that are not on screen yet come after everything that is.

So a window is the hits, the scope's own row, and the rows above these, each once
(`window_exact`); and as its rows are in order, a row's place in it is found by counting the
rows before it.
-/

namespace FilePeeker.Browser

open PreOrder

/-! ### Positions -/

section Positions

variable {rows : List VisibleRow} {r p q : Nat} {u v : VisibleRow}

/-- The position of the first row with the property that is at or after row `r`, or else of
the last one, or none where no row has it. -/
inductive Nearest (P : VisibleRow → Prop) (rows : List VisibleRow) (r : Nat) :
    Option Nat → Prop
  | found {p : Nat} {v : VisibleRow} (hget : rows[p]? = some v) (hv : P v) (hfrom : r ≤ v.row)
      (hfirst : ∀ (q : Nat) (u : VisibleRow), rows[q]? = some u → P u → r ≤ u.row → p ≤ q) :
      Nearest P rows r (some p)
  | last {p : Nat} {v : VisibleRow} (hget : rows[p]? = some v) (hv : P v)
      (hbefore : ∀ u ∈ rows, P u → u.row < r)
      (hlast : ∀ (q : Nat) (u : VisibleRow), rows[q]? = some u → P u → q ≤ p) :
      Nearest P rows r (some p)
  | none (h : ∀ u ∈ rows, ¬ P u) : Nearest P rows r none

theorem Nearest.congr {P Q : VisibleRow → Prop} {position : Option Nat}
    (h : Nearest P rows r position) (heq : ∀ v ∈ rows, P v ↔ Q v) : Nearest Q rows r position := by
  cases h with
  | found hget hv hfrom hfirst =>
    refine .found hget ((heq _ (List.mem_of_getElem? hget)).mp hv) hfrom fun q u hu hQ hru => ?_
    exact hfirst q u hu ((heq u (List.mem_of_getElem? hu)).mpr hQ) hru
  | last hget hv hbefore hlast =>
    refine .last hget ((heq _ (List.mem_of_getElem? hget)).mp hv)
      (fun u hu hQ => hbefore u hu ((heq u hu).mpr hQ)) fun q u hu hQ => ?_
    exact hlast q u hu ((heq u (List.mem_of_getElem? hu)).mpr hQ)
  | none h => exact .none fun u hu hQ => h u hu ((heq u hu).mpr hQ)

/-- In order, the rows before `startOf` are the rows before. -/
theorem lt_startOf_iff (hsorted : rows.Pairwise fun u v => u.row < v.row)
    (hget : rows[q]? = some v) : q < startOf rows r ↔ v.row < r := by
  induction rows generalizing q with
  | nil => simp at hget
  | cons u rows ih =>
    obtain ⟨hu, hrest⟩ := List.pairwise_cons.mp hsorted
    by_cases hur : u.row < r
    · rw [startOf, List.takeWhile_cons_of_pos (by simpa using hur), List.length_cons, ← startOf]
      cases q with
      | zero =>
        cases hget
        exact iff_of_true (Nat.succ_pos _) hur
      | succ q =>
        rw [List.getElem?_cons_succ] at hget
        rw [Nat.succ_lt_succ_iff, ih hrest hget]
    · rw [startOf, List.takeWhile_cons_of_neg (by simpa using hur), List.length_nil]
      refine iff_of_false (Nat.not_lt_zero q) ?_
      cases q with
      | zero =>
        cases hget
        exact hur
      | succ q =>
        rw [List.getElem?_cons_succ] at hget
        have := hu v (List.mem_of_getElem? hget)
        omega

theorem nearest_positionOf (hsorted : rows.Pairwise fun u v => u.row < v.row) (hits r : Nat) :
    Nearest (fun _ => True) rows r ((VisibleRows.filtered rows hits).positionOf r) := by
  rw [VisibleRows.positionOf]
  split_ifs with hlen
  · obtain rfl := List.length_eq_zero_iff.mp hlen
    exact .none fun u hu => absurd hu List.not_mem_nil
  · dsimp only [VisibleRows.len] at hlen ⊢
    rcases Nat.lt_or_ge (startOf rows r) rows.length with hlt | hge
    · rw [Nat.min_eq_left (by omega)]
      have hget := List.getElem?_eq_getElem hlt
      refine .found hget trivial ?_ fun q u hu _ hru => ?_
      · have := (lt_startOf_iff hsorted hget (r := r)).not.mp (Nat.lt_irrefl _)
        omega
      · by_contra hq
        have := (lt_startOf_iff hsorted hu).mp (Nat.lt_of_not_le hq)
        omega
    · rw [Nat.min_eq_right (by omega)]
      have hlast : rows.length - 1 < rows.length := by omega
      refine .last (List.getElem?_eq_getElem hlast) trivial (fun u hu _ => ?_) fun q u hu _ => ?_
      · obtain ⟨q, hq⟩ := List.getElem?_of_mem hu
        obtain ⟨hqlt, -⟩ := List.getElem?_eq_some_iff.mp hq
        exact (lt_startOf_iff hsorted hq).mp (by omega)
      · obtain ⟨hqlt, -⟩ := List.getElem?_eq_some_iff.mp hu
        omega

/-- The first match from a position on. -/
theorem firstMatch_spec {P : VisibleRow → Bool} {start offset : Nat}
    (h : (rows.drop start).findIdx? P = some offset) :
    ∃ v, rows[start + offset]? = some v ∧ P v ∧
      ∀ q u, rows[q]? = some u → P u → start ≤ q → start + offset ≤ q := by
  obtain ⟨hlt, hP, hbefore⟩ := List.findIdx?_eq_some_iff_getElem.mp h
  rw [List.length_drop] at hlt
  rw [List.getElem_drop] at hP
  have hlt' : start + offset < rows.length := by omega
  refine ⟨_, List.getElem?_eq_getElem hlt', hP, fun q u hu hPu hstart => ?_⟩
  by_contra hq
  obtain ⟨hqlt, hqget⟩ := List.getElem?_eq_some_iff.mp hu
  refine hbefore (q - start) (by omega) ?_
  rw [List.getElem_drop]
  simp only [Nat.add_sub_cancel' hstart, hqget, hPu]

/-- The last match, which is looked for from the end. -/
theorem lastMatch_spec {P : VisibleRow → Bool} {offset : Nat}
    (h : rows.reverse.findIdx? P = some offset) :
    ∃ v, rows[rows.length - 1 - offset]? = some v ∧ P v ∧
      ∀ q u, rows[q]? = some u → P u → q ≤ rows.length - 1 - offset := by
  obtain ⟨hlt, hP, hafter⟩ := List.findIdx?_eq_some_iff_getElem.mp h
  rw [List.length_reverse] at hlt
  rw [List.getElem_reverse] at hP
  refine ⟨_, List.getElem?_eq_getElem (by omega), hP, fun q u hu hPu => ?_⟩
  by_contra hq
  obtain ⟨hqlt, hqget⟩ := List.getElem?_eq_some_iff.mp hu
  refine hafter (rows.length - 1 - q) (by omega) ?_
  rw [List.getElem_reverse]
  have hback : rows.length - 1 - (rows.length - 1 - q) = q := by omega
  simp only [hback, hqget, hPu]

theorem nearest_matchPositionOf (hsorted : rows.Pairwise fun u v => u.row < v.row)
    (hits r : Nat) : Nearest (fun v => v.matched) rows r
      ((VisibleRows.filtered rows hits).matchPositionOf r) := by
  rw [VisibleRows.matchPositionOf]
  -- A row is at or after `r` exactly if its position is at or after `startOf`.
  have hfrom {q : Nat} {u : VisibleRow} (hu : rows[q]? = some u) :
      startOf rows r ≤ q ↔ r ≤ u.row := by
    rw [← Nat.not_lt, ← Nat.not_lt, lt_startOf_iff hsorted hu]
  cases hfind : (rows.drop (startOf rows r)).findIdx? VisibleRow.matched with
  | some offset =>
    obtain ⟨v, hget, hmatched, hfirst⟩ := firstMatch_spec hfind
    refine .found hget hmatched ((hfrom hget).mp (Nat.le_add_right _ _)) ?_
    intro q u hu humatched hru
    exact hfirst q u hu humatched ((hfrom hu).mpr hru)
  | none =>
    have hnone := List.findIdx?_eq_none_iff.mp hfind
    have hbefore : ∀ u ∈ rows, u.matched → u.row < r := by
      intro u hu humatched
      obtain ⟨q, hq⟩ := List.getElem?_of_mem hu
      by_contra hrow
      have hstart := (hfrom hq).mpr (Nat.le_of_not_lt hrow)
      have hdrop : u ∈ rows.drop (startOf rows r) := by
        refine List.mem_of_getElem? (i := q - startOf rows r) ?_
        rw [List.getElem?_drop, Nat.add_sub_cancel' hstart, hq]
      rw [hnone u hdrop] at humatched
      cases humatched
    cases hlast : rows.reverse.findIdx? VisibleRow.matched with
    | none =>
      refine .none fun u hu humatched => ?_
      rw [List.findIdx?_eq_none_iff.mp hlast u (List.mem_reverse.mpr hu)] at humatched
      cases humatched
    | some offset =>
      obtain ⟨v, hget, hmatched, hafter⟩ := lastMatch_spec hlast
      show Nearest _ rows r (some (rows.length - 1 - offset))
      exact .last hget hmatched hbefore hafter

theorem matched_iff (hsorted : rows.Pairwise fun u v => u.row < v.row) (hits r : Nat) :
    (VisibleRows.filtered rows hits).matched r ↔ ∃ v ∈ rows, v.row = r ∧ v.matched := by
  rw [VisibleRows.matched]
  constructor
  · intro h
    split at h
    · cases h
    · next v hget =>
      rw [Bool.and_eq_true, decide_eq_true_eq] at h
      exact ⟨v, List.mem_of_getElem? hget, h⟩
  · rintro ⟨v, hv, rfl, hmatched⟩
    obtain ⟨q, hq⟩ := List.getElem?_of_mem hv
    obtain ⟨hqlt, hqget⟩ := List.getElem?_eq_some_iff.mp hq
    have hstart : startOf rows v.row = q := by
      have hnot := (lt_startOf_iff hsorted hq (r := v.row)).not.mpr (Nat.lt_irrefl _)
      by_contra hne
      have hlt : startOf rows v.row < q := by omega
      have hget := List.getElem?_eq_getElem (hlt.trans hqlt)
      have hbefore := (lt_startOf_iff hsorted hget (r := v.row)).not.mp (Nat.lt_irrefl _)
      have horder := List.pairwise_iff_getElem.mp hsorted _ _ (hlt.trans hqlt) hqlt hlt
      rw [hqget] at horder
      omega
    rw [hstart, hq]
    simp [hmatched]

end Positions

section Loop

variable {μ : Type} [Lowercase]

namespace Tree

/-! ### Hits -/

/-- The row is inside the scope, is not the scope itself, and its name matches. -/
def isHit (needle : Option Text) (scope : Option PathString) (row : Row μ) : Bool :=
  !decide (scope = some row.path) && inScope row.path scope &&
    match needle with
    | none => true
    | some needle => matchesNeedle row.entry.name.display needle

/-- The row is kept on screen by itself: a hit, or the scope. -/
def isKept (needle : Option Text) (scope : Option PathString) (row : Row μ) : Bool :=
  isHit needle scope row || decide (scope = some row.path)

variable (t : Tree μ) (needle : Option Text) (scope : Option PathString)

def hitAt (i : Nat) : Bool := t.rows[i]?.any (isHit needle scope)

def keptAt (i : Nat) : Bool := t.rows[i]?.any (isKept needle scope)

/-- On screen by the first `k` rows: kept by itself, or above one of them that is. -/
def Shown (k i : Nat) : Prop :=
  t.keptAt needle scope i ∨ ∃ j, j < k ∧ t.keptAt needle scope j ∧ IsAncestor t.depths i j

/-- What `window` has after the first `k` rows. -/
def windowTo (k : Nat) : Window :=
  (t.rows.take k).zipIdx.foldl (fun w row => w.next needle scope row.2 row.1) ⟨[], 0, []⟩

/-- The rows so far are on screen where they are to be, and the chain is of those whose
subtrees go on. -/
structure Inv (k : Nat) (w : Window) : Prop where
  sorted : w.rows.Pairwise fun u v => u.row < v.row
  mem : ∀ v, v ∈ w.rows ↔
    v.row < k ∧ t.Shown needle scope k v.row ∧ v.matched = t.hitAt needle scope v.row
  hits : w.hits = (t.rows.take k).countP (isHit needle scope)
  depth : ∀ (d i : Nat) (e : Bool), w.ancestors[d]? = some (i, e) → t.depths[i]? = some d
  chain : ∀ (i : Nat) (e : Bool), (i, e) ∈ w.ancestors ↔ i < k ∧
    (∀ m x y, i < m → m < k → t.depths[i]? = some x → t.depths[m]? = some y → x < y) ∧
    (e = true ↔ t.Shown needle scope k i)

variable {t needle scope} {k i j : Nat} {row : Row μ} {w : Window} {e : Bool}

theorem keptAt_of_hitAt (h : t.hitAt needle scope i) : t.keptAt needle scope i := by
  rw [hitAt, Option.any_eq_true] at h
  obtain ⟨row, hrow, hhit⟩ := h
  rw [keptAt, hrow, Option.any_some, isKept, hhit, Bool.true_or]

theorem inv_zero : t.Inv needle scope 0 ⟨[], 0, []⟩ where
  sorted := .nil
  mem v := by simp
  hits := by simp
  depth d i e h := by simp at h
  chain i e := by simp

theorem windowTo_succ (hrow : t.rows[k]? = some row) : t.windowTo needle scope (k + 1) =
    (t.windowTo needle scope k).next needle scope k row := by
  obtain ⟨hlt, -⟩ := List.getElem?_eq_some_iff.mp hrow
  rw [windowTo, List.take_add_one, hrow, Option.toList_some, List.zipIdx_append, List.foldl_append,
    List.length_take, Nat.min_eq_left hlt.le, ← windowTo]
  simp

/-! ### The rows above the next one -/

/-- The chain cut at the depth of the next row is what is above that. -/
theorem Inv.mem_take (h : t.Inv needle scope k w) (hrow : t.rows[k]? = some row) :
    (i, e) ∈ w.ancestors.take row.depth ↔
      IsAncestor t.depths i k ∧ (e = true ↔ t.Shown needle scope k i) := by
  have hk := depths_of_row hrow
  constructor
  · intro hmem
    obtain ⟨d, hd, hget⟩ := List.mem_take_iff_getElem.mp hmem
    have hget' : w.ancestors[d]? = some (i, e) :=
      List.getElem?_eq_some_iff.mpr ⟨by omega, hget⟩
    have hdepth := h.depth d i e hget'
    obtain ⟨hik, hinside, he⟩ := (h.chain i e).mp (List.mem_of_mem_take hmem)
    refine ⟨⟨hik, fun m x y him hmk hx hy => ?_⟩, he⟩
    rcases Nat.lt_or_eq_of_le hmk with hlt | rfl
    · exact hinside m x y him hlt hx hy
    · rw [hdepth] at hx
      rw [hk] at hy
      cases hx
      cases hy
      omega
  · rintro ⟨habove, he⟩
    have hmem := (h.chain i e).mpr
      ⟨habove.lt, fun m x y him hmk => habove.inside m x y him hmk.le, he⟩
    obtain ⟨d, hget⟩ := List.getElem?_of_mem hmem
    have hdeep := habove.depth_lt (h.depth d i e hget) hk
    obtain ⟨hlt, hget'⟩ := List.getElem?_eq_some_iff.mp hget
    exact List.mem_take_iff_getElem.mpr ⟨d, by omega, hget'⟩

/-- The chain goes down as far as the next row's parent. -/
theorem Inv.length_take (h : t.Inv needle scope k w) (hout : Outline t.depths)
    (hrow : t.rows[k]? = some row) : (w.ancestors.take row.depth).length = row.depth := by
  have hk := depths_of_row hrow
  rw [List.length_take, Nat.min_eq_left]
  rcases Nat.eq_zero_or_pos row.depth with hzero | hpos
  · omega
  · obtain ⟨d, hd⟩ : ∃ d, row.depth = d + 1 := ⟨row.depth - 1, by omega⟩
    rw [hd] at hk ⊢
    obtain ⟨p, hp⟩ := hout.exists_parent hk
    obtain ⟨x, hpx, hkx⟩ := hp.depth
    obtain rfl : x = d := by
      have := Option.some.inj (hkx.symm.trans hk)
      omega
    classical
    have hmem := (h.chain p (decide (t.Shown needle scope k p))).mpr
      ⟨hp.lt, fun m x y hpm hmk => hp.between m x y hpm hmk, decide_eq_true_iff⟩
    obtain ⟨d', hget⟩ := List.getElem?_of_mem hmem
    obtain rfl : d' = x := Option.some.inj ((h.depth d' _ _ hget).symm.trans hpx)
    obtain ⟨hlt, -⟩ := List.getElem?_eq_some_iff.mp hget
    omega

/-- The chain is in the order of the rows. -/
theorem Inv.sorted_ancestors (h : t.Inv needle scope k w) :
    w.ancestors.Pairwise fun p q => p.1 < q.1 := by
  rw [List.pairwise_iff_getElem]
  intro a b ha hb hab
  have hi := h.depth a w.ancestors[a].1 w.ancestors[a].2 (List.getElem?_eq_getElem ha)
  have hj := h.depth b w.ancestors[b].1 w.ancestors[b].2 (List.getElem?_eq_getElem hb)
  have hchain := (h.chain w.ancestors[b].1 w.ancestors[b].2).mp (List.getElem_mem hb)
  have hbefore := (h.chain w.ancestors[a].1 w.ancestors[a].2).mp (List.getElem_mem ha)
  by_contra hle
  rcases Nat.lt_or_eq_of_le (Nat.le_of_not_lt hle) with hlt | heq
  · have := hchain.2.1 _ b a hlt hbefore.1 hj hi
    omega
  · rw [heq, hi] at hj
    have := Option.some.inj hj
    omega

/-! ### One row more -/

theorem hitAt_of_row (hrow : t.rows[k]? = some row) :
    t.hitAt needle scope k = isHit needle scope row := by rw [hitAt, hrow, Option.any_some]

theorem keptAt_of_row (hrow : t.rows[k]? = some row) :
    t.keptAt needle scope k = isKept needle scope row := by rw [keptAt, hrow, Option.any_some]

theorem shown_succ : t.Shown needle scope (k + 1) i ↔
    t.Shown needle scope k i ∨ t.keptAt needle scope k ∧ IsAncestor t.depths i k := by
  unfold Shown
  constructor
  · rintro (hkept | ⟨j, hj, hkept, habove⟩)
    · exact .inl (.inl hkept)
    · rcases Nat.lt_or_eq_of_le (Nat.le_of_lt_succ hj) with hlt | rfl
      · exact .inl (.inr ⟨j, hlt, hkept, habove⟩)
      · exact .inr ⟨hkept, habove⟩
  · rintro ((hkept | ⟨j, hj, hkept, habove⟩) | ⟨hkept, habove⟩)
    · exact .inl hkept
    · exact .inr ⟨j, by omega, hkept, habove⟩
    · exact .inr ⟨k, by omega, hkept, habove⟩

/-- Of the row itself there is nothing beneath it yet. -/
theorem shown_self : t.Shown needle scope (k + 1) k ↔ t.keptAt needle scope k := by
  unfold Shown
  constructor
  · rintro (hkept | ⟨j, hj, -, habove⟩)
    · exact hkept
    · have := habove.lt
      omega
  · exact .inl

theorem next_kept (hkept : isKept needle scope row) : w.next needle scope k row =
    { rows := w.rows ++ ((w.ancestors.take row.depth).filter fun ancestor => !ancestor.2).map
        (fun ancestor => { row := ancestor.1, matched := false }) ++
          [{ row := k, matched := isHit needle scope row }]
      hits := w.hits + if isHit needle scope row then 1 else 0
      ancestors := (w.ancestors.take row.depth).map (fun ancestor => (ancestor.1, true)) ++
        [(k, true)] } := if_pos hkept

theorem next_other (hkept : ¬ isKept needle scope row) : w.next needle scope k row =
    { w with ancestors := w.ancestors.take row.depth ++ [(k, false)] } := if_neg hkept

theorem countP_take_succ (hrow : t.rows[k]? = some row) :
    (t.rows.take (k + 1)).countP (isHit needle scope) =
      (t.rows.take k).countP (isHit needle scope) + if isHit needle scope row then 1 else 0 := by
  rw [List.take_add_one, hrow, Option.toList_some, List.countP_append, List.countP_singleton]

/-- A row above the next one that is not on screen comes after all that is: what is on
screen after it would be in its subtree. -/
theorem Inv.row_lt (h : t.Inv needle scope k w) {v : VisibleRow} (hv : v ∈ w.rows)
    (habove : IsAncestor t.depths i k) (hnew : ¬ t.Shown needle scope k i) : v.row < i := by
  obtain ⟨hvk, hshown, -⟩ := (h.mem v).mp hv
  by_contra hle
  rcases Nat.lt_or_eq_of_le (Nat.le_of_not_lt hle) with hlt | heq
  · have hbeneath : IsAncestor t.depths i v.row := habove.between hlt hvk.le
    refine hnew (.inr ?_)
    rcases hshown with hkept | ⟨j, hj, hkept, hdeep⟩
    · exact ⟨v.row, hvk, hkept, hbeneath⟩
    · exact ⟨j, hj, hkept, habove.between (hlt.trans hdeep.lt) hj.le⟩
  · exact hnew (heq ▸ hshown)

/-- The chain and the next row. -/
theorem Inv.chain_step (h : t.Inv needle scope k w) (hout : Outline t.depths)
    (hrow : t.rows[k]? = some row) (anc : List (Nat × Bool)) (last : Bool)
    (hanc : ∀ i e, (i, e) ∈ anc ↔
      IsAncestor t.depths i k ∧ (e = true ↔ t.Shown needle scope (k + 1) i))
    (hfst : anc.map Prod.fst = (w.ancestors.take row.depth).map Prod.fst)
    (hlast : last = true ↔ t.Shown needle scope (k + 1) k) :
    (∀ (d i : Nat) (e : Bool), (anc ++ [(k, last)])[d]? = some (i, e) →
      t.depths[i]? = some d) ∧
    ∀ (i : Nat) (e : Bool), (i, e) ∈ anc ++ [(k, last)] ↔ i < k + 1 ∧
      (∀ m x y, i < m → m < k + 1 → t.depths[i]? = some x → t.depths[m]? = some y → x < y) ∧
      (e = true ↔ t.Shown needle scope (k + 1) i) := by
  have hlen : anc.length = row.depth := by
    have := congrArg List.length hfst
    rwa [List.length_map, List.length_map, h.length_take hout hrow] at this
  constructor
  · intro d i e hget
    rcases Nat.lt_or_ge d anc.length with hlt | hge
    · rw [List.getElem?_append_left hlt] at hget
      have hfirst : (anc.map Prod.fst)[d]? = some i := by rw [List.getElem?_map, hget]; rfl
      rw [hfst, List.getElem?_map, Option.map_eq_some_iff] at hfirst
      obtain ⟨⟨i', e'⟩, hget', rfl⟩ := hfirst
      rw [List.getElem?_take_of_lt (by omega)] at hget'
      exact h.depth d i' e' hget'
    · rw [List.getElem?_append_right hge] at hget
      obtain ⟨hd, hval⟩ := List.getElem?_eq_some_iff.mp hget
      rw [List.length_singleton] at hd
      have hdepth : d = row.depth := by omega
      simp only [hdepth, hlen, Nat.sub_self, List.getElem_cons_zero, Prod.mk.injEq] at hval
      rw [← hval.1, hdepth]
      exact depths_of_row hrow
  · intro i e
    rw [List.mem_append, List.mem_singleton, hanc, Prod.mk.injEq]
    constructor
    · rintro (⟨habove, he⟩ | ⟨rfl, rfl⟩)
      · refine ⟨Nat.lt_succ_of_lt habove.lt, fun m x y him hmk => ?_, he⟩
        exact habove.inside m x y him (Nat.le_of_lt_succ hmk)
      · exact ⟨Nat.lt_succ_self _, fun m x y him hmk => by omega, hlast⟩
    · rintro ⟨hik, hinside, he⟩
      rcases Nat.lt_or_eq_of_le (Nat.le_of_lt_succ hik) with hlt | rfl
      · refine .inl ⟨⟨hlt, fun m x y him hmk => ?_⟩, he⟩
        exact hinside m x y him (Nat.lt_succ_of_le hmk)
      · refine .inr ⟨rfl, ?_⟩
        rw [Bool.eq_iff_iff, he, hlast]

/-- What is above the next row, of what is on screen already or not. -/
theorem Inv.exists_mem_take (h : t.Inv needle scope k w) (hrow : t.rows[k]? = some row)
    (habove : IsAncestor t.depths i k) : ∃ e, (i, e) ∈ w.ancestors.take row.depth ∧
      (e = true ↔ t.Shown needle scope k i) := by
  classical
  exact ⟨decide (t.Shown needle scope k i), (h.mem_take hrow).mpr ⟨habove, decide_eq_true_iff⟩,
    decide_eq_true_iff⟩

/-- The rows that the next one brings onto the screen with it. -/
theorem Inv.mem_above (h : t.Inv needle scope k w) (hrow : t.rows[k]? = some row)
    {v : VisibleRow} :
    v ∈ ((w.ancestors.take row.depth).filter fun ancestor => !ancestor.2).map
        (fun ancestor => ({ row := ancestor.1, matched := false } : VisibleRow)) ↔
      IsAncestor t.depths v.row k ∧ ¬ t.Shown needle scope k v.row ∧ v.matched = false := by
  simp only [List.mem_map, List.mem_filter, Bool.not_eq_true', Prod.exists]
  constructor
  · rintro ⟨i, e, ⟨hmem, rfl⟩, rfl⟩
    obtain ⟨habove, he⟩ := (h.mem_take hrow).mp hmem
    exact ⟨habove, fun hshown => Bool.noConfusion (he.mpr hshown), rfl⟩
  · rintro ⟨habove, hnew, hmatched⟩
    obtain ⟨e, hmem, he⟩ := h.exists_mem_take hrow habove
    refine ⟨v.row, e, ⟨hmem, Bool.eq_false_iff.mpr fun htrue => hnew (he.mp htrue)⟩, ?_⟩
    rw [← hmatched]

theorem Inv.sorted_above (h : t.Inv needle scope k w) (row : Row μ) :
    (((w.ancestors.take row.depth).filter fun ancestor => !ancestor.2).map
      (fun ancestor => ({ row := ancestor.1, matched := false } : VisibleRow))).Pairwise
        fun u v => u.row < v.row :=
  List.pairwise_map.mpr ((h.sorted_ancestors.take).filter _)

/-- Above a row that is kept every row is on screen. -/
theorem Inv.mem_marked (h : t.Inv needle scope k w) (hrow : t.rows[k]? = some row)
    (hkeptAt : t.keptAt needle scope k) (i : Nat) (e : Bool) :
    (i, e) ∈ (w.ancestors.take row.depth).map (fun ancestor => (ancestor.1, true)) ↔
      IsAncestor t.depths i k ∧ (e = true ↔ t.Shown needle scope (k + 1) i) := by
  have hshown (habove : IsAncestor t.depths i k) : t.Shown needle scope (k + 1) i :=
    shown_succ.mpr (.inr ⟨hkeptAt, habove⟩)
  constructor
  · intro hmem
    obtain ⟨⟨i', e'⟩, hchain, heq⟩ := List.mem_map.mp hmem
    cases heq
    have habove := ((h.mem_take hrow).mp hchain).1
    exact ⟨habove, iff_of_true rfl (hshown habove)⟩
  · rintro ⟨habove, he⟩
    obtain ⟨e', hmem, -⟩ := h.exists_mem_take hrow habove
    exact List.mem_map.mpr ⟨_, hmem, by rw [he.mpr (hshown habove)]⟩

/-- The rows on screen once a row that is kept is: those before, those above it, and it. -/
theorem mem_kept_iff (hrow : t.rows[k]? = some row)
    (hkeptAt : t.keptAt needle scope k) (v : VisibleRow) :
    ((v.row < k ∧ t.Shown needle scope k v.row ∧ v.matched = t.hitAt needle scope v.row) ∨
      (IsAncestor t.depths v.row k ∧ ¬ t.Shown needle scope k v.row ∧ v.matched = false)) ∨
      v = { row := k, matched := isHit needle scope row } ↔
    v.row < k + 1 ∧ t.Shown needle scope (k + 1) v.row ∧
      v.matched = t.hitAt needle scope v.row := by
  rw [shown_succ]
  constructor
  · rintro ((⟨hlt, hold, hmatched⟩ | ⟨habove, hnew, hmatched⟩) | rfl)
    · exact ⟨by omega, .inl hold, hmatched⟩
    · refine ⟨Nat.lt_succ_of_lt habove.lt, .inr ⟨hkeptAt, habove⟩, ?_⟩
      rw [hmatched, eq_comm, Bool.eq_false_iff]
      exact fun hhit => hnew (.inl (keptAt_of_hitAt hhit))
    · exact ⟨Nat.lt_succ_self k, .inl (.inl hkeptAt), (hitAt_of_row hrow).symm⟩
  · rintro ⟨hlt, hnow, hmatched⟩
    rcases Nat.lt_or_eq_of_le (Nat.le_of_lt_succ hlt) with hlt | heq
    · by_cases hold : t.Shown needle scope k v.row
      · exact .inl (.inl ⟨hlt, hold, hmatched⟩)
      · obtain ⟨-, habove⟩ := hnow.resolve_left hold
        refine .inl (.inr ⟨habove, hold, ?_⟩)
        rw [hmatched, Bool.eq_false_iff]
        exact fun hhit => hold (.inl (keptAt_of_hitAt hhit))
    · refine .inr ?_
      rw [heq, hitAt_of_row hrow] at hmatched
      cases v
      exact congrArg₂ VisibleRow.mk heq hmatched

theorem inv_step_kept (h : t.Inv needle scope k w) (hout : Outline t.depths)
    (hrow : t.rows[k]? = some row) (hkept : isKept needle scope row) :
    t.Inv needle scope (k + 1) (w.next needle scope k row) := by
  have hkeptAt : t.keptAt needle scope k := by rwa [keptAt_of_row hrow]
  obtain ⟨hdepth, hchain⟩ := h.chain_step hout hrow
    ((w.ancestors.take row.depth).map fun ancestor => (ancestor.1, true)) true
    (h.mem_marked hrow hkeptAt) (by rw [List.map_map]; rfl)
    (iff_of_true rfl (shown_self.mpr hkeptAt))
  rw [next_kept hkept]
  refine ⟨?_, fun v => ?_, ?_, hdepth, hchain⟩
  · refine List.pairwise_append.mpr ⟨List.pairwise_append.mpr ⟨h.sorted, h.sorted_above row,
      fun u hu v hv => ?_⟩, List.pairwise_singleton .., fun u hu v hv => ?_⟩
    · obtain ⟨habove, hnew, -⟩ := (h.mem_above hrow).mp hv
      exact h.row_lt hu habove hnew
    · rw [List.mem_singleton.mp hv]
      rcases List.mem_append.mp hu with hu | hu
      · exact ((h.mem u).mp hu).1
      · exact ((h.mem_above hrow).mp hu).1.lt
  · rw [List.mem_append, List.mem_append, List.mem_singleton, h.mem, h.mem_above hrow]
    exact mem_kept_iff hrow hkeptAt v
  · show w.hits + _ = _
    rw [h.hits, countP_take_succ hrow]

theorem inv_step_other (h : t.Inv needle scope k w) (hout : Outline t.depths)
    (hrow : t.rows[k]? = some row) (hkept : ¬ isKept needle scope row) :
    t.Inv needle scope (k + 1) (w.next needle scope k row) := by
  have hkeptAt : ¬ t.keptAt needle scope k := by rwa [keptAt_of_row hrow]
  have hsame : ∀ i, t.Shown needle scope (k + 1) i ↔ t.Shown needle scope k i := fun i => by
    rw [shown_succ, or_iff_left fun hnew => hkeptAt hnew.1]
  have hself : ¬ t.Shown needle scope (k + 1) k := fun hshown => hkeptAt (shown_self.mp hshown)
  obtain ⟨hdepth, hchain⟩ := h.chain_step hout hrow (w.ancestors.take row.depth) false
    (fun i e => by rw [h.mem_take hrow, hsame]) rfl (iff_of_false Bool.false_ne_true hself)
  rw [next_other hkept]
  refine ⟨h.sorted, fun v => ?_, ?_, hdepth, hchain⟩
  · rw [h.mem, hsame]
    refine ⟨fun hv => ⟨by omega, hv.2⟩, fun hv => ⟨?_, hv.2⟩⟩
    rcases Nat.lt_or_eq_of_le (Nat.le_of_lt_succ hv.1) with hlt | heq
    · exact hlt
    · exact absurd ((hsame k).mpr (heq ▸ hv.2.1)) hself
  · have hhit : isHit needle scope row = false := by
      rw [Bool.eq_false_iff]
      exact fun hhit => hkept (by rw [isKept, hhit, Bool.true_or])
    rw [countP_take_succ hrow, hhit]
    exact h.hits

/-- **What the loop makes of the rows.** -/
theorem inv_windowTo (hout : Outline t.depths) (hk : k ≤ t.rows.length) :
    t.Inv needle scope k (t.windowTo needle scope k) := by
  induction k with
  | zero => exact inv_zero
  | succ k ih =>
    have hrow := List.getElem?_eq_getElem hk
    rw [windowTo_succ hrow]
    by_cases hkept : isKept needle scope t.rows[k]
    · exact inv_step_kept (ih (Nat.le_of_succ_le hk)) hout hrow hkept
    · exact inv_step_other (ih (Nat.le_of_succ_le hk)) hout hrow hkept

/-! ### The window -/

/-- What a query is matched as. -/
def needleOf (query : Text) : Option Text :=
  if query = [] then none else some (Lowercase.toLowercase query)

/-- The row that the scope is. -/
def scopeAt (t : Tree μ) (scope : Option PathString) (i : Nat) : Bool :=
  t.rows[i]?.any fun row => scope = some row.path

theorem keptAt_iff : t.keptAt needle scope i ↔ t.hitAt needle scope i ∨ t.scopeAt scope i := by
  rw [keptAt, hitAt, scopeAt]
  cases t.rows[i]? with
  | none => simp
  | some row => simp only [Option.any_some, isKept, Bool.or_eq_true]

theorem window_eq (t : Tree μ) {query : Text} {scope : Option PathString}
    (hfilter : query ≠ [] ∨ scope ≠ none) : t.window query scope =
      .filtered (t.windowTo (needleOf query) scope t.rows.length).rows
        (t.windowTo (needleOf query) scope t.rows.length).hits := by
  have hsome : ((needleOf query).isNone && scope.isNone) = false := by
    rw [Bool.and_eq_false_iff]
    rcases hfilter with hquery | hscope
    · exact .inl (by rw [needleOf, if_neg hquery]; rfl)
    · exact .inr (Option.isNone_eq_false_iff.mpr (Option.isSome_iff_ne_none.mpr hscope))
  rw [windowTo, List.take_length]
  exact if_neg (by rw [needleOf] at hsome; rw [hsome]; exact Bool.false_ne_true)

/-- On screen is what is kept by itself, and the parents of it up to the top. -/
theorem shown_iff (hout : Outline t.depths) :
    i < t.rows.length ∧ t.Shown needle scope t.rows.length i ↔
      ∃ j, (t.hitAt needle scope j ∨ t.scopeAt scope j) ∧
        (i = j ∨ Relation.TransGen (IsParent t.depths) i j) := by
  have hlt : ∀ {j}, t.keptAt needle scope j → j < t.rows.length := by
    intro j hj
    by_contra hge
    rw [keptAt, List.getElem?_eq_none (Nat.le_of_not_lt hge)] at hj
    cases hj
  simp only [← keptAt_iff]
  constructor
  · rintro ⟨-, hkept | ⟨j, hj, hkept, habove⟩⟩
    · exact ⟨i, hkept, .inl rfl⟩
    · rw [← t.length_depths] at hj
      exact ⟨j, hkept, .inr ((isAncestor_iff_parents hout hj).mp habove)⟩
  · rintro ⟨j, hkept, rfl | hparents⟩
    · exact ⟨hlt hkept, .inl hkept⟩
    · have hj := hlt hkept
      have habove := (isAncestor_iff_parents hout (by rwa [t.length_depths])).mpr hparents
      exact ⟨habove.lt.trans hj, .inr ⟨j, hj, hkept, habove⟩⟩

/-- **The window is the hits and the scope, with the rows above them**, in their order and
each once.  A row in it is marked where it is a hit, and the marked rows are counted.  A row's
place is that of the first one from it on, of all or of the hits, or else of the last. -/
theorem window_exact (t : Tree μ) (query : Text) (scope : Option PathString)
    (hout : Outline t.depths) (hfilter : query ≠ [] ∨ scope ≠ none) :
    ∃ rows hits, t.window query scope = .filtered rows hits ∧
      rows.Pairwise (fun u v => u.row < v.row) ∧
      (∀ i, (∃ v ∈ rows, v.row = i) ↔
        ∃ j, (t.hitAt (needleOf query) scope j ∨ t.scopeAt scope j) ∧
          (i = j ∨ Relation.TransGen (IsParent t.depths) i j)) ∧
      (∀ v ∈ rows, v.matched = t.hitAt (needleOf query) scope v.row) ∧
      hits = t.rows.countP (isHit (needleOf query) scope) ∧
      ∀ r, (t.window query scope).matched r = t.hitAt (needleOf query) scope r ∧
        Nearest (fun _ => True) rows r ((t.window query scope).positionOf r) ∧
        Nearest (fun v => t.hitAt (needleOf query) scope v.row) rows r
          ((t.window query scope).matchPositionOf r) := by
  have hinv : t.Inv (needleOf query) scope t.rows.length
      (t.windowTo (needleOf query) scope t.rows.length) :=
    inv_windowTo hout (Nat.le_refl t.rows.length)
  rw [window_eq t hfilter]
  generalize t.windowTo (needleOf query) scope t.rows.length = w at hinv
  have hmarked : ∀ v ∈ w.rows, v.matched = t.hitAt (needleOf query) scope v.row := fun v hv =>
    ((hinv.mem v).mp hv).2.2
  have hrows : ∀ i, (∃ v ∈ w.rows, v.row = i) ↔
      i < t.rows.length ∧ t.Shown (needleOf query) scope t.rows.length i := by
    intro i
    constructor
    · rintro ⟨v, hv, rfl⟩
      obtain ⟨hlt, hshown, -⟩ := (hinv.mem v).mp hv
      exact ⟨hlt, hshown⟩
    · rintro ⟨hlt, hshown⟩
      exact ⟨⟨i, t.hitAt (needleOf query) scope i⟩, (hinv.mem _).mpr ⟨hlt, hshown, rfl⟩, rfl⟩
  refine ⟨w.rows, w.hits, rfl, hinv.sorted, fun i => (hrows i).trans (shown_iff hout), hmarked,
    ?_, fun r => ⟨?_, nearest_positionOf hinv.sorted _ _, ?_⟩⟩
  · rw [hinv.hits, List.take_length]
  · rw [Bool.eq_iff_iff, matched_iff hinv.sorted]
    constructor
    · rintro ⟨v, hv, rfl, hmatched⟩
      rwa [← hmarked v hv]
    · intro hhit
      obtain ⟨v, hv, hrow⟩ := (hrows r).mpr
        ((shown_iff hout).mpr ⟨r, .inl hhit, .inl rfl⟩)
      exact ⟨v, hv, hrow, by rw [hmarked v hv, hrow, hhit]⟩
  · exact (nearest_matchPositionOf hinv.sorted w.hits r).congr fun v hv => by rw [hmarked v hv]

end Tree

end Loop

/-! ### A file in a directory -/

/-- The directory `a` with the file `b` in it, beside the file `c`. -/
def nested : Tree Unit :=
  { (Tree.new (letters [0x72]) : Tree Unit) with
    rows :=
      [.new (letters [0x61]) 0 (entryNamed (letters [0x61]) true),
        .new (letters [0x61, 0x2F, 0x62]) 1 (entryNamed (letters [0x62]) false),
        .new (letters [0x63]) 0 (entryNamed (letters [0x63]) false)] }

theorem outline_nested : Outline nested.depths where
  first x h := by
    cases h
    rfl
  next i x y hx hy := by
    rcases i with _ | _ | i
    · cases hx
      cases hy
      exact Nat.le_refl 1
    · cases hx
      cases hy
      exact Nat.zero_le 2
    · simp [nested, Tree.depths] at hy

/-- The file is a hit, and the directory it is in is on screen before it. -/
theorem nested_window : ∃ rows hits,
    @Tree.window Unit asciiLowercase nested ['b'] none = .filtered rows hits ∧ hits = 1 ∧
      ∃ v ∈ rows, v.row = 0 := by
  obtain ⟨rows, hits, hwindow, -, hrows, -, hhits, -⟩ :=
    @Tree.window_exact Unit asciiLowercase nested ['b'] none outline_nested (.inl (by decide))
  refine ⟨rows, hits, hwindow, ?_, (hrows 0).mpr ⟨1, .inl (by decide +kernel), .inr ?_⟩⟩
  · rw [hhits]
    decide +kernel
  · exact .single ⟨Nat.zero_lt_one, ⟨0, rfl, rfl⟩, fun m x y hm hm' => by omega⟩

end FilePeeker.Browser
