import FilePeeker.Browser.Filter
import FilePeeker.Browser.Runs
import FilePeeker.Browser.Selection

/-!
# The rows on screen

`viewport` shows a stretch of the visible rows and says which of them is highlighted.
`viewport_fits` is what it does with its height: as many rows as there are or as fit, the
selection among them, with a row of context on either side where there is one; and it is
at rest: drawn again, it shows the same.

The highlight goes through positions on screen and the keys go by the row that is
selected.  They agree where the selected row is on screen, as it always is with no prompt
open.  A prompt may hide it, and then the highlight is on the nearest row that is left
(`highlighted_is_nearest`).

That the rows on screen are in order and are rows of the tree holds of any tree, whatever
its depths are, so nothing here asks how a state was reached.
-/

namespace FilePeeker.Browser

variable {μ : Type}

/-! ### Positions on screen -/

namespace VisibleRows

variable {visible : VisibleRows} {p q r i j : Nat}

/-- The rows on screen, from the top. -/
def indices : VisibleRows → List Nat
  | all count => List.range count
  | filtered rows _ => rows.map VisibleRow.row

theorem length_indices (visible : VisibleRows) : visible.indices.length = visible.len := by
  cases visible with
  | all count => exact List.length_range
  | filtered rows hits => exact List.length_map _

theorem row?_eq (visible : VisibleRows) (p : Nat) : visible.row? p = visible.indices[p]? := by
  cases visible with
  | all count =>
    rw [row?, indices]
    split
    · next h => rw [List.getElem?_range h]
    · next h => rw [List.getElem?_eq_none (by rw [List.length_range]; omega)]
  | filtered rows hits => exact List.getElem?_map.symm

/-- Row `i` is on screen. -/
def Shows (visible : VisibleRows) (i : Nat) : Prop := i ∈ visible.indices

theorem nearest_row {rows : List VisibleRow} {hits : Nat}
    (h : Nearest (fun _ => True) rows r (some p))
    (hsorted : rows.Pairwise fun u v => u.row < v.row) :
    ∃ i, (filtered rows hits).row? p = some i ∧
      (r ≤ i ∧ (∀ j, (filtered rows hits).Shows j → r ≤ j → i ≤ j) ∨
        ∀ j, (filtered rows hits).Shows j → j < r ∧ j ≤ i) := by
  have horder {q : Nat} {u v : VisibleRow} (hu : rows[p]? = some u) (hv : rows[q]? = some v) :
      (p ≤ q → u.row ≤ v.row) ∧ (q ≤ p → v.row ≤ u.row) := by
    obtain ⟨hp, rfl⟩ := List.getElem?_eq_some_iff.mp hu
    obtain ⟨hq, rfl⟩ := List.getElem?_eq_some_iff.mp hv
    have hlt := List.pairwise_iff_getElem.mp hsorted
    refine ⟨fun hpq => ?_, fun hqp => ?_⟩
    · rcases Nat.lt_or_eq_of_le hpq with hpq | rfl
      · exact (hlt p q hp hq hpq).le
      · exact Nat.le_refl _
    · rcases Nat.lt_or_eq_of_le hqp with hqp | rfl
      · exact (hlt q p hq hp hqp).le
      · exact Nat.le_refl _
  have hshows {j : Nat} (hj : (filtered rows hits).Shows j) :
      ∃ (q : Nat) (v : VisibleRow), rows[q]? = some v ∧ v.row = j := by
    obtain ⟨v, hv, rfl⟩ := List.mem_map.mp hj
    obtain ⟨q, hq⟩ := List.getElem?_of_mem hv
    exact ⟨q, v, hq, rfl⟩
  cases h with
  | @found _ u hget _ hfrom hfirst =>
    refine ⟨u.row, by rw [row?, hget]; rfl, .inl ⟨hfrom, fun j hj hrj => ?_⟩⟩
    obtain ⟨q, v, hq, rfl⟩ := hshows hj
    exact (horder hget hq).1 (hfirst q v hq trivial hrj)
  | @last _ u hget _ hbefore hlast =>
    refine ⟨u.row, by rw [row?, hget]; rfl, .inr fun j hj => ?_⟩
    obtain ⟨q, v, hq, rfl⟩ := hshows hj
    exact ⟨hbefore v (List.mem_of_getElem? hq) trivial, (horder hget hq).2 (hlast q v hq trivial)⟩

/-- Where the highlight of a row goes: to the row itself or else to the next one on screen,
or to the last where there is none. -/
theorem positionOf_spec (hsorted : visible.indices.Pairwise (· < ·))
    (h : visible.positionOf r = some p) : ∃ i, visible.row? p = some i ∧
      (r ≤ i ∧ (∀ j, visible.Shows j → r ≤ j → i ≤ j) ∨
        ∀ j, visible.Shows j → j < r ∧ j ≤ i) := by
  cases visible with
  | filtered rows hits =>
    have hrows : rows.Pairwise fun u v => u.row < v.row := List.pairwise_map.mp hsorted
    exact nearest_row (h ▸ nearest_positionOf hrows hits r) hrows
  | all count =>
    unfold positionOf at h
    split at h
    · cases h
    · next hlen =>
      obtain rfl := Option.some.inj h
      dsimp only [len] at hlen ⊢
      have hlt : min r (count - 1) < count := by omega
      refine ⟨min r (count - 1), if_pos hlt, ?_⟩
      rcases Nat.lt_or_ge r count with hr | hr
      · exact .inl ⟨by omega, fun j _ hj => by omega⟩
      · refine .inr fun j hj => ?_
        have := List.mem_range.mp hj
        omega

theorem positionOf_eq_none_iff : visible.positionOf r = none ↔ visible.len = 0 := by
  unfold positionOf
  split
  · next h => simp [h]
  · next h =>
    refine iff_of_false ?_ h
    cases visible <;> simp

end VisibleRows

/-! ### Fitting the viewport -/

/-- The rows of context that `viewport` keeps on either side of the selection. -/
def padding (height : Nat) : Nat := min scrollPadding ((height - 1) / 2)

theorem padding_le {height : Nat} (h : 0 < height) : 2 * padding height + 1 ≤ height := by
  unfold padding scrollPadding
  omega

/-- The offset that `viewport` settles on, from the one before. -/
def fitOffset (previous len height selected : Nat) : Nat :=
  let offset := min (min previous (len - height)) (selected - padding height)
  let bottom := min (selected + padding height) (len - 1)
  if offset + height ≤ bottom then bottom + 1 - height else offset

section Fitting

variable {previous len height selected : Nat}

/-- The selection is on screen with its context, and nothing past the end is. -/
theorem fitOffset_spec (previous : Nat) (hlen : selected < len) (hheight : 0 < height) :
    ∀ offset, offset = fitOffset previous len height selected →
      offset + min height len ≤ len ∧ offset ≤ selected ∧ selected < offset + min height len ∧
        min (padding height) selected ≤ selected - offset ∧
        min (padding height) (len - 1 - selected) ≤ offset + min height len - 1 - selected := by
  intro offset heq
  have hpadding := padding_le hheight
  unfold fitOffset at heq
  dsimp only at heq
  -- Of where it starts and what it must reach, only these bounds matter.
  obtain ⟨start, hstart⟩ :
      ∃ start, start = min (min previous (len - height)) (selected - padding height) := ⟨_, rfl⟩
  obtain ⟨bottom, hbottom⟩ :
      ∃ bottom, bottom = min (selected + padding height) (len - 1) := ⟨_, rfl⟩
  rw [← hstart, ← hbottom] at heq
  replace hstart : start ≤ len - height ∧ start ≤ selected - padding height := by omega
  replace hbottom : selected ≤ bottom ∧ bottom ≤ len - 1 ∧ bottom ≤ selected + padding height ∧
      (bottom = selected + padding height ∨ bottom = len - 1) := by omega
  generalize padding height = room at *
  rcases Nat.le_total height len with hle | hle
  · rw [Nat.min_eq_left hle]
    split at heq
    · refine ⟨by omega, by omega, by omega, by omega, by omega⟩
    · refine ⟨by omega, by omega, by omega, by omega, by omega⟩
  · rw [Nat.min_eq_right hle]
    split at heq
    · omega
    · refine ⟨by omega, by omega, by omega, by omega, by omega⟩

theorem fitOffset_again (previous : Nat) (hlen : selected < len) (hheight : 0 < height) :
    fitOffset (fitOffset previous len height selected) len height selected =
      fitOffset previous len height selected := by
  have hpadding := padding_le hheight
  generalize heq : fitOffset previous len height selected = offset
  unfold fitOffset at heq ⊢
  dsimp only at heq ⊢
  split at heq <;> split <;> omega

end Fitting

/-! ### Visible rows are rows, in order -/

namespace Tree

/-- What the loop of `window` has put on screen is in order, and a row of the chain that
is not on screen comes after all that is. -/
structure InOrder (k : Nat) (w : Window) : Prop where
  rows : w.rows.Pairwise fun u v => u.row < v.row
  chain : w.ancestors.Pairwise fun a b => a.1 < b.1
  rows_lt : ∀ v ∈ w.rows, v.row < k
  chain_lt : ∀ a ∈ w.ancestors, a.1 < k
  waiting : ∀ a ∈ w.ancestors, a.2 = false → ∀ v ∈ w.rows, v.row < a.1

variable {t : Tree μ} {needle : Option Text} {scope : Option PathString} {w : Window} {k : Nat}

theorem inOrder_nil : InOrder 0 ⟨[], 0, []⟩ :=
  ⟨.nil, .nil, nofun, nofun, nofun⟩

/-- A chain that ends at the next row. -/
theorem chain_concat {chain : List (Nat × Bool)} (hchain : chain.Pairwise fun a b => a.1 < b.1)
    (hlt : ∀ a ∈ chain, a.1 < k) (last : Bool) :
    (chain ++ [(k, last)]).Pairwise (fun a b => a.1 < b.1) ∧
      ∀ a ∈ chain ++ [(k, last)], a.1 < k + 1 := by
  refine ⟨List.pairwise_append.mpr ⟨hchain, List.pairwise_singleton _ _, ?_⟩, ?_⟩
  · intro a ha b hb
    rw [List.mem_singleton.mp hb]
    exact hlt a ha
  · intro a ha
    rcases List.mem_append.mp ha with ha | ha
    · exact (hlt a ha).trans (Nat.lt_succ_self k)
    · rw [List.mem_singleton.mp ha]
      exact Nat.lt_succ_self k

variable [Lowercase]

theorem InOrder.next (h : InOrder k w) (row : Row μ) :
    InOrder (k + 1) (w.next needle scope k row) := by
  have htaken : (w.ancestors.take row.depth).Pairwise fun a b => a.1 < b.1 :=
    h.chain.sublist (List.take_sublist _ _)
  have hmem : ∀ a ∈ w.ancestors.take row.depth, a ∈ w.ancestors := fun a ha =>
    List.mem_of_mem_take ha
  have hlt : ∀ a ∈ w.ancestors.take row.depth, a.1 < k := fun a ha => h.chain_lt a (hmem a ha)
  by_cases hkept : isKept needle scope row
  · rw [next_kept hkept]
    generalize w.ancestors.take row.depth = taken at htaken hmem hlt
    -- The rows of the chain that come on screen with this one.
    have habove : ∀ v ∈ (taken.filter fun a => !a.2).map (fun a => (⟨a.1, false⟩ : VisibleRow)),
        v.row < k ∧ ∀ u ∈ w.rows, u.row < v.row := by
      intro v hv
      obtain ⟨a, ha, rfl⟩ := List.mem_map.mp hv
      obtain ⟨ha, hnot⟩ := List.mem_filter.mp ha
      exact ⟨hlt a ha, h.waiting a (hmem a ha) (by simpa using hnot)⟩
    have hsorted : ((taken.filter fun a => !a.2).map
        (fun a => (⟨a.1, false⟩ : VisibleRow))).Pairwise fun u v => u.row < v.row :=
      List.pairwise_map.mpr (htaken.sublist List.filter_sublist)
    generalize (taken.filter fun a => !a.2).map _ = above at habove hsorted
    have hbefore : ∀ v ∈ w.rows ++ above, v.row < k := by
      intro v hv
      rcases List.mem_append.mp hv with hv | hv
      · exact h.rows_lt v hv
      · exact (habove v hv).1
    have hmarked : (taken.map fun a => (a.1, true)).Pairwise fun a b => a.1 < b.1 :=
      List.pairwise_map.mpr htaken
    have hmarkedlt : ∀ a ∈ taken.map fun a => (a.1, true), a.1 < k := by
      intro a ha
      obtain ⟨b, hb, rfl⟩ := List.mem_map.mp ha
      exact hlt b hb
    obtain ⟨hchain, hchainlt⟩ := chain_concat hmarked hmarkedlt true
    refine ⟨?_, hchain, ?_, hchainlt, ?_⟩
    · refine List.pairwise_append.mpr ⟨List.pairwise_append.mpr ⟨h.rows, hsorted, ?_⟩,
        List.pairwise_singleton _ _, ?_⟩
      · exact fun u hu v hv => (habove v hv).2 u hu
      · intro u hu v hv
        rw [List.mem_singleton.mp hv]
        exact hbefore u hu
    · intro v hv
      rcases List.mem_append.mp hv with hv | hv
      · exact (hbefore v hv).trans (Nat.lt_succ_self k)
      · rw [List.mem_singleton.mp hv]
        exact Nat.lt_succ_self k
    · -- Everything in the chain is on screen now.
      intro a ha hnot
      rcases List.mem_append.mp ha with ha | ha
      · obtain ⟨b, -, rfl⟩ := List.mem_map.mp ha
        cases hnot
      · rw [List.mem_singleton.mp ha] at hnot
        cases hnot
  · rw [next_other hkept]
    obtain ⟨hchain, hchainlt⟩ := chain_concat htaken hlt false
    refine ⟨h.rows, hchain, fun v hv => (h.rows_lt v hv).trans (Nat.lt_succ_self k), hchainlt, ?_⟩
    intro a ha hnot v hv
    rcases List.mem_append.mp ha with ha | ha
    · exact h.waiting a (hmem a ha) hnot v hv
    · rw [List.mem_singleton.mp ha]
      exact h.rows_lt v hv

/-- **The rows a window puts on screen are rows of the tree, in order.** -/
theorem inOrder_windowTo (hk : k ≤ t.rows.length) : InOrder k (t.windowTo needle scope k) := by
  induction k with
  | zero => exact inOrder_nil
  | succ k ih =>
    rw [windowTo_succ (List.getElem?_eq_getElem hk)]
    exact (ih (Nat.le_of_succ_le hk)).next _

end Tree

namespace BrowserContext

variable [Lowercase] (c : BrowserContext μ)

theorem visibleRows_inOrder : c.visibleRows.indices.Pairwise (· < ·) ∧
    ∀ i ∈ c.visibleRows.indices, i < c.tree.rows.length := by
  have hall : (VisibleRows.all c.tree.rows.length).indices.Pairwise (· < ·) ∧
      ∀ i ∈ (VisibleRows.all c.tree.rows.length).indices, i < c.tree.rows.length :=
    ⟨List.pairwise_lt_range, fun i hi => List.mem_range.mp hi⟩
  cases hfilter : c.filter with
  | none =>
    rw [visibleRows, hfilter]
    exact hall
  | some filter =>
    have hvisible : c.visibleRows = c.tree.window filter.query filter.scope := by
      rw [visibleRows, hfilter]
    rw [hvisible]
    by_cases hnarrow : filter.query ≠ [] ∨ filter.scope ≠ none
    · have h : Tree.InOrder c.tree.rows.length (c.tree.windowTo (Tree.needleOf filter.query)
          filter.scope c.tree.rows.length) := Tree.inOrder_windowTo (Nat.le_refl _)
      rw [Tree.window_eq c.tree hnarrow]
      refine ⟨List.pairwise_map.mpr h.rows, fun i hi => ?_⟩
      obtain ⟨v, hv, rfl⟩ := List.mem_map.mp hi
      exact h.rows_lt v hv
    · obtain ⟨hquery, hscope⟩ := not_or.mp hnarrow
      rw [not_not] at hquery hscope
      rw [hquery, hscope]
      exact hall

theorem exists_row_of_visible {p i : Nat} (h : c.visibleRows.row? p = some i) :
    ∃ row, c.tree.rows[i]? = some row := by
  rw [VisibleRows.row?_eq] at h
  exact ⟨_, List.getElem?_eq_getElem
    (c.visibleRows_inOrder.2 i (List.mem_of_getElem? h))⟩

/-- Where something is on screen, something is selected. -/
theorem exists_position (h : 0 < c.visibleRows.len) : ∃ r p,
    c.tree.effectiveSelection = some r ∧ c.visibleRows.positionOf r = some p := by
  rw [← VisibleRows.length_indices] at h
  have hrow := c.visibleRows_inOrder.2 _ (List.getElem_mem h)
  have hne : c.tree.rows.isEmpty = false := by
    rw [List.isEmpty_eq_false_iff]
    exact List.ne_nil_of_length_pos (by omega)
  obtain ⟨r, hr⟩ : ∃ r, c.tree.effectiveSelection = some r := by
    rw [Tree.effectiveSelection, hne]
    exact ⟨_, rfl⟩
  cases hp : c.visibleRows.positionOf r with
  | some p => exact ⟨r, p, hr, hp⟩
  | none =>
    have hzero := VisibleRows.positionOf_eq_none_iff.mp hp
    rw [VisibleRows.length_indices] at h
    omega

/-- The rows that are on screen as the viewport goes over all of them. -/
def shown : List (Row μ) := c.visibleRows.indices.filterMap (c.tree.rows[·]?)

variable {c}

theorem getElem?_shown (p : Nat) :
    c.shown[p]? = (c.visibleRows.row? p).bind (c.tree.rows[·]?) := by
  have hrows := c.visibleRows_inOrder.2
  rw [shown, VisibleRows.row?_eq]
  generalize c.visibleRows.indices = indices at hrows
  induction indices generalizing p with
  | nil => simp
  | cons i indices ih =>
    obtain ⟨row, hrow⟩ : ∃ row, c.tree.rows[i]? = some row :=
      ⟨_, List.getElem?_eq_getElem (hrows i List.mem_cons_self)⟩
    rw [List.filterMap_cons_some hrow]
    cases p with
    | zero => exact hrow.symm
    | succ p => exact ih p fun j hj => hrows j (List.mem_cons_of_mem i hj)

theorem length_shown (c : BrowserContext μ) : c.shown.length = c.visibleRows.len := by
  rw [← VisibleRows.length_indices, shown, List.length_filterMap_eq_countP, List.countP_eq_length]
  intro i hi
  rw [List.getElem?_eq_getElem (c.visibleRows_inOrder.2 i hi)]
  rfl

omit [Lowercase] in
/-- A stretch of a list, taken one by one. -/
theorem filterMap_range' {l : List (Row μ)} {f : Nat → Option (Row μ)} (hf : ∀ p, f p = l[p]?)
    (start count : Nat) : (List.range' start count).filterMap f = (l.drop start).take count := by
  induction count generalizing start with
  | zero => simp
  | succ count ih =>
    rw [List.range'_succ]
    rcases Nat.lt_or_ge start l.length with hlt | hge
    · rw [List.filterMap_cons_some (by rw [hf, List.getElem?_eq_getElem hlt]), ih,
        List.drop_eq_getElem_cons hlt, List.take_succ_cons]
    · rw [List.filterMap_cons_none (by rw [hf, List.getElem?_eq_none hge]), ih,
        List.drop_eq_nil_of_le hge, List.drop_eq_nil_of_le (Nat.le_succ_of_le hge),
        List.take_nil, List.take_nil]

/-- What is drawn from an offset on, with the selection at position `p`. -/
def drawnAt (c : BrowserContext μ) (height p offset : Nat) : Viewport μ × BrowserContext μ :=
  ({ rows := (c.shown.drop offset).take height
     selected := some (p - offset)
     hits := c.visibleRows.hits? },
    { c with viewportHeight := height, viewportOffset := offset })

theorem viewport_eq {height r p : Nat} (hheight : 0 < height)
    (hr : c.tree.effectiveSelection = some r) (hp : c.visibleRows.positionOf r = some p) :
    c.viewport height =
      c.drawnAt height p (fitOffset c.viewportOffset c.visibleRows.len height p) := by
  have hsame : ({ c with viewportHeight := height } : BrowserContext μ).visibleRows =
      c.visibleRows := rfl
  rw [viewport]
  simp only [if_pos hheight, hsame, hr, Option.bind_some, hp]
  rw [filterMap_range' (l := c.shown) fun q => (getElem?_shown q).symm]
  have hstop (offset : Nat) :
      (c.shown.drop offset).take (min (offset + height) c.visibleRows.len - offset) =
        (c.shown.drop offset).take height := by
    rw [List.take_eq_take_iff, List.length_drop, length_shown]
    omega
  rw [hstop]
  rfl

theorem viewport_nothing {height : Nat} (h : height = 0 ∨ c.visibleRows.len = 0) :
    (c.viewport height).1.selected = none := by
  have hsame : ({ c with viewportHeight := height } : BrowserContext μ).visibleRows =
      c.visibleRows := rfl
  have hnone : (if 0 < height then c.tree.effectiveSelection else none).bind
      c.visibleRows.positionOf = none := by
    rcases h with rfl | hlen
    · rfl
    · refine Option.bind_eq_none_iff.mpr fun r _ => ?_
      exact VisibleRows.positionOf_eq_none_iff.mpr hlen
  rw [viewport]
  simp only [hsame, hnone]

/-- A prompt that finds a match selects a row on screen. -/
theorem shows_followFilter {p : Nat}
    (hp : c.visibleRows.matchPositionOf (c.tree.selectedIndex.getD 0) = some p) :
    ∃ r, c.followFilter.tree.effectiveSelection = some r ∧
      c.followFilter.visibleRows.Shows r := by
  obtain ⟨i, hi⟩ : ∃ i, c.visibleRows.row? p = some i := by
    cases hvisible : c.visibleRows with
    | all count =>
      have hsorted := c.visibleRows_inOrder.1
      rw [hvisible] at hp hsorted
      obtain ⟨i, hi, -⟩ := VisibleRows.positionOf_spec hsorted hp
      exact ⟨i, hi⟩
    | filtered rows hits =>
      have hsorted := c.visibleRows_inOrder.1
      rw [hvisible] at hp hsorted
      have hnearest := nearest_matchPositionOf (List.pairwise_map.mp hsorted) hits
        (c.tree.selectedIndex.getD 0)
      rw [hp] at hnearest
      cases hnearest with
      | found hget _ _ _ => exact ⟨_, congrArg (Option.map VisibleRow.row) hget⟩
      | last hget _ _ _ => exact ⟨_, congrArg (Option.map VisibleRow.row) hget⟩
  obtain ⟨row, hrow⟩ := c.exists_row_of_visible hi
  have hfollow : c.followFilter = c.select (some i) := by
    rw [followFilter]
    simp only [hp, hi]
  rw [hfollow]
  refine ⟨i, Tree.effectiveSelection_chosen rfl hrow, ?_⟩
  rw [VisibleRows.row?_eq] at hi
  exact List.mem_of_getElem? hi

omit [Lowercase] in
theorem effectiveSelection_lt {t : Tree μ} {r : Nat} (h : t.effectiveSelection = some r) :
    r < t.rows.length := by
  unfold Tree.effectiveSelection at h
  split at h
  · cases h
  · next hne =>
    have hpos := List.length_pos_iff.mpr fun hnil => hne (List.isEmpty_iff.mpr hnil)
    obtain rfl := Option.some.inj h
    omega

/-- With no prompt open every row is on screen. -/
theorem shows_unfiltered {r : Nat} (hfilter : c.filter = none)
    (hr : c.tree.effectiveSelection = some r) : c.visibleRows.Shows r := by
  rw [visibleRows, hfilter]
  exact List.mem_range.mpr (effectiveSelection_lt hr)

theorem position_lt {r p : Nat} (hp : c.visibleRows.positionOf r = some p) :
    p < c.visibleRows.len := by
  obtain ⟨i, hi, -⟩ := VisibleRows.positionOf_spec c.visibleRows_inOrder.1 hp
  rw [VisibleRows.row?_eq] at hi
  rw [← VisibleRows.length_indices]
  exact (List.getElem?_eq_some_iff.mp hi).1

end BrowserContext

/-- What is drawn shows a stretch of the visible rows that holds position `p`. -/
structure Fits [Lowercase] (c : BrowserContext μ) (height p : Nat)
    (drawn : BrowserContext.Viewport μ × BrowserContext μ) : Prop where
  rows : drawn.1.rows = (c.shown.drop drawn.2.viewportOffset).take height
  length : drawn.1.rows.length = min height c.visibleRows.len
  inRange : drawn.2.viewportOffset + min height c.visibleRows.len ≤ c.visibleRows.len
  selected : drawn.1.selected = some (p - drawn.2.viewportOffset)
  highlighted : drawn.1.rows[p - drawn.2.viewportOffset]? = c.shown[p]?
  le : drawn.2.viewportOffset ≤ p
  lt : p < drawn.2.viewportOffset + min height c.visibleRows.len
  /-- The context above the selection, as far as there are rows. -/
  above : min (padding height) p ≤ p - drawn.2.viewportOffset
  /-- And below it. -/
  below : min (padding height) (c.visibleRows.len - 1 - p) ≤
    drawn.2.viewportOffset + min height c.visibleRows.len - 1 - p
  again : drawn.2.viewport height = drawn

theorem BrowserContext.fits [Lowercase] {c : BrowserContext μ} {height r p : Nat}
    (hheight : 0 < height) (hr : c.tree.effectiveSelection = some r)
    (hp : c.visibleRows.positionOf r = some p) : Fits c height p (c.viewport height) := by
  have hlt := position_lt hp
  have hlen := c.length_shown
  rw [viewport_eq hheight hr hp]
  have hagain := fitOffset_again c.viewportOffset hlt hheight
  obtain ⟨hrange, hle, hin, habove, hbelow⟩ :=
    fitOffset_spec c.viewportOffset hlt hheight _ rfl
  generalize fitOffset c.viewportOffset c.visibleRows.len height p = offset at *
  refine ⟨rfl, ?_, hrange, rfl, ?_, hle, hin, habove, hbelow, ?_⟩
  · show ((c.shown.drop offset).take height).length = _
    rw [List.length_take, List.length_drop, hlen]
    omega
  · show ((c.shown.drop offset).take height)[p - offset]? = _
    rw [List.getElem?_take_of_lt (by omega), List.getElem?_drop, Nat.add_sub_cancel' hle]
  · -- The rows and the selection are the same, so only the offset counts.
    rw [viewport_eq (c := (c.drawnAt height p offset).2) hheight hr hp]
    show c.drawnAt height p (fitOffset offset c.visibleRows.len height p) = _
    rw [hagain]

/-- **The viewport fits.**  With something on screen and some height, it shows a stretch of
the visible rows that is as long as both allow; the selection is in it, with its padding
on each side that has the rows for it; and drawn again it is the same. -/
theorem viewport_fits [Lowercase] (c : BrowserContext μ) (height : Nat)
    (hrows : 0 < c.visibleRows.len) (hheight : 0 < height) :
    ∃ r p, c.tree.effectiveSelection = some r ∧ c.visibleRows.positionOf r = some p ∧
      c.shown.length = c.visibleRows.len ∧ Fits c height p (c.viewport height) := by
  obtain ⟨r, p, hr, hp⟩ := c.exists_position hrows
  exact ⟨r, p, hr, hp, c.length_shown, BrowserContext.fits hheight hr hp⟩

section Rows

attribute [local instance] asciiLowercase

/-- Five rows, the fourth of them selected, scrolled further than there are rows. -/
def fiveRows : BrowserContext Unit :=
  let c : BrowserContext Unit := .new 0 (letters [0x72])
  let names := [[0x61], [0x62], [0x63], [0x64], [0x65]]
  let c := c.applyRootListing (.entries (names.map fun name => entryNamed (letters name) false))
  { c.select (some 3) with viewportOffset := 9 }

/-- In three lines the selection has a row on either side. -/
theorem fiveRows_fits : (fiveRows.viewport 3).2.viewportOffset = 2 ∧
    ∃ p, Fits fiveRows 3 p (fiveRows.viewport 3) := by
  obtain ⟨r, p, -, -, -, hfits⟩ := viewport_fits fiveRows 3 (by decide +kernel) (by decide)
  exact ⟨by decide +kernel, p, hfits⟩

end Rows

/-! ### The highlighted row -/

/-- **The highlight is on the selected row or on the nearest one.**  A row is highlighted as
long as any is on screen.  It is the selected one where that is on screen, as it always is
with no prompt open, and when the prompt has just found a match; otherwise it is the next
row that is, or else the last. -/
theorem highlighted_is_nearest [Lowercase] (c : BrowserContext μ) (height : Nat) :
    let drawn := c.viewport height
    (drawn.1.selected = none ↔ height = 0 ∨ c.visibleRows.len = 0) ∧
    ∀ s, drawn.1.selected = some s → ∃ r i row, c.tree.effectiveSelection = some r ∧
      c.tree.rows[i]? = some row ∧ drawn.1.rows[s]? = some row ∧ c.visibleRows.Shows i ∧
      (r ≤ i ∧ (∀ j, c.visibleRows.Shows j → r ≤ j → i ≤ j) ∨
        ∀ j, c.visibleRows.Shows j → j < r ∧ j ≤ i) ∧
      (c.visibleRows.Shows r → i = r ∧ drawn.1.rows[s]? = c.tree.selectedRow) ∧
      (c.filter = none → c.visibleRows.Shows r) ∧
      ∀ p, c.visibleRows.matchPositionOf (c.tree.selectedIndex.getD 0) = some p →
        ∃ r, c.followFilter.tree.effectiveSelection = some r ∧
          c.followFilter.visibleRows.Shows r := by
  intro drawn
  by_cases hnone : height = 0 ∨ c.visibleRows.len = 0
  · have hempty : drawn.1.selected = none := BrowserContext.viewport_nothing hnone
    refine ⟨iff_of_true hempty hnone, fun s hs => ?_⟩
    rw [hempty] at hs
    cases hs
  · obtain ⟨hheight, hrows⟩ := not_or.mp hnone
    obtain ⟨r, p, hr, hp⟩ := c.exists_position (Nat.pos_of_ne_zero hrows)
    have hfits := BrowserContext.fits (Nat.pos_of_ne_zero hheight) hr hp
    obtain ⟨i, hi, hnearest⟩ := VisibleRows.positionOf_spec c.visibleRows_inOrder.1 hp
    obtain ⟨row, hrow⟩ := c.exists_row_of_visible hi
    have hshows : c.visibleRows.Shows i := by
      rw [VisibleRows.row?_eq] at hi
      exact List.mem_of_getElem? hi
    refine ⟨iff_of_false (by rw [hfits.selected]; simp) hnone, fun s hs => ?_⟩
    obtain rfl := Option.some.inj (hfits.selected.symm.trans hs)
    have hhigh : drawn.1.rows[p - drawn.2.viewportOffset]? = some row := by
      rw [hfits.highlighted, BrowserContext.getElem?_shown, hi, Option.bind_some, hrow]
    refine ⟨r, i, row, hr, hrow, hhigh, hshows, hnearest, fun hon => ?_, fun hfilter => ?_,
      fun p hp => BrowserContext.shows_followFilter hp⟩
    · have hir : i = r := by
        rcases hnearest with ⟨hri, hfirst⟩ | hlast
        · exact Nat.le_antisymm (hfirst r hon (Nat.le_refl r)) hri
        · have := (hlast r hon).1
          omega
      refine ⟨hir, ?_⟩
      rw [hhigh, Tree.selectedRow, hr, Option.bind_some, ← hir, hrow]
    · exact BrowserContext.shows_unfiltered hfilter hr

section Late

attribute [local instance] asciiLowercase

/-- A query that nothing matches yet, and then a row that does. -/
def lateMatch : World Unit :=
  runs World.step (fun _ _ => True) (.new 0 (letters [0x72]))
    [.send 0 (.entries [entryNamed (letters [0x61]) false]), .receive, .key .beginFilter,
      .key (.extendFilter 'b'), .send 0 (.entries [entryNamed (letters [0x62]) false]), .receive]

/-- The row `b` is highlighted, and the row `a` is selected. -/
theorem late_match_highlighted : ¬ ∀ w : World Unit,
    Steps World.step (fun _ _ => True) (World.new 0 (letters [0x72])) w →
    ∀ height s, (w.context.viewport height).1.selected = some s →
      (w.context.viewport height).1.rows[s]? = w.context.tree.selectedRow := by
  intro hall
  have h := hall lateMatch (steps_runs _ _) 10 0 (by decide +kernel)
  exact absurd h (by decide +kernel)

end Late

end FilePeeker.Browser
