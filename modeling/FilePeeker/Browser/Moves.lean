import FilePeeker.Browser.Context
import FilePeeker.Browser.Placed
import FilePeeker.Lib.Steps

/-!
# What a keystroke does to the rows

Most of what a keystroke does is to choose what is on screen.  The rows change in
five ways only (`Move`): a row is expanded, a row is collapsed, the root is
listed again, another root is opened, or the browser is cancelled.
`moves_of_act` says that every keystroke is some of these moves, and that the one
row it may expand is the one `opens` names.
-/

namespace FilePeeker.Browser

variable {μ : Type}

inductive Move
  /-- Another selection, prompt or viewport. -/
  | look (selected : Option Nat) (filter : Option Filter) (offset height : Nat)
  | expand (index : Nat)
  | collapse (index : Nat)
  | restart
  | reroot (rootPath : PathString)
  | cancel

namespace BrowserContext

variable {c c' c'' : BrowserContext μ} {i : Nat}

def look (c : BrowserContext μ) (selected : Option Nat) (filter : Option Filter)
    (offset height : Nat) : BrowserContext μ :=
  { c with
    tree := { c.tree with selectedIndex := selected }
    filter
    viewportOffset := offset
    viewportHeight := height }

def move (c : BrowserContext μ) : Move → Option (BrowserContext μ)
  | .look selected filter offset height => some (c.look selected filter offset height)
  | .expand index => c.startDirectoryListing index
  | .collapse index => c.collapseDirectory index
  | .restart => some c.startRootListing
  | .reroot rootPath => some (c.changeRootPath rootPath)
  | .cancel => some c.cancel

/-- The moves that `may` allows: it is asked for every row that is expanded, and
no move lets the generation wrap. -/
def MoveOk (may : BrowserContext μ → Nat → Prop) (c : BrowserContext μ) : Move → Prop
  | .expand index => may c index
  | .restart | .reroot _ | .cancel => c.generation + 1 < counterLimit
  | .look .. | .collapse _ => True

abbrev Moves (may : BrowserContext μ → Nat → Prop) : BrowserContext μ → BrowserContext μ → Prop :=
  Steps move (MoveOk may)

variable {may : BrowserContext μ → Nat → Prop}

/-! ### What only chooses what is on screen -/

/-- The same browser with another selection, prompt or viewport. -/
def Looks (c c' : BrowserContext μ) : Prop :=
  ∃ selected filter offset height, c' = c.look selected filter offset height

theorem Looks.refl (c : BrowserContext μ) : Looks c c :=
  ⟨c.tree.selectedIndex, c.filter, c.viewportOffset, c.viewportHeight, rfl⟩

theorem Looks.trans (h : Looks c c') (h' : Looks c' c'') : Looks c c'' := by
  obtain ⟨s, f, o, v, rfl⟩ := h
  obtain ⟨s', f', o', v', rfl⟩ := h'
  exact ⟨s', f', o', v', rfl⟩

theorem Looks.moves (h : Looks c c') : Moves may c c' := by
  obtain ⟨s, f, o, v, rfl⟩ := h
  exact .single (a := .look s f o v) trivial rfl

theorem looks_select (c : BrowserContext μ) (index : Option Nat) : Looks c (c.select index) :=
  ⟨index, c.filter, c.viewportOffset, c.viewportHeight, rfl⟩

theorem looks_filter (c : BrowserContext μ) (filter : Option Filter) :
    Looks c { c with filter } :=
  ⟨c.tree.selectedIndex, filter, c.viewportOffset, c.viewportHeight, rfl⟩

theorem looks_offset (c : BrowserContext μ) (viewportOffset : Nat) :
    Looks c { c with viewportOffset } :=
  ⟨c.tree.selectedIndex, c.filter, viewportOffset, c.viewportHeight, rfl⟩

theorem Looks.select (h : Looks c c') (index : Option Nat) : Looks c (c'.select index) :=
  h.trans (looks_select _ _)

theorem collapses_closeDescent {d : Descent} (h : c.closeDescent d = some c') : Moves may c c' := by
  unfold closeDescent at h
  split at h
  · split at h
    · obtain rfl := Option.some.inj h
      exact .refl _
    · next index _ => exact .single (a := .collapse index) trivial h
  · obtain rfl := Option.some.inj h
    exact .refl _

theorem collapses_closeDescents : ∀ {ds : List Descent} {c c' : BrowserContext μ},
    c.closeDescents ds = some c' → Moves may c c' := by
  intro ds
  induction ds with
  | nil =>
    intro c c' h
    obtain rfl := Option.some.inj h
    exact .refl _
  | cons d ds ih =>
    intro c c' h
    rw [closeDescents, Option.bind_eq_some_iff] at h
    obtain ⟨c₁, h₁, h₂⟩ := h
    exact (collapses_closeDescent h₁).trans (ih h₂)

variable [Lowercase]

theorem looks_fillFromSelection (c : BrowserContext μ) : Looks c c.fillFromSelection := by
  unfold fillFromSelection
  split
  · exact .refl c
  · exact looks_filter c _

theorem looks_followFilter (c : BrowserContext μ) : Looks c c.followFilter := by
  unfold followFilter
  simp only
  split
  · exact .refl c
  · exact looks_select c _

theorem Looks.follow (h : Looks c c') : Looks c c'.followFilter := h.trans (looks_followFilter _)

theorem looks_viewport (c : BrowserContext μ) (height : Nat) : Looks c (c.viewport height).2 := by
  unfold viewport
  simp only
  split
  · exact ⟨c.tree.selectedIndex, c.filter, c.viewportOffset, height, rfl⟩
  · exact ⟨c.tree.selectedIndex, c.filter, _, height, rfl⟩

theorem looks_moveSelection (c : BrowserContext μ) (down : Bool) :
    Looks c (c.moveSelection down) := by
  unfold moveSelection
  split
  · exact looks_select c _
  · simp only
    split
    · exact .refl c
    · exact (looks_select c _).trans (looks_fillFromSelection _)

theorem looks_scrollHalfPage (c : BrowserContext μ) (down : Bool) :
    Looks c (c.scrollHalfPage down) := by
  unfold scrollHalfPage
  simp only
  split
  · exact .refl c
  · split
    · exact .refl c
    · exact ((looks_offset c _).select _).trans (looks_fillFromSelection _)

theorem looks_extendFilter (c : BrowserContext μ) (character : Char) :
    Looks c (c.extendFilter character) := by
  unfold extendFilter
  split
  · exact .refl c
  · exact (looks_filter c _).follow

theorem looks_completeFilter (c : BrowserContext μ) : Looks c c.completeFilter := by
  unfold completeFilter
  split
  · exact .refl c
  · simp only
    split
    · exact looks_filter c _
    · split
      · exact looks_filter c _
      · split
        · exact looks_filter c _
        · split
          · exact looks_filter c _
          · exact Looks.follow (looks_filter c _)

theorem looks_submitFilter (c : BrowserContext μ) : Looks c c.submitFilter := by
  unfold submitFilter
  split
  · exact .refl c
  · split
    · exact looks_filter c _
    · split
      · exact looks_fillFromSelection c
      · exact looks_filter c _

/-! ### What closes directories -/

omit [Lowercase] in
theorem moves_abandonFilter (h : c.abandonFilter = some c') : Moves may c c' := by
  unfold abandonFilter at h
  split at h
  · obtain rfl := Option.some.inj h
    exact .refl _
  · simp only [Option.bind_eq_bind, Option.bind_eq_some_iff] at h
    obtain ⟨c₁, h₁, h₂⟩ := h
    obtain rfl := Option.some.inj h₂
    exact ((looks_filter c none).moves.trans (collapses_closeDescents h₁)).trans
      (looks_select _ _).moves

theorem moves_ascendFilter (h : c.ascendFilter = some c') : Moves may c c' := by
  unfold ascendFilter at h
  split at h
  · obtain rfl := Option.some.inj h
    exact .refl _
  · split at h
    · obtain rfl := Option.some.inj h
      exact .refl _
    · simp only [Option.bind_eq_bind, Option.bind_eq_some_iff] at h
      obtain ⟨c₁, h₁, h₂⟩ := h
      obtain rfl := Option.some.inj h₂
      exact ((looks_filter c _).moves.trans (collapses_closeDescent h₁)).trans
        (looks_followFilter _).moves

theorem moves_shortenFilter (h : c.shortenFilter = some c') : Moves may c c' := by
  unfold shortenFilter at h
  split at h
  · obtain rfl := Option.some.inj h
    exact .refl _
  · simp only at h
    split at h
    · obtain rfl := Option.some.inj h
      exact (looks_filter c _).follow.moves
    · split at h
      · exact (looks_filter c _).moves.trans (moves_abandonFilter h)
      · exact (looks_filter c _).moves.trans (moves_ascendFilter h)

theorem moves_clearFilterEntry (h : c.clearFilterEntry = some c') : Moves may c c' := by
  unfold clearFilterEntry at h
  split at h
  · obtain rfl := Option.some.inj h
    exact .refl _
  · split at h
    · obtain rfl := Option.some.inj h
      exact (looks_filter c _).follow.moves
    · split at h
      · exact moves_abandonFilter h
      · simp only [Option.bind_eq_bind, Option.bind_eq_some_iff] at h
        obtain ⟨c₁, h₁, h₂⟩ := h
        obtain rfl := Option.some.inj h₂
        exact (moves_ascendFilter h₁).trans (looks_filter c₁ _).follow.moves

/-! ### What opens one -/

/-- The row a keystroke starts a listing of, if it does. -/
def opens (c : BrowserContext μ) : ContextOp → Option Nat
  | .descendFilter =>
    match c.filter.map c.descent with
    | some (.ok (index, _, true)) => some index
    | _ => none
  | .activateSelected =>
    c.tree.effectiveSelection.bind fun index =>
      match c.tree.rows[index]? with
      | none => none
      | some row => if row.entry.navigable ∧ row.expansion = .collapsed then some index else none
  | _ => none

/-- A row that a keystroke opens is collapsed, or its listing failed. -/
theorem closed_of_opens {op : ContextOp} (h : c.opens op = some i) :
    ∃ row, c.tree.rows[i]? = some row ∧
      (row.expansion = .collapsed ∨ ∃ id error, row.expansion = .failed id error) := by
  cases op with
  | descendFilter =>
    rw [opens] at h
    split at h
    · next index path heq =>
      obtain rfl := Option.some.inj h
      obtain ⟨filter, -, hdescent⟩ := Option.map_eq_some_iff.mp heq
      unfold descent at hdescent
      split at hdescent
      · simp at hdescent
      · split at hdescent
        · simp at hdescent
        · next row hrow =>
          obtain ⟨index', -, hrow⟩ := Option.bind_eq_some_iff.mp hrow
          obtain ⟨row', hrow', hpair⟩ := Option.map_eq_some_iff.mp hrow
          rw [Prod.mk.injEq] at hpair
          obtain ⟨rfl, rfl⟩ := hpair
          split at hdescent
          · simp only [Except.ok.injEq, Prod.mk.injEq] at hdescent
            obtain ⟨rfl, -, hclosed⟩ := hdescent
            refine ⟨row', hrow', ?_⟩
            cases hexp : row'.expansion with
            | collapsed => exact .inl rfl
            | failed id error => exact .inr ⟨id, error, rfl⟩
            | loading id => simp [hexp] at hclosed
            | expanded id => simp [hexp] at hclosed
          · simp at hdescent
    · simp at h
  | activateSelected =>
    obtain ⟨index, -, h⟩ := Option.bind_eq_some_iff.mp h
    split at h
    · simp at h
    · next row hrow =>
      split at h
      · next hboth =>
        obtain rfl := Option.some.inj h
        exact ⟨row, hrow, .inl hboth.2⟩
      · simp at h
  | _ => simp [opens] at h

theorem moves_descendFilter (hmay : ∀ i, c.opens .descendFilter = some i → may c i)
    (h : c.descendFilter = some c') : Moves may c c' := by
  unfold descendFilter at h
  split at h
  · obtain rfl := Option.some.inj h
    exact .refl _
  · next filter hfilter =>
    split at h
    · obtain rfl := Option.some.inj h
      exact (looks_filter c _).moves
    · next index path closed hdescent =>
      obtain ⟨c₁, h₁, rfl⟩ := Option.map_eq_some_iff.mp h
      have hlast := (looks_filter c₁ (some
        { filter.adoptFilled with
          query := []
          descents := filter.adoptFilled.descents ++
            [{ path, query := filter.adoptFilled.query, opened := closed }] })).follow
      cases closed with
      | false =>
        obtain rfl := Option.some.inj h₁
        exact hlast.moves
      | true =>
        have hopens : c.opens .descendFilter = some index := by
          rw [opens, hfilter, Option.map_some, hdescent]
        exact .trans (.single (a := .expand index) (hmay index hopens) h₁) hlast.moves

theorem moves_activateSelected (hmay : ∀ i, c.opens .activateSelected = some i → may c i)
    (h : c.activateSelected = some c') : Moves may c c' := by
  unfold activateSelected at h
  split at h
  · obtain rfl := Option.some.inj h
    exact .refl _
  · next index hindex =>
    simp only [Option.bind_eq_bind, Option.bind_eq_some_iff] at h
    obtain ⟨row, hrow, h⟩ := h
    split at h
    · next hnav =>
      unfold toggleDirectory at h
      simp only [hrow, Option.bind_eq_bind, Option.bind_some] at h
      split at h
      · next hcollapsed =>
        have hopens : c.opens .activateSelected = some index := by
          simp [opens, hindex, hrow, hnav, hcollapsed]
        exact .single (a := .expand index) (hmay index hopens) h
      · exact .single (a := .collapse index) trivial h
    · obtain rfl := Option.some.inj h
      exact .refl _

/-- **Every keystroke is some moves**, and a row it expands is the one it
opens. -/
theorem moves_of_act (may : BrowserContext μ → Nat → Prop) {op : ContextOp}
    (hgen : op.renews → c.generation + 1 < counterLimit)
    (hmay : ∀ i, c.opens op = some i → may c i) (h : c.act op = some c') : Moves may c c' := by
  have some_of {d : BrowserContext μ} (hd : Moves may c d) (h : some d = some c') :
      Moves may c c' := by
    obtain rfl := Option.some.inj h
    exact hd
  have reroots (hgen : c.generation + 1 < counterLimit) (path : PathString) :
      Moves may c (c.changeRootPath path) := .single (a := .reroot path) hgen rfl
  cases op with
  | viewport height => exact some_of (looks_viewport c height).moves h
  | moveSelection down => exact some_of (looks_moveSelection c down).moves h
  | scrollHalfPage down => exact some_of (looks_scrollHalfPage c down).moves h
  | beginFilter => exact some_of (looks_filter c _).moves h
  | extendFilter character => exact some_of (looks_extendFilter c character).moves h
  | shortenFilter => exact moves_shortenFilter h
  | completeFilter => exact some_of (looks_completeFilter c).moves h
  | descendFilter => exact moves_descendFilter hmay h
  | clearFilterEntry => exact moves_clearFilterEntry h
  | submitFilter => exact some_of (looks_submitFilter c).moves h
  | commitFilter => exact some_of (looks_filter c none).moves h
  | abandonFilter => exact moves_abandonFilter h
  | refresh => exact some_of (.single (a := .restart) (hgen trivial) rfl) h
  | enterSelected =>
    refine some_of ?_ h
    unfold enterSelected
    split
    · exact .refl _
    · split
      · exact reroots (hgen trivial) _
      · exact .refl _
  | leave =>
    refine some_of ?_ h
    unfold leave
    split
    · exact .refl _
    · exact reroots (hgen trivial) _
  | activateSelected => exact moves_activateSelected hmay h
  | cancel => exact some_of (.single (a := .cancel) (hgen trivial) rfl) h

end BrowserContext

end FilePeeker.Browser
