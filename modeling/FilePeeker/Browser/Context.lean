import FilePeeker.Browser.Window
import Mathlib.Algebra.Group.Nat.Defs

/-!
# One browsed root in the terminal

`BrowserContext` is the browser of `tui::browser_context`: the tree of rows, the
filter prompt, the viewport, and the listings that were started.  `act` is what a
keystroke does, and `apply` what an event of a listing does; `none` is a panic.

`history` is what was done in passing, for the statements to speak of: each
listing task that was spawned (its handle is its number among them), each that
was aborted, each start of the root, and each row that was expanded or collapsed.
-/

namespace FilePeeker.Browser

variable {μ : Type}

/-- Counters are `u64` and wrap. -/
def counterLimit : Nat := 2 ^ 64

def wrappingSucc (n : Nat) : Nat := (n + 1) % counterLimit

/-- `SCROLL_PADDING`. -/
def scrollPadding : Nat := 1

/-- `LISTING_GROUP`. -/
def listingGroup : Nat := 512

abbrev ContextId := Nat

abbrev Handle := Nat

inductive ListingTarget
  | root
  | directory (parentPath : PathString) (requestId : RequestId)
deriving DecidableEq

inductive ListingResult (μ : Type)
  | entries (entries : List (DirectoryEntry μ))
  | finished
  | failed (error : String)
deriving DecidableEq

structure BrowserContextEvent (μ : Type) where
  contextId : ContextId
  generation : Nat
  target : ListingTarget
  result : ListingResult μ
deriving DecidableEq

/-- What `run_listing` is spawned with. -/
structure Listing where
  path : PathString
  contextId : ContextId
  generation : Nat
  target : ListingTarget
deriving DecidableEq

inductive Happened (μ : Type)
  | spawned (listing : Listing)
  | aborted (handle : Handle)
  | restarted
  | expanded (row : Row μ) (beneath : List (Row μ))
  | collapsed (row : Row μ)
deriving DecidableEq

/-- A directory a `/` stepped into, the query spent on it, and whether that
opened it. -/
structure Descent where
  path : PathString
  query : Text
  opened : Bool
deriving DecidableEq

/-- The filter prompt; the innermost descent is the last. -/
structure Filter where
  query : Text
  filled : Option Text
  warning : Option String
  descents : List Descent
  restorePath : Option PathString
deriving DecidableEq

namespace Filter

def scope (filter : Filter) : Option PathString := filter.descents.getLast?.map Descent.path

/-- What the prompt shows. -/
def displayed (filter : Filter) : Text := filter.filled.getD filter.query

def adoptFilled (filter : Filter) : Filter :=
  { filter with query := filter.displayed, filled := none, warning := none }

end Filter

structure BrowserContext (μ : Type) where
  id : ContextId
  tree : Tree μ
  filter : Option Filter
  viewportOffset : Nat
  viewportHeight : Nat
  rootListingTask : Option Handle
  listingTasks : Table RequestId Handle
  generation : Nat
  nextRequestId : Nat
  history : List (Happened μ)

/-- The rows beneath a row. -/
def Tree.beneath (t : Tree μ) (index : Nat) : List (Row μ) :=
  match t.subtreeEnd index with
  | none => []
  | some stop => (t.rows.take stop).drop (index + 1)

namespace BrowserContext

/-- The listings that were started, by their handles. -/
def listings (c : BrowserContext μ) : List Listing :=
  c.history.filterMap fun
    | .spawned listing => some listing
    | _ => none

def record (c : BrowserContext μ) (happened : List (Happened μ)) : BrowserContext μ :=
  { c with history := c.history ++ happened }

def select (c : BrowserContext μ) (index : Option Nat) : BrowserContext μ :=
  { c with tree := { c.tree with selectedIndex := index } }

/-! ### The listings it starts and stops -/

def abortTreeListings (c : BrowserContext μ) : BrowserContext μ :=
  let c := c.record ((c.rootListingTask.toList ++ c.listingTasks.values).map .aborted)
  { c with rootListingTask := none, listingTasks := ∅ }

def startRootListing (c : BrowserContext μ) : BrowserContext μ :=
  let c := c.abortTreeListings
  let c := { c with tree := c.tree.restart, generation := wrappingSucc c.generation }
  let listing : Listing :=
    { path := c.tree.rootPath
      contextId := c.id
      generation := c.generation
      target := .root }
  let handle := c.listings.length
  let c := c.record [.restarted, .spawned listing]
  { c with rootListingTask := some handle }

/-- `BrowserContext::new`. -/
def new (id : ContextId) (rootPath : PathString) : BrowserContext μ :=
  startRootListing
    { id
      tree := Tree.new rootPath
      filter := none
      viewportOffset := 0
      viewportHeight := 0
      rootListingTask := none
      listingTasks := ∅
      generation := 0
      nextRequestId := 0
      history := [] }

def changeRootPath (c : BrowserContext μ) (rootPath : PathString) : BrowserContext μ :=
  startRootListing { c with tree := c.tree.reroot rootPath, viewportOffset := 0 }

def startDirectoryListing (c : BrowserContext μ) (index : Nat) : Option (BrowserContext μ) := do
  let row ← c.tree.rows[index]?
  let requestId := wrappingSucc c.nextRequestId
  let (tree, path) ← c.tree.beginExpansion index requestId
  let listing : Listing :=
    { path
      contextId := c.id
      generation := c.generation
      target := .directory path requestId }
  let handle := c.listings.length
  let beneath := c.tree.beneath index
  let c := c.record [.expanded row beneath, .spawned listing]
  return { c with
    tree
    nextRequestId := requestId
    listingTasks := c.listingTasks.insert requestId handle }

/-- Takes the tasks of the dropped requests out and aborts them. -/
def abortListings : BrowserContext μ → List RequestId → BrowserContext μ
  | c, [] => c
  | c, requestId :: requestIds =>
    match c.listingTasks.lookup requestId with
    | none => c.abortListings requestIds
    | some handle =>
      let c := c.record [.aborted handle]
      { c with listingTasks := c.listingTasks.erase requestId }.abortListings requestIds

def collapseDirectory (c : BrowserContext μ) (index : Nat) : Option (BrowserContext μ) := do
  let row ← c.tree.rows[index]?
  let (tree, dropped) ← c.tree.collapse index
  return ({ c with tree }.record [.collapsed row]).abortListings dropped

def toggleDirectory (c : BrowserContext μ) (index : Nat) : Option (BrowserContext μ) := do
  let row ← c.tree.rows[index]?
  match row.expansion with
  | .collapsed => c.startDirectoryListing index
  | _ => c.collapseDirectory index

def cancel (c : BrowserContext μ) : BrowserContext μ :=
  { c with generation := wrappingSucc c.generation }.abortTreeListings

/-! ### What a listing sends -/

def applyRootListing (c : BrowserContext μ) : ListingResult μ → BrowserContext μ
  | .entries entries => { c with tree := c.tree.extendRoot entries }
  | .finished => { c with tree := c.tree.finishRoot (.ok ()), rootListingTask := none }
  | .failed error => { c with tree := c.tree.finishRoot (.error error), rootListingTask := none }

def applyDirectoryListing (c : BrowserContext μ) (requestId : RequestId)
    (result : ListingResult μ) :
    Option (BrowserContext μ) :=
  if (c.tree.expandingPath requestId).isNone then some c
  else
    match result with
    | .entries entries => do
      let tree ← c.tree.extendChild requestId entries
      return { c with tree }
    | .finished => do
      let tree ← c.tree.finishChild requestId (.ok ())
      return { c with tree, listingTasks := c.listingTasks.erase requestId }
    | .failed error => do
      let tree ← c.tree.finishChild requestId (.error error)
      return { c with tree, listingTasks := c.listingTasks.erase requestId }

def apply (c : BrowserContext μ) (event : BrowserContextEvent μ) : Option (BrowserContext μ) :=
  if event.contextId ≠ c.id then some c
  else if event.generation = c.generation then
    match event.target with
    | .root => some (c.applyRootListing event.result)
    | .directory _ requestId => c.applyDirectoryListing requestId event.result
  else some c

/-! ### The rows on screen -/

variable [Lowercase]

def visibleRows (c : BrowserContext μ) : VisibleRows :=
  match c.filter with
  | some filter => c.tree.window filter.query filter.scope
  | none => c.tree.unfiltered

/-- The rows one frame displays, and where the selection sits inside them. -/
structure Viewport (μ : Type) where
  rows : List (Row μ)
  selected : Option Nat
  hits : Option Nat

def viewport (c : BrowserContext μ) (height : Nat) : Viewport μ × BrowserContext μ :=
  let c := { c with viewportHeight := height }
  let visible := c.visibleRows
  match (if 0 < height then c.tree.effectiveSelection else none).bind visible.positionOf with
  | none => ({ rows := [], selected := none, hits := visible.hits? }, c)
  | some selected =>
    let padding := min scrollPadding ((height - 1) / 2)
    let maxOffset := visible.len - height
    let offset := min (min c.viewportOffset maxOffset) (selected - padding)
    let bottom := min (selected + padding) (visible.len - 1)
    let offset := if offset + height ≤ bottom then bottom + 1 - height else offset
    let stop := min (offset + height) visible.len
    let rows := (List.range' offset (stop - offset)).filterMap fun position =>
      (visible.row? position).bind (c.tree.rows[·]?)
    ({ rows, selected := some (selected - offset), hits := visible.hits? },
      { c with viewportOffset := offset })

/-- The selected row's name, when the query is what put it on screen. -/
def selectedCandidate (c : BrowserContext μ) : Option Text := do
  let index ← c.tree.effectiveSelection
  if c.visibleRows.matched index then
    let row ← c.tree.rows[index]?
    return row.entry.name.display
  else none

def fillFromSelection (c : BrowserContext μ) : BrowserContext μ :=
  match c.filter with
  | none => c
  | some filter =>
    { c with filter := some { filter with filled := c.selectedCandidate, warning := none } }

def warnFilter (c : BrowserContext μ) (warning : String) : BrowserContext μ :=
  { c with filter := c.filter.map fun filter => { filter with warning := some warning } }

/-- Moves the selection onto a row the query leaves on screen. -/
def followFilter (c : BrowserContext μ) : BrowserContext μ :=
  let visible := c.visibleRows
  match visible.matchPositionOf (c.tree.selectedIndex.getD 0) with
  | none => c
  | some position => c.select (visible.row? position)

def moveSelection (c : BrowserContext μ) (down : Bool) : BrowserContext μ :=
  if c.tree.rows = [] then c.select none
  else
    let visible := c.visibleRows
    match c.tree.effectiveSelection.bind visible.positionOf with
    | none => c
    | some current =>
      let last := visible.len - 1
      let position := if down then min (current + 1) last else current - 1
      (c.select (visible.row? position)).fillFromSelection

def scrollHalfPage (c : BrowserContext μ) (down : Bool) : BrowserContext μ :=
  let visible := c.visibleRows
  match c.tree.effectiveSelection.bind visible.positionOf with
  | none => c
  | some current =>
    if c.viewportHeight = 0 then c
    else
      let distance := max (c.viewportHeight / 2) 1
      let last := visible.len - 1
      let maxOffset := visible.len - c.viewportHeight
      let (viewportOffset, position) :=
        if down then (min (c.viewportOffset + distance) maxOffset, min (current + distance) last)
        else (c.viewportOffset - distance, current - distance)
      ({ c with viewportOffset }.select (visible.row? position)).fillFromSelection

/-! ### The filter prompt -/

def beginFilter (c : BrowserContext μ) : BrowserContext μ :=
  { c with
    filter := some
      { query := []
        filled := none
        warning := none
        descents := []
        restorePath := c.tree.selectedRow.map Row.path } }

def extendFilter (c : BrowserContext μ) (character : Char) : BrowserContext μ :=
  match c.filter with
  | none => c
  | some filter =>
    let filter := filter.adoptFilled
    { c with filter := some { filter with query := filter.query ++ [character] } }.followFilter

/-- Closes what a `/` opened, if its row is still there. -/
def closeDescent (c : BrowserContext μ) (descent : Descent) : Option (BrowserContext μ) :=
  if descent.opened then
    match c.tree.rows.findIdx? fun row => row.path = descent.path && row.entry.navigable with
    | none => some c
    | some index => c.collapseDirectory index
  else some c

/-- Closes them one after the other. -/
def closeDescents : BrowserContext μ → List Descent → Option (BrowserContext μ)
  | c, [] => some c
  | c, descent :: descents => (c.closeDescent descent).bind (·.closeDescents descents)

def abandonFilter (c : BrowserContext μ) : Option (BrowserContext μ) :=
  match c.filter with
  | none => some c
  | some filter => do
    let c ← { c with filter := none }.closeDescents filter.descents.reverse
    let restored := filter.restorePath.bind fun path =>
      c.tree.rows.findIdx? fun row => row.path = path
    return c.select restored

def commitFilter (c : BrowserContext μ) : BrowserContext μ := { c with filter := none }

/-- Steps back out of the last directory a `/` entered. -/
def ascendFilter (c : BrowserContext μ) : Option (BrowserContext μ) :=
  match c.filter with
  | none => some c
  | some filter =>
    match filter.descents.getLast? with
    | none => some c
    | some descent => do
      let filter := { filter with query := descent.query, descents := filter.descents.dropLast }
      let c ← { c with filter := some filter }.closeDescent descent
      return c.followFilter

def shortenFilter (c : BrowserContext μ) : Option (BrowserContext μ) :=
  match c.filter with
  | none => some c
  | some filter =>
    let filter := filter.adoptFilled
    if filter.query ≠ [] then
      some { c with filter := some { filter with query := filter.query.dropLast } }.followFilter
    else if filter.descents = [] then { c with filter := some filter }.abandonFilter
    else { c with filter := some filter }.ascendFilter

/-- How far two names agree. -/
def commonStart : Text → Text → Text
  | a :: name, b :: other => if a = b then a :: commonStart name other else []
  | _, _ => []

/-- The loop of `complete_filter` over the other names. -/
def completionOf : Text → List Text → Option Text
  | completion, [] => some completion
  | completion, name :: names =>
    let completion := commonStart completion name
    if completion = [] then none else completionOf completion names

def completeFilter (c : BrowserContext μ) : BrowserContext μ :=
  match c.filter with
  | none => c
  | some filter =>
    let filter := filter.adoptFilled
    let c := { c with filter := some filter }
    if filter.query = [] then c
    else
      let needle := Lowercase.toLowercase filter.query
      let names := (c.tree.rows.filter fun row =>
        filter.scope ≠ some row.path && inScope row.path filter.scope).map
          fun row => row.entry.name.display
      match names.filter fun name => matchesNeedle name needle with
      | [] => c
      | first :: others =>
        match completionOf first others with
        | none => c
        | some completion =>
          if completion.length ≤ filter.query.length then c
          else
            let filter := { filter with filled := none, warning := none, query := completion }
            { c with filter := some filter }.followFilter

/-- The directory the next `/` would step into: its index, its path, and whether
stepping in opens it; or why there is none. -/
def descent (c : BrowserContext μ) (filter : Filter) : Except String (Nat × PathString × Bool) :=
  if c.selectedCandidate ≠ some filter.displayed then .error "no exact match to open"
  else
    match c.tree.effectiveSelection.bind fun index => c.tree.rows[index]?.map (index, ·) with
    | none => .error "not a directory"
    | some (index, row) =>
      if row.entry.navigable then
        let closed := match row.expansion with
          | .collapsed | .failed .. => true
          | .loading _ | .expanded _ => false
        .ok (index, row.path, closed)
      else .error "not a directory"

def descendFilter (c : BrowserContext μ) : Option (BrowserContext μ) :=
  match c.filter with
  | none => some c
  | some filter =>
    match c.descent filter with
    | .error warning => some (c.warnFilter warning)
    | .ok (index, path, closed) =>
      (if closed then c.startDirectoryListing index else some c).map fun c =>
        let filter := filter.adoptFilled
        let descents := filter.descents ++ [{ path, query := filter.query, opened := closed }]
        { c with filter := some { filter with query := [], descents } }.followFilter

def clearFilterEntry (c : BrowserContext μ) : Option (BrowserContext μ) :=
  match c.filter with
  | none => some c
  | some filter =>
    if filter.displayed ≠ [] then
      let filter := { filter with filled := none, warning := none, query := [] }
      some { c with filter := some filter }.followFilter
    else if filter.descents = [] then c.abandonFilter
    else do
      let c ← c.ascendFilter
      let filter := c.filter.map fun filter => { filter with filled := none, query := [] }
      return { c with filter }.followFilter

def submitFilter (c : BrowserContext μ) : BrowserContext μ :=
  match c.filter with
  | none => c
  | some filter =>
    match c.selectedCandidate with
    | none => c.commitFilter
    | some name => if name ≠ filter.displayed then c.fillFromSelection else c.commitFilter

/-! ### The other keys -/

def refresh (c : BrowserContext μ) : BrowserContext μ := c.startRootListing

def enterSelected (c : BrowserContext μ) : BrowserContext μ :=
  match c.tree.selectedRow with
  | none => c
  | some row => if row.entry.navigable then c.changeRootPath row.path else c

def leave (c : BrowserContext μ) : BrowserContext μ :=
  match Path.parent c.tree.rootPath.escaped with
  | none => c
  | some parent =>
    c.changeRootPath ⟨if parent.bytes = [] then ⟨[dot], .singleton (by decide)⟩ else parent⟩

def activateSelected (c : BrowserContext μ) : Option (BrowserContext μ) :=
  match c.tree.effectiveSelection with
  | none => some c
  | some index => do
    let row ← c.tree.rows[index]?
    if row.entry.navigable then c.toggleDirectory index else some c

end BrowserContext

/-- What the user and the terminal do to a browser. -/
inductive ContextOp
  | viewport (height : Nat)
  | moveSelection (down : Bool)
  | scrollHalfPage (down : Bool)
  | beginFilter
  | extendFilter (character : Char)
  | shortenFilter
  | completeFilter
  | descendFilter
  | clearFilterEntry
  | submitFilter
  | commitFilter
  | abandonFilter
  | refresh
  | enterSelected
  | leave
  | activateSelected
  | cancel
deriving DecidableEq

/-- The keys that start a new generation. -/
def ContextOp.renews : ContextOp → Prop
  | .refresh | .enterSelected | .leave | .cancel => True
  | _ => False

instance (op : ContextOp) : Decidable op.renews := by
  cases op <;> first | exact .isTrue trivial | exact .isFalse id

def BrowserContext.act [Lowercase] (c : BrowserContext μ) : ContextOp → Option (BrowserContext μ)
  | .viewport height => some (c.viewport height).2
  | .moveSelection down => some (c.moveSelection down)
  | .scrollHalfPage down => some (c.scrollHalfPage down)
  | .beginFilter => some c.beginFilter
  | .extendFilter character => some (c.extendFilter character)
  | .shortenFilter => c.shortenFilter
  | .completeFilter => some c.completeFilter
  | .descendFilter => c.descendFilter
  | .clearFilterEntry => c.clearFilterEntry
  | .submitFilter => some c.submitFilter
  | .commitFilter => some c.commitFilter
  | .abandonFilter => c.abandonFilter
  | .refresh => some c.refresh
  | .enterSelected => some c.enterSelected
  | .leave => some c.leave
  | .activateSelected => c.activateSelected
  | .cancel => some c.cancel

end FilePeeker.Browser
