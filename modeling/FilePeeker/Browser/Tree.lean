import FilePeeker.Lib.Table
import FilePeeker.Path.PathString

/-!
# The rows of one browsed root

`Tree` is `browser::Tree`: rows in pre-order, and where the next group of each
directory that is still being listed goes in.  An operation that would index out
of bounds gives `none`: that is a panic.

An entry's `metadata` is a parameter, for nothing in the browser reads it.
-/

namespace FilePeeker.Browser

variable {μ : Type}

/-- `u16::MAX`: a depth is a `u16`. -/
def maxDepth : Nat := 65535

/-- `depth.saturating_add(1)`. -/
def depthBelow (depth : Nat) : Nat := min (depth + 1) maxDepth

abbrev RequestId := Nat

inductive EntryKind
  | file
  | directory
  | symlink
  | other
deriving DecidableEq, Repr

structure DirectoryEntry (μ : Type) where
  name : PathString
  kind : EntryKind
  navigable : Bool
  metadata : μ
  defect : Option String
deriving DecidableEq

inductive Status
  | loading
  | complete
  | failed (error : String)
deriving DecidableEq, Repr

inductive Expansion
  | collapsed
  | loading (requestId : RequestId)
  | expanded (requestId : RequestId)
  | failed (requestId : RequestId) (error : String)
deriving DecidableEq, Repr

def Expansion.requestId : Expansion → Option RequestId
  | collapsed => none
  | loading requestId => some requestId
  | expanded requestId => some requestId
  | failed requestId _ => some requestId

structure Row (μ : Type) where
  path : PathString
  depth : Nat
  entry : DirectoryEntry μ
  expansion : Expansion
deriving DecidableEq

def Row.new (path : PathString) (depth : Nat) (entry : DirectoryEntry μ) : Row μ :=
  { path, depth, entry, expansion := .collapsed }

def childPath (parent name : PathString) : PathString := parent.join name

/-- Where a still-loading expansion's next group of children lands. -/
structure Placement where
  parent : Nat
  depth : Nat
  insertion : Nat
deriving DecidableEq, Repr

structure Tree (μ : Type) where
  rootPath : PathString
  rows : List (Row μ)
  placements : Table RequestId Placement
  selectedIndex : Option Nat
  status : Status

/-- `placements_after_insertion`, of one placement. -/
def Placement.afterInsertion (insertionIndex count : Nat) (depth : Nat) (placement : Placement) :
    Placement :=
  if insertionIndex ≤ placement.parent then
    { placement with
      parent := placement.parent + count
      insertion := placement.insertion + count }
  else if insertionIndex < placement.insertion ∨
      insertionIndex = placement.insertion ∧ placement.depth ≤ depth then
    { placement with insertion := placement.insertion + count }
  else placement

/-- `placements_after_removal`, of one placement. -/
def Placement.afterRemoval (start stop : Nat) (placement : Placement) : Placement :=
  let count := stop - start
  if stop ≤ placement.parent then
    { placement with
      parent := placement.parent - count
      insertion := placement.insertion - count }
  else if stop ≤ placement.insertion then
    { placement with insertion := placement.insertion - count }
  else if start < placement.insertion then
    { placement with insertion := start }
  else placement

/-- Takes the placements of `requestIds` out, and keeps the ids that had one. -/
def dropPlacements : Table RequestId Placement → List RequestId →
    Table RequestId Placement × List RequestId
  | placements, [] => (placements, [])
  | placements, requestId :: requestIds =>
    match placements.lookup requestId with
    | none => dropPlacements placements requestIds
    | some _ =>
      let dropped := dropPlacements (placements.erase requestId) requestIds
      (dropped.1, requestId :: dropped.2)

namespace Tree

def new (rootPath : PathString) : Tree μ :=
  { rootPath, rows := [], placements := ∅, selectedIndex := none, status := .loading }

def placementsAfterInsertion (t : Tree μ) (insertionIndex count : Nat) (depth : Nat) : Tree μ :=
  { t with placements := t.placements.map (Placement.afterInsertion insertionIndex count depth) }

def placementsAfterRemoval (t : Tree μ) (start stop : Nat) : Tree μ :=
  { t with placements := t.placements.map (Placement.afterRemoval start stop) }

/-- The first row until one is chosen, the last once the tree has shrunk past
the chosen one. -/
def effectiveSelection (t : Tree μ) : Option Nat :=
  if t.rows.isEmpty then none else some (min (t.selectedIndex.getD 0) (t.rows.length - 1))

def selectedRow (t : Tree μ) : Option (Row μ) := t.effectiveSelection.bind (t.rows[·]?)

def clampSelection (t : Tree μ) : Tree μ :=
  { t with
    selectedIndex :=
      match t.selectedIndex, t.rows.length with
      | _, 0 => none
      | some index, length + 1 => some (min index length)
      | none, _ + 1 => some 0 }

def restart (t : Tree μ) : Tree μ :=
  { t with rows := [], placements := ∅, status := .loading }

def reroot (t : Tree μ) (rootPath : PathString) : Tree μ :=
  restart { t with rootPath, selectedIndex := none }

def extendRoot (t : Tree μ) (entries : List (DirectoryEntry μ)) : Tree μ :=
  let insertionIndex := t.rows.length
  let count := entries.length
  let rows := entries.map fun entry => Row.new (childPath t.rootPath entry.name) 0 entry
  let t := { t with rows := t.rows ++ rows }
  let t := t.placementsAfterInsertion insertionIndex count 0
  if t.selectedIndex.isNone && !t.rows.isEmpty then { t with selectedIndex := some 0 } else t

def finishRoot (t : Tree μ) (result : Except String Unit) : Tree μ :=
  clampSelection
    { t with
      status :=
        match result with
        | .ok () => .complete
        | .error error => .failed error }

/-- The row an in-flight expansion is filling. -/
def expandingPath (t : Tree μ) (requestId : RequestId) : Option PathString := do
  let placement ← t.placements.lookup requestId
  let row ← t.rows[placement.parent]?
  return row.path

def extendChild (t : Tree μ) (requestId : RequestId) (entries : List (DirectoryEntry μ)) :
    Option (Tree μ) :=
  match t.placements.lookup requestId with
  | none => some t
  | some placement => do
    let count := entries.length
    let insertionIndex := placement.insertion
    let selectedIndex := t.selectedIndex.map fun selectedIndex =>
      if insertionIndex ≤ selectedIndex then selectedIndex + count else selectedIndex
    let parent ← t.rows[placement.parent]?
    let rows := entries.map fun entry =>
      Row.new (childPath parent.path entry.name) placement.depth entry
    if t.rows.length < insertionIndex then none
    else
      let t :=
        { t with
          selectedIndex
          rows := t.rows.take insertionIndex ++ rows ++ t.rows.drop insertionIndex }
      return t.placementsAfterInsertion insertionIndex count placement.depth

def finishChild (t : Tree μ) (requestId : RequestId) (result : Except String Unit) :
    Option (Tree μ) :=
  match t.placements.lookup requestId with
  | none => some t
  | some placement => do
    let parent ← t.rows[placement.parent]?
    let expansion :=
      match result with
      | .ok () => .expanded requestId
      | .error error => .failed requestId error
    return clampSelection
      { t with
        placements := t.placements.erase requestId
        rows := t.rows.set placement.parent { parent with expansion } }

/-- Marks a row as loading, and reports the path to list. -/
def beginExpansion (t : Tree μ) (index : Nat) (requestId : RequestId) :
    Option (Tree μ × PathString) := do
  let row ← t.rows[index]?
  let placement :=
    { parent := index
      depth := depthBelow row.depth
      insertion := index + 1 }
  return (
    { t with
      rows := t.rows.set index { row with expansion := .loading requestId }
      placements := t.placements.insert requestId placement },
    row.path)

def subtreeEnd (t : Tree μ) (index : Nat) : Option Nat := do
  let row ← t.rows[index]?
  let rest := t.rows.drop (index + 1)
  return match rest.findIdx? (fun other => other.depth ≤ row.depth) with
    | none => t.rows.length
    | some offset => index + 1 + offset

/-- Closes a row's subtree, and reports the expansions that went with it. -/
def collapse (t : Tree μ) (index : Nat) : Option (Tree μ × List RequestId) := do
  let row ← t.rows[index]?
  let stop ← t.subtreeEnd index
  let requestIds := ((t.rows.take stop).drop index).filterMap fun row => row.expansion.requestId
  let dropped := dropPlacements t.placements requestIds
  let rows := t.rows.take (index + 1) ++ t.rows.drop stop
  let t := { t with placements := dropped.1, rows }
  let t := t.placementsAfterRemoval (index + 1) stop
  let t :=
    { t with
      rows := t.rows.set index { row with expansion := .collapsed }
      selectedIndex := some index }
  return (t, dropped.2)

end Tree

end FilePeeker.Browser
