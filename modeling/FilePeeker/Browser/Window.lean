import FilePeeker.Browser.Tree
import FilePeeker.Path.Reading
import Mathlib.Data.List.Infix

/-!
# Which rows a filter leaves on screen

`VisibleRows` and `Tree.window` of `browser::window` and `browser::tree`.  A
filter takes no rows out: it is a window over them, by their indices.

How text is put in lower case is left open (`Lowercase`): nothing here depends on
Unicode's tables.
-/

namespace FilePeeker

/-- `str::to_lowercase`. -/
class Lowercase where
  toLowercase : Text → Text

/-- Text in lower case, as far as it is ASCII. -/
@[reducible] def asciiLowercase : Lowercase := ⟨List.map Char.toLower⟩

namespace Browser

variable {μ : Type}

structure VisibleRow where
  row : Nat
  /-- False for a row on screen only to place a match underneath it. -/
  matched : Bool
deriving DecidableEq, Repr

inductive VisibleRows
  | all (count : Nat)
  | filtered (rows : List VisibleRow) (hits : Nat)
deriving DecidableEq, Repr

/-- The position `row` would take among visible rows. -/
def startOf (rows : List VisibleRow) (row : Nat) : Nat :=
  (rows.takeWhile fun visible => visible.row < row).length

namespace VisibleRows

def len : VisibleRows → Nat
  | all count => count
  | filtered rows _ => rows.length

def hits? : VisibleRows → Option Nat
  | all _ => none
  | filtered _ hits => some hits

def row? : VisibleRows → Nat → Option Nat
  | all count, position => if position < count then some position else none
  | filtered rows _, position => rows[position]?.map VisibleRow.row

/-- Where `row` sits, or the nearest visible row after it. -/
def positionOf (visible : VisibleRows) (row : Nat) : Option Nat :=
  if visible.len = 0 then none
  else
    let last := visible.len - 1
    match visible with
    | all _ => some (min row last)
    | filtered rows _ => some (min (startOf rows row) last)

/-- Whether `row` is on screen because it matched. -/
def matched : VisibleRows → Nat → Bool
  | all _, _ => true
  | filtered rows _, row =>
    match rows[startOf rows row]? with
    | none => false
    | some visible => visible.row = row && visible.matched

/-- Where the nearest match at or after `row` sits, or else the last match. -/
def matchPositionOf : VisibleRows → Nat → Option Nat
  | all count, row => (all count).positionOf row
  | filtered rows _, row =>
    let start := startOf rows row
    match (rows.drop start).findIdx? VisibleRow.matched with
    | some offset => some (start + offset)
    | none => (rows.reverse.findIdx? VisibleRow.matched).map fun offset => rows.length - 1 - offset

end VisibleRows

/-- A case-insensitive substring; the needle arrives lowercased. -/
def matchesNeedle [Lowercase] (name needle : Text) : Bool :=
  needle <:+: Lowercase.toLowercase name

def inScope (path : PathString) (scope : Option PathString) : Bool :=
  match scope with
  | none => true
  | some scope => Path.startsWith path.escaped.bytes scope.escaped.bytes

namespace Tree

/-- What `window` has put on screen so far, and the rows the next one may be
beneath, each with whether it is on screen. -/
structure Window where
  rows : List VisibleRow
  hits : Nat
  ancestors : List (Nat × Bool)

/-- One row of the tree in the loop of `window`. -/
def Window.next [Lowercase] (needle : Option Text) (scope : Option PathString) (w : Window)
    (index : Nat) (row : Row μ) : Window :=
  let ancestors := w.ancestors.take row.depth
  let entered := scope = some row.path
  let hit := !entered && inScope row.path scope &&
    match needle with
    | none => true
    | some needle => matchesNeedle row.entry.name.display needle
  if hit || entered then
    let above := (ancestors.filter fun ancestor => !ancestor.2).map fun ancestor =>
      { row := ancestor.1, matched := false }
    { rows := w.rows ++ above ++ [{ row := index, matched := hit }]
      hits := w.hits + if hit then 1 else 0
      ancestors := ancestors.map (fun ancestor => (ancestor.1, true)) ++ [(index, true)] }
  else { w with ancestors := ancestors ++ [(index, false)] }

/-- The rows a query leaves on screen, with the ancestors of each. -/
def window [Lowercase] (t : Tree μ) (query : Text) (scope : Option PathString) : VisibleRows :=
  let needle := if query = [] then none else some (Lowercase.toLowercase query)
  if needle.isNone && scope.isNone then .all t.rows.length
  else
    let start : Window := { rows := [], hits := 0, ancestors := [] }
    let w := t.rows.zipIdx.foldl (fun w row => w.next needle scope row.2 row.1) start
    .filtered w.rows w.hits

def unfiltered (t : Tree μ) : VisibleRows := .all t.rows.length

end Tree

end Browser

end FilePeeker
