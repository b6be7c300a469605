import FilePeeker.Browser.Tree
import Mathlib.Algebra.Group.Nat.Defs

/-!
# The desktop application

`App` is the bridge of `gui::app` between the dock's browsers and their listings.
A listing runs as a task and sends its entries, a group at a time, on one bounded
channel; `drain` applies what is there.  `step` is one thing that happens: the
user asks for something, a task sends, the application takes one event off the
channel, or a tab is closed.  `none` is a panic, or what cannot happen.

`listings` is what every task was spawned with; a task is named by its number
among them.  The application itself keeps no such name: an event only says which
browser it is for, and which of that browser's requests.
-/

namespace FilePeeker.Gui

open FilePeeker.Browser (DirectoryEntry RequestId)

variable {μ : Type}

/-- `LISTING_GROUP`. -/
def listingGroup : Nat := 512

/-- `EVENT_CAPACITY`. -/
def eventCapacity : Nat := 64

/-- Ids are `u64`. -/
def idLimit : Nat := 2 ^ 64

abbrev BrowserId := Nat

/-- Which listing an event belongs to: a browser's root, or one expansion of it. -/
inductive Request
  | root
  | child (id : RequestId)
deriving DecidableEq

inductive Event (μ : Type)
  | entries (browser : BrowserId) (request : Request) (entries : List (DirectoryEntry μ))
  | finished (browser : BrowserId) (request : Request) (result : Except String Unit)

structure Browser (μ : Type) where
  tree : Browser.Tree μ
  id : BrowserId

inductive Action
  | toggle (browser : BrowserId) (row : Nat)
  | enter (browser : BrowserId) (path : PathString)
deriving DecidableEq

/-- What `spawn_listing` is called with. -/
structure Listing where
  browser : BrowserId
  request : Request
  path : PathString
deriving DecidableEq

/-- What a listing reports: some entries, or how it ended. -/
inductive Report (μ : Type)
  | entries (entries : List (DirectoryEntry μ))
  | finished (result : Except String Unit)

namespace Report

def terminal : Report μ → Bool
  | entries _ => false
  | finished _ => true

def group : Report μ → List (DirectoryEntry μ)
  | entries group => group
  | finished _ => []

/-- A group is not empty, and not too long. -/
def Sendable : Report μ → Prop
  | entries group => group ≠ [] ∧ group.length ≤ listingGroup
  | finished _ => True

instance : (report : Report μ) → Decidable report.Sendable
  | entries group => match group with
    | [] => .isFalse fun h => h.1 rfl
    | entry :: group =>
      decidable_of_iff ((entry :: group).length ≤ listingGroup) ⟨fun h => ⟨by simp, h⟩, And.right⟩
  | finished _ => .isTrue trivial

end Report

def Listing.event (listing : Listing) : Report μ → Event μ
  | .entries entries => .entries listing.browser listing.request entries
  | .finished result => .finished listing.browser listing.request result

/-- A report, with the task that made it. -/
structure Sent (μ : Type) where
  handle : Nat
  listing : Listing
  report : Report μ

structure App (μ : Type) where
  dock : List (Browser μ)
  nextId : Nat
  listings : List Listing

namespace App

/-- `App::id`. -/
def newId (app : App μ) : App μ := { app with nextId := (app.nextId + 1) % idLimit }

def browser (app : App μ) (id : BrowserId) : Option (Browser μ) :=
  app.dock.find? fun tab => tab.id = id

/-- What is done to the first tab of this id, if there is one. -/
def changeTab (f : Browser.Tree μ → Option (Browser.Tree μ)) (id : BrowserId) :
    List (Browser μ) → Option (List (Browser μ))
  | [] => some []
  | tab :: tabs =>
    if tab.id = id then (f tab.tree).map fun tree => { tab with tree } :: tabs
    else (changeTab f id tabs).map (tab :: ·)

def change (app : App μ) (id : BrowserId) (f : Browser.Tree μ → Option (Browser.Tree μ)) :
    Option (App μ) :=
  (changeTab f id app.dock).map fun dock => { app with dock }

def spawnListing (app : App μ) (browser : BrowserId) (request : Request) (path : PathString) :
    App μ := { app with listings := app.listings ++ [{ browser, request, path }] }

def startRoot (app : App μ) (browser : BrowserId) : App μ :=
  match app.browser browser with
  | none => app
  | some tab => app.spawnListing browser .root tab.tree.rootPath

/-- `App::new`. -/
def new (root : PathString) : App μ :=
  startRoot { dock := [{ tree := Browser.Tree.new root, id := 1 }], nextId := 2, listings := [] } 1

end App

/-- What one event does to its browser's tree. -/
def Event.applyTo (tree : Browser.Tree μ) : Event μ → Option (Browser.Tree μ)
  | .entries _ .root group => some (tree.extendRoot group)
  | .entries _ (.child id) group => tree.extendChild id group
  | .finished _ .root result => some (tree.finishRoot result)
  | .finished _ (.child id) result => tree.finishChild id result

def Event.browser : Event μ → BrowserId
  | .entries browser _ _ => browser
  | .finished browser _ _ => browser

/-- Opens a closed directory or closes an open one, and reports the path to list
when it opens.  A failed one is closed and opened again. -/
def toggle (tree : Browser.Tree μ) (index : Nat) (request : RequestId) :
    Option (Browser.Tree μ × Option PathString) :=
  match tree.rows[index]? with
  | none => some (tree, none)
  | some row =>
    if row.entry.navigable then
      match row.expansion with
      | .collapsed => do
        let (tree, path) ← tree.beginExpansion index request
        return (tree, some path)
      | .failed .. => do
        let (tree, _) ← tree.collapse index
        let (tree, path) ← tree.beginExpansion index request
        return (tree, some path)
      | .loading _ | .expanded _ => do
        let (tree, _) ← tree.collapse index
        return (tree, none)
    else some (tree, none)

namespace App

/-- The body of `drain`, of one event. -/
def receive (app : App μ) (event : Event μ) : Option (App μ) :=
  app.change event.browser event.applyTo

def apply (app : App μ) : Action → Option (App μ)
  | .toggle browser row =>
    let app := app.newId
    let request := app.nextId
    match app.browser browser with
    | none => some app
    | some tab => do
      let (tree, path) ← toggle tab.tree row request
      let app ← app.change browser fun _ => some tree
      return match path with
        | none => app
        | some path => app.spawnListing browser (.child request) path
  | .enter browser path => do
    let app ← app.change browser fun tree => some (tree.reroot path)
    return app.startRoot browser

end App

/-- The application and its channel. -/
structure World (μ : Type) where
  app : App μ
  incoming : List (Sent μ)
  /-- What was taken off the channel. -/
  delivered : List (Sent μ)

inductive WorldAct (μ : Type)
  | action (action : Action)
  | select (browser : BrowserId) (index : Option Nat)
  | close (browser : BrowserId)
  | send (handle : Nat) (report : Report μ)
  | receive

namespace World

def new (root : PathString) : World μ := { app := .new root, incoming := [], delivered := [] }

/-- All that was sent, in order. -/
def sent (w : World μ) : List (Sent μ) := w.delivered ++ w.incoming

/-- The listing has sent how it ended. -/
def hasEnded (w : World μ) (handle : Nat) : Bool :=
  w.sent.any fun s => s.handle = handle && s.report.terminal

def step (w : World μ) : WorldAct μ → Option (World μ)
  | .action action => (w.app.apply action).map fun app => { w with app }
  | .select browser index =>
    (w.app.change browser fun tree => some { tree with selectedIndex := index }).map
      fun app => { w with app }
  | .close browser =>
    some { w with app := { w.app with dock := w.app.dock.filter fun tab => tab.id ≠ browser } }
  | .send handle report =>
    match w.app.listings[handle]? with
    | none => none
    | some listing =>
      if w.hasEnded handle = false ∧ report.Sendable ∧ w.incoming.length < eventCapacity then
        some { w with incoming := w.incoming ++ [{ handle, listing, report }] }
      else none
  | .receive =>
    match w.incoming with
    | [] => none
    | s :: incoming => (w.app.receive (s.listing.event s.report)).map fun app =>
      { app, incoming, delivered := w.delivered ++ [s] }

end World

end FilePeeker.Gui
