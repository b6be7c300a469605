import FilePeeker.Browser.Moves
import FilePeeker.Browser.Refines

/-!
# A browser and the listings it started

`World` is a browser with the channel its listing tasks send on.  A task sends
groups of entries and then how it ended; it may be as late as it likes, and may go
on for a while after it was aborted.  The browser takes what was sent in the order
it was sent, and between any two of these the user may press any key.
-/

namespace FilePeeker.Browser

variable {μ : Type}

namespace ListingResult

def terminal : ListingResult μ → Bool
  | .entries _ => false
  | .finished | .failed _ => true

/-- The entries of a group. -/
def group : ListingResult μ → List (DirectoryEntry μ)
  | .entries group => group
  | .finished | .failed _ => []

/-- What `run_listing` sends: a group is not empty, and not too long. -/
def Sendable (result : ListingResult μ) : Prop :=
  result.terminal = true ∨ 0 < result.group.length ∧ result.group.length ≤ listingGroup

instance (result : ListingResult μ) : Decidable result.Sendable :=
  inferInstanceAs (Decidable (_ ∨ _))

end ListingResult

def Listing.event (listing : Listing) (result : ListingResult μ) : BrowserContextEvent μ :=
  { contextId := listing.contextId
    generation := listing.generation
    target := listing.target
    result }

/-- What an event is to the tree. -/
def BrowserContextEvent.op (event : BrowserContextEvent μ) : TreeOp μ :=
  match event.target, event.result with
  | .root, .entries entries => .extendRoot entries
  | .root, .finished => .finishRoot (.ok ())
  | .root, .failed error => .finishRoot (.error error)
  | .directory _ requestId, .entries entries => .extendChild requestId entries
  | .directory _ requestId, .finished => .finishChild requestId (.ok ())
  | .directory _ requestId, .failed error => .finishChild requestId (.error error)

/-- An event, with the listing task that sent it. -/
structure Sent (μ : Type) where
  handle : Handle
  event : BrowserContextEvent μ

structure World (μ : Type) where
  context : BrowserContext μ
  channel : List (Sent μ)
  /-- What was taken off the channel. -/
  delivered : List (Sent μ)

inductive WorldAct (μ : Type)
  | key (op : ContextOp)
  | send (handle : Handle) (result : ListingResult μ)
  | receive

namespace World

def new (id : ContextId) (rootPath : PathString) : World μ :=
  { context := .new id rootPath, channel := [], delivered := [] }

/-- All that was sent, in order. -/
def sent (w : World μ) : List (Sent μ) := w.delivered ++ w.channel

/-- The listing has sent how it ended. -/
def hasEnded (w : World μ) (handle : Handle) : Bool :=
  w.sent.any fun s => s.handle = handle && s.event.result.terminal

def step [Lowercase] (w : World μ) : WorldAct μ → Option (World μ)
  | .key op => (w.context.act op).map fun context => { w with context }
  | .send handle result =>
    match w.context.listings[handle]? with
    | none => none
    | some listing =>
      if w.hasEnded handle = false ∧ result.Sendable then
        some { w with channel := w.channel ++ [{ handle, event := listing.event result }] }
      else none
  | .receive =>
    match w.channel with
    | [] => none
    | s :: channel => (w.context.apply s.event).map fun context =>
      { context, channel, delivered := w.delivered ++ [s] }

end World

/-! ### What happened since a listing was started -/

/-- The listings that were started. -/
def spawned (history : List (Happened μ)) : List Listing :=
  history.filterMap fun
    | .spawned listing => some listing
    | _ => none

/-- What happened after the listing of this number was started. -/
def since : List (Happened μ) → Handle → List (Happened μ)
  | [], _ => []
  | .spawned _ :: history, 0 => history
  | .spawned _ :: history, handle + 1 => since history handle
  | .aborted _ :: history, handle => since history handle
  | .restarted :: history, handle => since history handle
  | .expanded .. :: history, handle => since history handle
  | .collapsed _ :: history, handle => since history handle

variable {history more : List (Happened μ)} {handle : Handle}

theorem listings_eq (c : BrowserContext μ) : c.listings = spawned c.history := rfl

@[simp] theorem spawned_append : spawned (history ++ more) = spawned history ++ spawned more :=
  List.filterMap_append

@[simp] theorem spawned_aborted (handles : List Handle) :
    spawned (handles.map (Happened.aborted (μ := μ))) = [] := by
  induction handles with
  | nil => rfl
  | cons handle handles ih => exact ih

theorem since_append : ∀ {history : List (Happened μ)} {handle : Handle},
    handle < (spawned history).length →
      since (history ++ more) handle = since history handle ++ more := by
  intro history
  induction history with
  | nil => intro handle h; exact absurd h (Nat.not_lt_zero _)
  | cons happened history ih =>
    intro handle h
    cases happened with
    | spawned listing =>
      cases handle with
      | zero => rfl
      | succ handle => exact ih (Nat.lt_of_succ_lt_succ h)
    | aborted _ => exact ih h
    | restarted => exact ih h
    | expanded _ _ => exact ih h
    | collapsed _ => exact ih h

/-- Nothing has happened yet since the last listing was started. -/
theorem since_last (history : List (Happened μ)) (listing : Listing) :
    since (history ++ [.spawned listing]) (spawned history).length = [] := by
  induction history with
  | nil => rfl
  | cons happened history ih =>
    cases happened with
    | spawned listing' => exact ih
    | aborted _ => exact ih
    | restarted => exact ih
    | expanded _ _ => exact ih
    | collapsed _ => exact ih

/-! ### What each move does -/

namespace BrowserContext

variable {c c' : BrowserContext μ} {i : Nat}

/-- What a move leaves as it is. -/
structure Kept (c c' : BrowserContext μ) : Prop where
  id : c'.id = c.id
  nextRequestId : c'.nextRequestId = c.nextRequestId

theorem abortListings_spec : ∀ (ids : List RequestId) (c : BrowserContext μ),
    (c.abortListings ids).tree = c.tree ∧ (c.abortListings ids).generation = c.generation ∧
      Kept c (c.abortListings ids) ∧
      ∃ handles : List Handle, (c.abortListings ids).history = c.history ++ handles.map .aborted := by
  intro ids
  induction ids with
  | nil => intro c; exact ⟨rfl, rfl, ⟨rfl, rfl⟩, [], by simp [abortListings]⟩
  | cons id ids ih =>
    intro c
    rw [abortListings]
    split
    · exact ih c
    · next handle _ =>
      obtain ⟨htree, hgen, hkept, handles, hhist⟩ :=
        ih { c.record [.aborted handle] with listingTasks := c.listingTasks.erase id }
      refine ⟨htree, hgen, ⟨hkept.id, hkept.nextRequestId⟩, handle :: handles, hhist.trans ?_⟩
      show c.history ++ [.aborted handle] ++ handles.map .aborted = _
      rw [List.append_assoc, List.singleton_append, List.map_cons]

/-- A row is collapsed. -/
theorem collapseDirectory_spec (h : c.collapseDirectory i = some c') :
    ∃ row ids, c.tree.rows[i]? = some row ∧ c.tree.collapse i = some (c'.tree, ids) ∧
      c'.generation = c.generation ∧ Kept c c' ∧
      ∃ handles : List Handle, c'.history = c.history ++ .collapsed row :: handles.map .aborted := by
  simp only [collapseDirectory, Option.bind_eq_bind, Option.bind_eq_some_iff] at h
  obtain ⟨row, hrow, ⟨tree, ids⟩, hcollapse, h⟩ := h
  obtain rfl := Option.some.inj h
  obtain ⟨htree, hgen, hkept, handles, hhist⟩ :=
    abortListings_spec ids ({ c with tree }.record [.collapsed row])
  refine ⟨row, ids, hrow, ?_, hgen, ⟨hkept.id, hkept.nextRequestId⟩, handles, ?_⟩
  · rw [hcollapse, htree]
    rfl
  · rw [hhist]
    simp [record]

/-- The request a row would be expanded with. -/
def freshId (c : BrowserContext μ) : RequestId := wrappingSucc c.nextRequestId

/-- A row is expanded. -/
theorem startDirectoryListing_spec (h : c.startDirectoryListing i = some c') :
    ∃ row, c.tree.rows[i]? = some row ∧
      c.tree.beginExpansion i c.freshId = some (c'.tree, row.path) ∧
      c'.generation = c.generation ∧ c'.id = c.id ∧ c'.nextRequestId = c.freshId ∧
      c'.history = c.history ++ [.expanded row (c.tree.beneath i), .spawned
        { path := row.path
          contextId := c.id
          generation := c.generation
          target := .directory row.path c.freshId }] := by
  simp only [startDirectoryListing, Option.bind_eq_bind, Option.bind_eq_some_iff] at h
  obtain ⟨row, hrow, ⟨tree, path⟩, hbegin, h⟩ := h
  obtain rfl := Option.some.inj h
  obtain ⟨t', heq, -⟩ := Tree.beginExpansion_spec c.freshId hrow
  have hpath : path = row.path := by
    rw [freshId, hbegin, Option.some.injEq, Prod.mk.injEq] at heq
    exact heq.2
  subst hpath
  exact ⟨row, hrow, hbegin, rfl, rfl, rfl, rfl⟩

/-- The root is listed, from nothing. -/
structure Restarted (c c' : BrowserContext μ) : Prop where
  rows : c'.tree.rows = []
  placements : c'.tree.placements = ∅
  generation : c'.generation = wrappingSucc c.generation
  kept : Kept c c'
  history : ∃ handles : List Handle, c'.history = c.history ++ handles.map .aborted ++ [.restarted, .spawned
    { path := c'.tree.rootPath
      contextId := c.id
      generation := c'.generation
      target := .root }]
  status : c'.tree.status = .loading

theorem restarted_startRootListing (c : BrowserContext μ) : Restarted c c.startRootListing :=
  ⟨rfl, rfl, rfl, ⟨rfl, rfl⟩, ⟨c.rootListingTask.toList ++ c.listingTasks.values, by
    simp [startRootListing, abortTreeListings, record]⟩, rfl⟩

theorem restarted_changeRootPath (c : BrowserContext μ) (rootPath : PathString) :
    Restarted c (c.changeRootPath rootPath) :=
  ⟨rfl, rfl, rfl, ⟨rfl, rfl⟩, ⟨c.rootListingTask.toList ++ c.listingTasks.values, by
    simp [changeRootPath, startRootListing, abortTreeListings, record]⟩, rfl⟩

theorem cancel_spec (c : BrowserContext μ) : c.cancel.tree = c.tree ∧
    c.cancel.generation = wrappingSucc c.generation ∧ Kept c c.cancel ∧
    ∃ handles : List Handle, c.cancel.history = c.history ++ handles.map .aborted :=
  ⟨rfl, rfl, ⟨rfl, rfl⟩, c.rootListingTask.toList ++ c.listingTasks.values, rfl⟩

/-! ### What an event does -/

theorem expandingPath_isNone {id : RequestId} {e : Nat} (hwf : c.tree.Wf e) :
    (c.tree.expandingPath id).isNone = true ↔ c.tree.placements.lookup id = none := by
  rw [Tree.expandingPath]
  cases hp : c.tree.placements.lookup id with
  | none => simp
  | some p =>
    obtain ⟨row, hrow, -⟩ := hwf.loading id p hp
    simp [hrow]

/-- The event is of this browser, of its generation, and for the root or for a
directory that is loading. -/
structure Current (c : BrowserContext μ) (event : BrowserContextEvent μ) : Prop where
  contextId : event.contextId = c.id
  generation : event.generation = c.generation
  loading : ∀ path id, event.target = .directory path id →
    ∃ p, c.tree.placements.lookup id = some p

theorem apply_of_not_current {event : BrowserContextEvent μ} {e : Nat} (hwf : c.tree.Wf e)
    (h : ¬ Current c event) : c.apply event = some c := by
  rw [apply]
  by_cases hid : event.contextId = c.id
  · rw [if_neg (not_not_intro hid)]
    by_cases hgen : event.generation = c.generation
    · rw [if_pos hgen]
      cases htarget : event.target with
      | root =>
        refine absurd ⟨hid, hgen, fun path id heq => ?_⟩ h
        rw [htarget] at heq
        simp at heq
      | directory path id =>
        have hnone : c.tree.placements.lookup id = none := by
          by_contra hsome
          refine h ⟨hid, hgen, fun path' id' heq => ?_⟩
          rw [htarget, ListingTarget.directory.injEq] at heq
          rw [← heq.2]
          exact Option.ne_none_iff_exists'.mp hsome
        show c.applyDirectoryListing id event.result = some c
        rw [applyDirectoryListing.eq_def, if_pos ((expandingPath_isNone hwf).mpr hnone)]
    · rw [if_neg hgen]
  · rw [if_pos hid]

/-- A current event is an operation of the tree, and leaves all but the tree and
the tasks as it is. -/
theorem apply_of_current {event : BrowserContextEvent μ} {e : Nat} (hwf : c.tree.Wf e)
    (hcur : Current c event) (h : c.apply event = some c') :
    c.tree.apply event.op = some c'.tree ∧ c'.history = c.history ∧
      c'.generation = c.generation ∧ Kept c c' := by
  rw [apply, if_neg (not_not_intro hcur.contextId), if_pos hcur.generation] at h
  cases htarget : event.target with
  | root =>
    rw [htarget] at h
    rw [BrowserContextEvent.op, htarget]
    cases hresult : event.result
    all_goals
      rw [hresult] at h
      obtain rfl := Option.some.inj h
      exact ⟨rfl, rfl, rfl, rfl, rfl⟩
  | directory path id =>
    obtain ⟨p, hp⟩ := hcur.loading path id htarget
    have hsome : ¬ (c.tree.expandingPath id).isNone = true := by
      rw [expandingPath_isNone hwf, hp]
      simp
    rw [htarget] at h
    simp only [applyDirectoryListing, if_neg hsome] at h
    rw [BrowserContextEvent.op, htarget]
    cases hresult : event.result
    all_goals
      simp only [hresult, Option.bind_eq_bind, Option.bind_eq_some_iff] at h
      obtain ⟨tree, htree, h⟩ := h
      obtain rfl := Option.some.inj h
      exact ⟨htree, rfl, rfl, rfl, rfl⟩

end BrowserContext

end FilePeeker.Browser
