import FilePeeker.Browser.Context
import FilePeeker.Home.MachineId
import FilePeeker.Lib.Ordered
import FilePeeker.Lib.Trim

/-!
# The application with tabs

`App` of the older front end, `tui::app`: a record of each connection, a tab of each
browser, their orders, and which of them are selected and active.  What waits for a
server runs as a task and reports through the lifecycle channel; `step` is one thing
that happens: a key, a task that ends, a lifecycle event that is taken off the channel,
or an event of a browser's listing.  `none` is a panic, or what cannot happen.

A task that is aborted may be past where it would stop and still report, so here an
abort has no effect: a task need not end.  The quit keys and the status line touch
nothing of this, and `shutdown` comes after everything; they are left out.

`client` is what `Client` retains, with the record each connection was opened for,
which nothing reads.
-/

namespace FilePeeker.Tabs

open Browser (BrowserContext BrowserContextEvent ContextId ContextOp)

variable {μ : Type}

/-- A UUID is a number that was not there before. -/
abbrev Uuid := Nat

abbrev RecordId := Uuid

abbrev ConnectionId := Uuid

/-! ### The data -/

inductive ServerLocation
  | embedded
  | ssh (destination : Text) (forceInstall : Bool)
deriving DecidableEq

inductive ConnectionStatus
  | starting
  | ready
  | failed (error : String)
  | closing
deriving DecidableEq

structure ConnectionRecord where
  id : RecordId
  target : ServerLocation
  label : Text
  status : ConnectionStatus
  connection : Option ConnectionId
  lastActiveContextId : Option ContextId
deriving DecidableEq

inductive ReturnMode
  | main
  | connectionManager
deriving DecidableEq

structure NewBrowserDialog where
  connectionId : RecordId
  input : Text
  requestId : Option Uuid
  error : Option String
  returnMode : ReturnMode
deriving DecidableEq

structure BrowserTab (μ : Type) where
  connectionId : RecordId
  context : BrowserContext μ

structure TransferSelection where
  connectionId : RecordId
  path : PathString
  name : PathString
deriving DecidableEq

structure TransferRequest where
  sourceConnectionId : RecordId
  sourcePath : PathString
  sourceName : PathString
  destinationConnectionId : RecordId
  destinationContextId : ContextId
  destinationRoot : PathString
deriving DecidableEq

inductive CopyConflict
  | failIfExists
  | replace
deriving DecidableEq

inductive CopyError
  | alreadyExists
  | other
deriving DecidableEq

structure TransferTask where
  id : Uuid
  request : TransferRequest
deriving DecidableEq

inductive Overlay
  | none
  | connectionManager
  | targetChooser (selectedSsh : Bool)
  | remoteInput (input : Text)
  | newBrowser (dialog : NewBrowserDialog)
  | closeConfirmation (connectionId : RecordId)
  | transferOverwriteConfirmation (request : TransferRequest)
deriving DecidableEq

inductive LifecycleEvent
  | connectionReady (recordId : RecordId) (connection : ConnectionId)
  | connectionFailed (recordId : RecordId) (error : String)
  | pathResolved (recordId : RecordId) (requestId : Uuid) (result : Except String PathString)
  | connectionClosed (recordId : RecordId) (result : Except String Unit)
  | transferCompleted (transferId : Uuid) (request : TransferRequest) (conflict : CopyConflict)
      (result : Except CopyError Unit)

/-- What was spawned and has not ended. -/
inductive Task
  | opening (recordId : RecordId) (target : ServerLocation)
  | resolving (recordId : RecordId) (requestId : Uuid) (connection : ConnectionId)
      (input : Text)
  | closing (recordId : RecordId) (connection : ConnectionId)
  | copying (transferId : Uuid) (request : TransferRequest) (conflict : CopyConflict)
deriving DecidableEq

structure App (μ : Type) where
  client : Table ConnectionId RecordId
  connections : Table RecordId ConnectionRecord
  connectionOrder : List RecordId
  labelCounts : Table Text Nat
  selectedConnectionId : Option RecordId
  contexts : Table ContextId (BrowserTab μ)
  contextOrder : List ContextId
  activeContextId : Option ContextId
  overlay : Overlay
  lifecycle : List LifecycleEvent
  tasks : List Task
  transferSelection : Option TransferSelection
  transferTask : Option TransferTask
  uuids : Uuid

namespace App

def new : App μ :=
  { client := ∅
    connections := ∅
    connectionOrder := []
    labelCounts := ∅
    selectedConnectionId := none
    contexts := ∅
    contextOrder := []
    activeContextId := none
    overlay := .connectionManager
    lifecycle := []
    tasks := []
    transferSelection := none
    transferTask := none
    uuids := 0 }

def spawn (app : App μ) (task : Task) : App μ := { app with tasks := app.tasks ++ [task] }

/-! ### Tabs -/

def activeContext (app : App μ) : Option (BrowserContext μ) :=
  (app.activeContextId.bind app.contexts.lookup).map BrowserTab.context

def addContext (app : App μ) (connectionId : RecordId) (rootPath : PathString) :
    App μ × ContextId :=
  let id := app.uuids
  ({ app with
      uuids := app.uuids + 1
      contexts := app.contexts.insert id { connectionId, context := .new id rootPath }
      contextOrder := app.contextOrder ++ [id] }, id)

def activateContext (app : App μ) (id : ContextId) : App μ :=
  match app.contexts.lookup id with
  | none => app
  | some tab =>
    { app with
      activeContextId := some id
      connections := app.connections.modify tab.connectionId fun record =>
        { record with lastActiveContextId := some id } }

/-- The tab is of the connection. -/
def isOf (app : App μ) (connectionId : RecordId) (id : ContextId) : Bool :=
  (app.contexts.lookup id).any fun tab => tab.connectionId = connectionId

def repairLastActive (app : App μ) (connectionId : RecordId) : App μ :=
  let replacement := app.contextOrder.reverse.find? (app.isOf connectionId)
  { app with connections := app.connections.modify connectionId fun record =>
      { record with lastActiveContextId := replacement } }

def removeContext (app : App μ) (id : ContextId) : App μ :=
  match app.contextOrder.idxOf? id with
  | none => app
  | some index =>
    match app.contexts.lookup id with
    | none => app
    | some tab =>
      let app := { app with
        contexts := app.contexts.erase id
        contextOrder := app.contextOrder.eraseIdx index }
      let app := app.repairLastActive tab.connectionId
      if app.activeContextId = some id then
        let app := { app with activeContextId := neighbour app.contextOrder index }
        match app.activeContextId with
        | none => app
        | some active => app.activateContext active
      else app

def removeContextsForConnection (app : App μ) (connectionId : RecordId) : App μ :=
  (app.contextOrder.filter (app.isOf connectionId)).foldl removeContext app

def switchContext (app : App μ) (next : Bool) : Option (App μ) :=
  if app.contextOrder.length < 2 then some app
  else
    let index := (app.activeContextId.bind app.contextOrder.idxOf?).getD 0
    let index :=
      if next then (index + 1) % app.contextOrder.length
      else if index = 0 then app.contextOrder.length - 1
      else index - 1
    (app.contextOrder[index]?).map app.activateContext

def closeActiveContext (app : App μ) : App μ :=
  match app.activeContextId with
  | none => app
  | some id => app.removeContext id

/-- A key of the active browser. -/
def onActive [Lowercase] (app : App μ) (op : ContextOp) : Option (App μ) :=
  match app.activeContextId with
  | none => some app
  | some id =>
    match app.contexts.lookup id with
    | none => some app
    | some tab => (tab.context.act op).map fun context =>
      { app with contexts := app.contexts.insert id { tab with context } }

def applyBrowserEvent (app : App μ) (event : BrowserContextEvent μ) : Option (App μ) :=
  match app.contexts.lookup event.contextId with
  | none => some app
  | some tab => (tab.context.apply event).map fun context =>
    { app with contexts := app.contexts.insert event.contextId { tab with context } }

/-! ### Copying -/

def clearTransferStateForConnection (app : App μ) (connectionId : RecordId) : App μ :=
  let app :=
    if app.transferSelection.any fun selection => selection.connectionId = connectionId then
      { app with transferSelection := none }
    else app
  match app.overlay with
  | .transferOverwriteConfirmation request =>
    if request.sourceConnectionId = connectionId ∨ request.destinationConnectionId = connectionId
    then { app with overlay := .none }
    else app
  | _ => app

/-- The task goes to the one that closes the connection, which aborts it. -/
def takeTransferForConnection (app : App μ) (connectionId : RecordId) : App μ :=
  if app.transferTask.any fun task =>
      task.request.sourceConnectionId = connectionId ∨
        task.request.destinationConnectionId = connectionId then
    { app with transferTask := none }
  else app

/-- The connection of a record that is ready. -/
def readyConnection (app : App μ) (id : RecordId) : Option ConnectionId :=
  ((app.connections.lookup id).filter fun record => record.status = .ready).bind
    ConnectionRecord.connection

def startTransfer (app : App μ) (request : TransferRequest) (conflict : CopyConflict) : App μ :=
  if app.transferTask.isSome then app
  else
    match app.readyConnection request.sourceConnectionId,
      app.readyConnection request.destinationConnectionId with
    | some _, some _ =>
      let id := app.uuids
      { app.spawn (.copying id request conflict) with
        uuids := app.uuids + 1
        transferTask := some { id, request } }
    | _, _ => app

def yankActiveSelection (app : App μ) : App μ :=
  match app.activeContextId.bind app.contexts.lookup with
  | none => app
  | some tab =>
    match app.readyConnection tab.connectionId, tab.context.tree.selectedRow with
    | some _, some row =>
      if row.entry.kind = .file then
        let selection : TransferSelection :=
          { connectionId := tab.connectionId, path := row.path, name := row.entry.name }
        { app with transferSelection := some selection }
      else app
    | _, _ => app

def pasteIntoActiveContext (app : App μ) : App μ :=
  match app.transferSelection, app.activeContextId with
  | some selection, some contextId =>
    match app.contexts.lookup contextId with
    | none => app
    | some tab =>
      app.startTransfer
        { sourceConnectionId := selection.connectionId
          sourcePath := selection.path
          sourceName := selection.name
          destinationConnectionId := tab.connectionId
          destinationContextId := contextId
          destinationRoot := tab.context.tree.rootPath } .failIfExists
  | _, _ => app

def confirmTransferOverwrite (app : App μ) : App μ :=
  match app.overlay with
  | .transferOverwriteConfirmation request =>
    { app with overlay := .none }.startTransfer request .replace
  | _ => { app with overlay := .none }

def applyTransferCompleted (app : App μ) (transferId : Uuid) (request : TransferRequest)
    (conflict : CopyConflict) (result : Except CopyError Unit) : App μ :=
  if app.transferTask.all fun task => task.id ≠ transferId then app
  else
    let app := { app with transferTask := none }
    match result with
    | .ok () =>
      match app.contexts.lookup request.destinationContextId with
      | none => app
      | some tab =>
        if tab.connectionId = request.destinationConnectionId ∧
            tab.context.tree.rootPath = request.destinationRoot then
          let tab := { tab with context := tab.context.refresh }
          { app with contexts := app.contexts.insert request.destinationContextId tab }
        else app
    | .error error =>
      if error = .alreadyExists ∧ conflict = .failIfExists then
        { app with overlay := .transferOverwriteConfirmation request }
      else app

/-! ### Connections -/

def insertConnectionRecord (app : App μ) (target : ServerLocation) (status : ConnectionStatus) :
    App μ × RecordId :=
  let base :=
    match target with
    | .embedded => "Local".toList
    | .ssh destination _ => destination
  let count := (app.labelCounts.lookup base).getD 0 + 1
  let label := if count = 1 then base else base ++ '#' :: Nat.toDigits 10 count
  let id := app.uuids
  ({ app with
      uuids := app.uuids + 1
      labelCounts := app.labelCounts.insert base count
      connections := app.connections.insert id
        { id, target, label, status, connection := none, lastActiveContextId := none }
      connectionOrder := app.connectionOrder ++ [id]
      selectedConnectionId := app.selectedConnectionId.or (some id) }, id)

/-- `Client::open`, for a record. -/
def openConnection (app : App μ) (recordId : RecordId) : App μ × ConnectionId :=
  let id := app.uuids
  ({ app with uuids := app.uuids + 1, client := app.client.insert id recordId }, id)

def setReady (app : App μ) (recordId : RecordId) (connection : ConnectionId) : App μ :=
  { app with connections := app.connections.modify recordId fun record =>
      { record with connection := some connection, status := .ready } }

def startConnection (app : App μ) (target : ServerLocation) : App μ :=
  let (app, recordId) := app.insertConnectionRecord target .starting
  app.spawn (.opening recordId target)

/-- What comes of the connection and the path of the command line. -/
inductive Opening
  | refused
  | unresolved
  | resolved (rootPath : PathString)
deriving DecidableEq

def start (app : App μ) : Option Opening → App μ
  | none => { app with overlay := .connectionManager }
  | some opening =>
    let (app, recordId) := app.insertConnectionRecord .embedded .starting
    match opening with
    | .refused => app
    | .unresolved =>
      let (app, connection) := app.openConnection recordId
      app.setReady recordId connection
    | .resolved rootPath =>
      let (app, connection) := app.openConnection recordId
      let (app, contextId) := (app.setReady recordId connection).addContext recordId rootPath
      { app.activateContext contextId with overlay := .none }

def repairConnectionSelection (app : App μ) : App μ :=
  if app.selectedConnectionId.any fun id => (app.connections.lookup id).isSome then app
  else { app with selectedConnectionId := app.connectionOrder.head? }

def removeConnectionRecord (app : App μ) (id : RecordId) : App μ :=
  let app := app.clearTransferStateForConnection id
  let oldIndex := app.connectionOrder.idxOf? id
  let app := { app with
    connections := app.connections.erase id
    connectionOrder := app.connectionOrder.filter (· ≠ id) }
  let app :=
    if app.selectedConnectionId = some id then
      { app with selectedConnectionId := oldIndex.bind (neighbour app.connectionOrder) }
    else app
  app.repairConnectionSelection

def moveConnectionSelection (app : App μ) (down : Bool) : Option (App μ) :=
  if app.connectionOrder = [] then some { app with selectedConnectionId := none }
  else
    let index := (app.selectedConnectionId.bind app.connectionOrder.idxOf?).getD 0
    let next := if down then min (index + 1) (app.connectionOrder.length - 1) else index - 1
    (app.connectionOrder[next]?).map fun id => { app with selectedConnectionId := some id }

def openNewBrowserForConnection (app : App μ) (connectionId : RecordId)
    (returnMode : ReturnMode) : App μ :=
  let tab := ((app.connections.lookup connectionId).bind
    ConnectionRecord.lastActiveContextId).bind app.contexts.lookup
  let input := (tab.map fun tab => tab.context.tree.rootPath.display).getD ['~']
  let dialog : NewBrowserDialog :=
    { connectionId, input, requestId := none, error := none, returnMode }
  { app with overlay := .newBrowser dialog }

def activateSelectedConnection (app : App μ) : App μ :=
  match app.selectedConnectionId with
  | none => app
  | some connectionId =>
    match app.connections.lookup connectionId with
    | none => app
    | some record =>
      if record.status ≠ .ready then app
      else
        match record.lastActiveContextId with
        | some contextId => { app.activateContext contextId with overlay := .none }
        | none => app.openNewBrowserForConnection connectionId .connectionManager

def deleteSelectedConnection (app : App μ) : App μ :=
  match app.selectedConnectionId with
  | none => app
  | some connectionId =>
    match app.connections.lookup connectionId with
    | none => app
    | some record =>
      match record.status with
      | .failed _ =>
        if record.connection = none then app.removeConnectionRecord connectionId else app
      | .ready => { app with overlay := .closeConfirmation connectionId }
      | .starting | .closing => app

def confirmConnectionClose (app : App μ) : App μ :=
  match app.overlay with
  | .closeConfirmation connectionId =>
    match app.connections.lookup connectionId with
    | none => { app with overlay := .connectionManager }
    | some record =>
      let closing := { record with status := .closing, connection := none }
      let app := { app with connections := app.connections.insert connectionId closing }
      let app := app.removeContextsForConnection connectionId
      let app := app.clearTransferStateForConnection connectionId
      let app := { app with overlay := .connectionManager }
      match record.connection with
      | none => app.removeConnectionRecord connectionId
      | some connection =>
        (app.takeTransferForConnection connectionId).spawn (.closing connectionId connection)
  | _ => app

/-! ### Overlays -/

def openConnectionManager (app : App μ) : App μ :=
  { app with overlay := .connectionManager }.repairConnectionSelection

def dismissOverlay (app : App μ) : App μ := { app with overlay := .none }

def openAddConnection (app : App μ) : App μ := { app with overlay := .targetChooser false }

def moveTargetSelection (app : App μ) (down : Bool) : App μ :=
  match app.overlay with
  | .targetChooser _ => { app with overlay := .targetChooser down }
  | _ => app

def submitTargetChoice (app : App μ) : App μ :=
  match app.overlay with
  | .targetChooser true => { app with overlay := .remoteInput [] }
  | .targetChooser false => { app with overlay := .connectionManager }.startConnection .embedded
  | _ => app

/-- The text that is typed in changes, where some is typed in. -/
def editInput (app : App μ) (edit : Text → Text) : App μ :=
  match app.overlay with
  | .remoteInput input => { app with overlay := .remoteInput (edit input) }
  | .newBrowser dialog =>
    if dialog.requestId = none then
      { app with overlay := .newBrowser { dialog with input := edit dialog.input, error := none } }
    else app
  | _ => app

def inputCharacter (app : App μ) (character : Char) : App μ := app.editInput (· ++ [character])

def inputBackspace (app : App μ) : App μ := app.editInput List.dropLast

def submitNewBrowser (app : App μ) : App μ :=
  match app.overlay with
  | .newBrowser dialog =>
    match (app.connections.lookup dialog.connectionId).bind ConnectionRecord.connection with
    | none =>
      { app with overlay := .newBrowser { dialog with error := some "Connection is not ready" } }
    | some connection =>
      let requestId := app.uuids
      { app.spawn (.resolving dialog.connectionId requestId connection dialog.input) with
        uuids := app.uuids + 1
        overlay := .newBrowser { dialog with requestId := some requestId, error := none } }
  | _ => app

def submitTextInput (app : App μ) : App μ :=
  match app.overlay with
  | .remoteInput input =>
    if trim isWhitespace input = [] then app
    else { app with overlay := .connectionManager }.startConnection (.ssh input false)
  | .newBrowser dialog =>
    if dialog.requestId = none ∧ trim isWhitespace dialog.input ≠ [] then app.submitNewBrowser
    else app
  | _ => app

def cancelDialog (app : App μ) : App μ :=
  match app.overlay with
  | .newBrowser dialog =>
    match dialog.returnMode with
    | .main => { app with overlay := .none }
    | .connectionManager => { app with overlay := .connectionManager }
  | .targetChooser _ | .remoteInput _ | .closeConfirmation _ =>
    { app with overlay := .connectionManager }
  | .none | .connectionManager | .transferOverwriteConfirmation _ => { app with overlay := .none }

def openNewBrowserForActive (app : App μ) : App μ :=
  match app.activeContextId.bind app.contexts.lookup with
  | none => app
  | some tab =>
    let dialog : NewBrowserDialog :=
      { connectionId := tab.connectionId
        input := tab.context.tree.rootPath.display
        requestId := none
        error := none
        returnMode := .main }
    { app with overlay := .newBrowser dialog }

def openNewBrowserForSelectedConnection (app : App μ) : App μ :=
  match app.selectedConnectionId with
  | none => app
  | some connectionId =>
    if (app.connections.lookup connectionId).any fun record => record.status = .ready then
      app.openNewBrowserForConnection connectionId .connectionManager
    else app

/-! ### What tasks report -/

def applyLifecycleEvent (app : App μ) : LifecycleEvent → App μ
  | .connectionReady recordId connection =>
    match app.connections.lookup recordId with
    | none => app
    | some record => if record.status = .starting then app.setReady recordId connection else app
  | .connectionFailed recordId error =>
    match app.connections.lookup recordId with
    | none => app
    | some record =>
      if record.status = .starting then
        let failed := { record with status := .failed error }
        { app with connections := app.connections.insert recordId failed }
      else app
  | .pathResolved recordId requestId result =>
    match app.overlay with
    | .newBrowser dialog =>
      if dialog.connectionId = recordId ∧ dialog.requestId = some requestId then
        match result with
        | .ok path =>
          match (app.connections.lookup recordId).bind ConnectionRecord.connection with
          | none => app
          | some _ =>
            let (app, contextId) := app.addContext recordId path
            { app.activateContext contextId with overlay := .none }
        | .error error =>
          { app with overlay := .newBrowser { dialog with requestId := none, error := some error } }
      else app
    | _ => app
  | .connectionClosed recordId _ => app.removeConnectionRecord recordId
  | .transferCompleted transferId request conflict result =>
    app.applyTransferCompleted transferId request conflict result

def send (app : App μ) (event : LifecycleEvent) : App μ :=
  { app with lifecycle := app.lifecycle ++ [event] }

/-- How a task ends. -/
inductive Outcome
  | done
  | resolved (path : PathString)
  | alreadyExists
  | failed (error : String)
deriving DecidableEq

/-- What a task that ends reports.  `Client::close` forgets the connection however the
server goes down. -/
def finish (app : App μ) : Task → Outcome → Option (App μ)
  | .opening recordId _, .done =>
    let (app, connection) := app.openConnection recordId
    some (app.send (.connectionReady recordId connection))
  | .opening recordId _, .failed error => some (app.send (.connectionFailed recordId error))
  | .resolving recordId requestId _ _, .resolved path =>
    some (app.send (.pathResolved recordId requestId (.ok path)))
  | .resolving recordId requestId _ _, .failed error =>
    some (app.send (.pathResolved recordId requestId (.error error)))
  | .closing recordId connection, .done =>
    some ({ app with client := app.client.erase connection }.send
      (.connectionClosed recordId (.ok ())))
  | .closing recordId connection, .failed error =>
    some ({ app with client := app.client.erase connection }.send
      (.connectionClosed recordId (.error error)))
  | .copying transferId request conflict, .done =>
    some (app.send (.transferCompleted transferId request conflict (.ok ())))
  | .copying transferId request conflict, .alreadyExists =>
    some (app.send (.transferCompleted transferId request conflict (.error .alreadyExists)))
  | .copying transferId request conflict, .failed _ =>
    some (app.send (.transferCompleted transferId request conflict (.error .other)))
  | _, _ => none

end App

/-! ### Steps -/

/-- What `apply_key` calls. -/
inductive Key
  | active (op : ContextOp)
  | switchContext (next : Bool)
  | openNewBrowserForActive
  | closeActiveContext
  | openConnectionManager
  | dismissOverlay
  | moveConnectionSelection (down : Bool)
  | activateSelectedConnection
  | openNewBrowserForSelectedConnection
  | openAddConnection
  | deleteSelectedConnection
  | moveTargetSelection (down : Bool)
  | submitTargetChoice
  | submitTextInput
  | inputBackspace
  | inputCharacter (character : Char)
  | cancelDialog
  | confirmConnectionClose
  | yankActiveSelection
  | pasteIntoActiveContext
  | confirmTransferOverwrite
deriving DecidableEq

inductive Act (μ : Type)
  | key (key : Key)
  | ends (index : Nat) (outcome : App.Outcome)
  | lifecycle
  | browser (event : BrowserContextEvent μ)

namespace App

def press [Lowercase] (app : App μ) : Key → Option (App μ)
  | .active op => app.onActive op
  | .switchContext next => app.switchContext next
  | .openNewBrowserForActive => some app.openNewBrowserForActive
  | .closeActiveContext => some app.closeActiveContext
  | .openConnectionManager => some app.openConnectionManager
  | .dismissOverlay => some app.dismissOverlay
  | .moveConnectionSelection down => app.moveConnectionSelection down
  | .activateSelectedConnection => some app.activateSelectedConnection
  | .openNewBrowserForSelectedConnection => some app.openNewBrowserForSelectedConnection
  | .openAddConnection => some app.openAddConnection
  | .deleteSelectedConnection => some app.deleteSelectedConnection
  | .moveTargetSelection down => some (app.moveTargetSelection down)
  | .submitTargetChoice => some app.submitTargetChoice
  | .submitTextInput => some app.submitTextInput
  | .inputBackspace => some app.inputBackspace
  | .inputCharacter character => some (app.inputCharacter character)
  | .cancelDialog => some app.cancelDialog
  | .confirmConnectionClose => some app.confirmConnectionClose
  | .yankActiveSelection => some app.yankActiveSelection
  | .pasteIntoActiveContext => some app.pasteIntoActiveContext
  | .confirmTransferOverwrite => some app.confirmTransferOverwrite

def step [Lowercase] (app : App μ) : Act μ → Option (App μ)
  | .key key => app.press key
  | .ends index outcome =>
    (app.tasks[index]?).bind fun task =>
      { app with tasks := app.tasks.eraseIdx index }.finish task outcome
  | .lifecycle =>
    match app.lifecycle with
    | [] => none
    | event :: rest => some ({ app with lifecycle := rest }.applyLifecycleEvent event)
  | .browser event => app.applyBrowserEvent event

end App

end FilePeeker.Tabs
