import FilePeeker.Lib.Steps
import FilePeeker.Tabs.Records

/-!
# Tabs and connections agree

Each key, each task that ends and each event keeps `Wf`; so in every run the tabs, the
records and what is active, selected and remembered of them agree (`stays_consistent`).
-/

namespace FilePeeker.Tabs

open Browser (BrowserContext BrowserContextEvent ContextId ContextOp)

variable {μ : Type} {app app' : App μ} {shut : Option RecordId} {id r : Uuid}
  {c : ConnectionId} {record : ConnectionRecord} {tab : BrowserTab μ}

namespace App

/-! ### What tasks report -/

/-- The client forgets the connection of a record that is closing. -/
theorem Wf.forget (h : Wf shut app) (hclosing : app.Closing r)
    (honly : ∀ r', app.client.lookup c = some r' → r' = r) :
    Wf shut { app with client := app.client.erase c } := by
  have hold {c' : ConnectionId} {r' : RecordId}
      (hc' : (app.client.erase c).lookup c' = some r') : app.client.lookup c' = some r' := by
    rw [Table.lookup_erase_if] at hc'
    split at hc'
    · cases hc'
    · exact hc'
  have hkept {c' : ConnectionId} {r' : RecordId} {record : ConnectionRecord}
      (hc' : app.client.lookup c' = some r') (hr' : app.connections.lookup r' = some record)
      (hstatus : record.status ≠ .closing) : (app.client.erase c).lookup c' = some r' := by
    rw [Table.lookup_erase_if, if_neg, hc']
    rintro rfl
    obtain rfl := honly r' hc'
    exact hstatus (hclosing record hr')
  have hadvances : Advances app { app with client := app.client.erase c } :=
    ⟨Nat.le_refl _, fun r' _ record hrecord => ⟨record, hrecord, id, id⟩,
      fun c' _ r' hc' => hold hc', fun c' r' record hc' hr' hstatus =>
        hkept hc' hr' fun heq => by rw [hstatus] at heq; cases heq⟩
  refine ⟨⟨h.tabs.ordered, h.tabs.active, h.tabs.someActive, h.tabs.lastActive⟩,
    ⟨h.records.ordered, h.records.selected, h.records.someSelected⟩,
    ⟨h.connections.ready, h.connections.notReady, fun r' record c' hr' hc' => ?_⟩, h.live,
    ⟨h.below.contexts, h.below.records, fun c' r' hc' => h.below.client c' r' (hold hc')⟩,
    fun task htask => (h.tasks task htask).advance hadvances,
    fun event hevent => (h.events event hevent).advance hadvances⟩
  refine hkept (h.connections.retained r' record c' hr' hc') hr' fun heq => ?_
  rw [h.connections.notReady r' record hr' (by rw [heq]; exact ConnectionStatus.noConfusion)] at hc'
  cases hc'

/-- **A task ends** and reports. -/
theorem Wf.finish {task : Task} {outcome : Outcome} (h : Wf none app) (htask : app.TaskWf task)
    (heq : app.finish task outcome = some app') : Wf none app' := by
  have closed {r : RecordId} {c : ConnectionId} (htask : app.TaskWf (.closing r c))
      (result : Except String Unit) :
      Wf none ({ app with client := app.client.erase c }.send (.connectionClosed r result)) :=
    (h.forget htask.2.2.1 htask.2.2.2).send ⟨htask.1, htask.2.2.1⟩
  unfold App.finish at heq
  split at heq
  · obtain rfl := Option.some.inj heq
    exact (h.openConnection _).send ⟨Nat.lt_succ_of_lt htask, Nat.lt_succ_self _,
      fun _ _ _ => AList.lookup_insert _⟩
  · exact Option.some.inj heq ▸ h.send trivial
  · exact Option.some.inj heq ▸ h.send trivial
  · exact Option.some.inj heq ▸ h.send trivial
  · exact Option.some.inj heq ▸ closed htask _
  · exact Option.some.inj heq ▸ closed htask _
  · exact Option.some.inj heq ▸ h.send trivial
  · exact Option.some.inj heq ▸ h.send trivial
  · exact Option.some.inj heq ▸ h.send trivial
  · cases heq

theorem Wf.applyTransferCompleted (h : Wf shut app) (transferId : Uuid)
    (request : TransferRequest) (conflict : CopyConflict) (result : Except CopyError Unit) :
    Wf shut (app.applyTransferCompleted transferId request conflict result) := by
  unfold App.applyTransferCompleted
  split
  · exact h
  · have hdone := h.looks (looks_of app app.overlay app.labelCounts app.transferSelection none)
    dsimp only
    split
    · split
      · exact hdone
      · next tab htab =>
        split
        · exact hdone.retabAt htab _
        · exact hdone
    · split
      · exact hdone.looks (looks_of _ _ _ _ _)
      · exact hdone

/-- **A lifecycle event is applied.** -/
theorem Wf.applyLifecycleEvent {event : LifecycleEvent} (h : Wf none app)
    (hevent : app.EventWf event) : Wf none (app.applyLifecycleEvent event) := by
  cases event with
  | connectionReady r c =>
    unfold App.applyLifecycleEvent
    dsimp only
    split
    · exact h
    · next record hrecord =>
      split
      · next hstarting => exact h.setReady hrecord hstarting (hevent.2.2 record hrecord hstarting)
      · exact h
  | connectionFailed r error =>
    unfold App.applyLifecycleEvent
    dsimp only
    split
    · exact h
    · next record hrecord =>
      split
      · next hstarting => exact h.fail hrecord hstarting error
      · exact h
  | pathResolved r requestId result =>
    unfold App.applyLifecycleEvent
    dsimp only
    split
    · split
      · split
        · next path =>
          split
          · exact h
          · next c hc =>
            obtain ⟨record, hrecord, hconnection⟩ := Option.bind_eq_some_iff.mp hc
            have hready : record.status = .ready := by
              by_contra hnot
              rw [h.connections.notReady r record hrecord hnot] at hconnection
              cases hconnection
            exact (h.addContext hrecord hready path).looks (looks_of _ _ _ _ _)
        · exact h.looks (looks_of app _ _ _ _)
      · exact h
    · exact h
  | connectionClosed r result => exact h.removeConnectionRecord (h.no_tab_of_closing hevent.2)
  | transferCompleted transferId request conflict result =>
    exact h.applyTransferCompleted transferId request conflict result

/-! ### Keys -/

theorem Wf.startConnection (h : Wf none app) (target : ServerLocation) :
    Wf none (app.startConnection target) :=
  (h.insertConnectionRecord target).spawn (Nat.lt_succ_self app.uuids)

theorem Wf.startTransfer (h : Wf shut app) (request : TransferRequest) (conflict : CopyConflict) :
    Wf shut (app.startTransfer request conflict) := by
  unfold App.startTransfer
  split
  · exact h
  · split
    · have hspawned := h.spawn (show app.TaskWf (.copying app.uuids request conflict) from trivial)
      have hnext : Wf shut { app.spawn (.copying app.uuids request conflict) with
          uuids := app.uuids + 1 } :=
        hspawned.pass (Nat.le_succ _) (fun task htask => .inl htask) fun event hevent => .inl hevent
      exact hnext.looks (looks_of _ _ _ _ _)
    · exact h

theorem looks_openNewBrowserForConnection (app : App μ) (r : RecordId) (returnMode : ReturnMode) :
    Looks app (app.openNewBrowserForConnection r returnMode) := looks_of app _ _ _ _

/-- The keys that only change the overlay, or what is yanked. -/
theorem looks_editInput (app : App μ) (edit : Text → Text) : Looks app (app.editInput edit) := by
  unfold editInput
  split
  · exact looks_of app _ _ _ _
  · split <;> exact looks_of app _ _ _ _
  · exact looks_of app _ _ _ _

theorem looks_yankActiveSelection (app : App μ) : Looks app app.yankActiveSelection := by
  unfold yankActiveSelection
  split
  · exact looks_of app _ _ _ _
  · split
    · split <;> exact looks_of app _ _ _ _
    · exact looks_of app _ _ _ _

theorem looks_cancelDialog (app : App μ) : Looks app app.cancelDialog := by
  unfold cancelDialog
  split
  · split <;> exact looks_of app _ _ _ _
  all_goals exact looks_of app _ _ _ _

theorem Wf.submitNewBrowser (h : Wf shut app) : Wf shut app.submitNewBrowser := by
  unfold App.submitNewBrowser
  split
  · next dialog _ =>
    split
    · exact h.looks (looks_of app _ _ _ _)
    · next c _ =>
      have hspawned := h.spawn
        (show app.TaskWf (.resolving dialog.connectionId app.uuids c dialog.input) from trivial)
      have hnext : Wf shut { app.spawn
          (.resolving dialog.connectionId app.uuids c dialog.input) with uuids := app.uuids + 1 } :=
        hspawned.pass (Nat.le_succ _) (fun task htask => .inl htask) fun event hevent => .inl hevent
      exact hnext.looks (looks_of _ _ _ _ _)
  · exact h

theorem Wf.submitTextInput (h : Wf none app) : Wf none app.submitTextInput := by
  unfold App.submitTextInput
  split
  · split
    · exact h
    · exact (h.looks (looks_of app .connectionManager _ _ _)).startConnection _
  · split
    · exact h.submitNewBrowser
    · exact h
  · exact h

theorem Wf.submitTargetChoice (h : Wf none app) : Wf none app.submitTargetChoice := by
  unfold App.submitTargetChoice
  split
  · exact h.looks (looks_of app _ _ _ _)
  · exact (h.looks (looks_of app .connectionManager _ _ _)).startConnection _
  · exact h

theorem Wf.activateSelectedConnection (h : Wf shut app) :
    Wf shut app.activateSelectedConnection := by
  unfold App.activateSelectedConnection
  split
  · exact h
  · split
    · exact h
    · split
      · exact h
      · split
        · exact (h.activate _).looks (looks_of _ _ _ _ _)
        · exact h.looks (looks_openNewBrowserForConnection app _ _)

theorem Wf.deleteSelectedConnection (h : Wf none app) : Wf none app.deleteSelectedConnection := by
  unfold App.deleteSelectedConnection
  split
  · exact h
  · next r _ =>
    split
    · exact h
    · next record hrecord =>
      split
      · next error hstatus =>
        split
        · refine h.removeConnectionRecord fun id tab htab => ?_
          rintro rfl
          obtain ⟨other, hother, hready⟩ := h.live id tab htab (by simp)
          obtain rfl := Option.some.inj (hrecord.symm.trans hother)
          rw [hstatus] at hready
          cases hready
        · exact h
      · exact h.looks (looks_of app _ _ _ _)
      all_goals exact h

theorem Wf.pasteIntoActiveContext (h : Wf shut app) : Wf shut app.pasteIntoActiveContext := by
  unfold App.pasteIntoActiveContext
  split
  · split
    · exact h
    · exact h.startTransfer _ _
  · exact h

theorem Wf.confirmTransferOverwrite (h : Wf shut app) : Wf shut app.confirmTransferOverwrite := by
  unfold App.confirmTransferOverwrite
  split
  · exact (h.looks (looks_of app .none _ _ _)).startTransfer _ _
  · exact h.looks (looks_of app _ _ _ _)

theorem Wf.moveConnectionSelection {down : Bool} (h : Wf shut app)
    (heq : app.moveConnectionSelection down = some app') : Wf shut app' := by
  unfold App.moveConnectionSelection at heq
  split at heq
  · next hnil =>
    have hnone : app.selectedConnectionId = none := by
      cases hselected : app.selectedConnectionId with
      | none => rfl
      | some r => exact absurd (h.records.selected r hselected) (hnil ▸ List.not_mem_nil)
    obtain rfl := Option.some.inj heq
    rw [← hnone]
    exact h
  · obtain ⟨r, hr, rfl⟩ := Option.map_eq_some_iff.mp heq
    exact h.select (List.mem_of_getElem? hr)

theorem Wf.switchContext {next : Bool} (h : Wf shut app)
    (heq : app.switchContext next = some app') : Wf shut app' := by
  unfold App.switchContext at heq
  split at heq
  · exact Option.some.inj heq ▸ h
  · obtain ⟨id, -, rfl⟩ := Option.map_eq_some_iff.mp heq
    exact h.activate id

theorem Wf.closeActiveContext (h : Wf shut app) : Wf shut app.closeActiveContext := by
  unfold App.closeActiveContext
  split
  · exact h
  · exact h.removeContext _

theorem Wf.applyBrowserEvent {event : BrowserContextEvent μ} (h : Wf shut app)
    (heq : app.applyBrowserEvent event = some app') : Wf shut app' := by
  unfold App.applyBrowserEvent at heq
  split at heq
  · exact Option.some.inj heq ▸ h
  · next tab htab =>
    obtain ⟨context, -, rfl⟩ := Option.map_eq_some_iff.mp heq
    exact h.retabAt htab context

section Keys

variable [Lowercase]

theorem Wf.onActive {op : ContextOp} (h : Wf shut app) (heq : app.onActive op = some app') :
    Wf shut app' := by
  unfold App.onActive at heq
  split at heq
  · exact Option.some.inj heq ▸ h
  · split at heq
    · exact Option.some.inj heq ▸ h
    · next tab htab =>
      obtain ⟨context, -, rfl⟩ := Option.map_eq_some_iff.mp heq
      exact h.retabAt htab context

/-- **A key.** -/
theorem Wf.press {key : Key} (h : Wf none app) (heq : app.press key = some app') :
    Wf none app' := by
  have looked {app'' : App μ} (hlooks : Looks app app'') (heq : some app'' = some app') :
      Wf none app' := Option.some.inj heq ▸ h.looks hlooks
  cases key with
  | active op => exact h.onActive heq
  | switchContext next => exact h.switchContext heq
  | openNewBrowserForActive =>
    refine looked ?_ heq
    unfold openNewBrowserForActive
    split <;> exact looks_of app _ _ _ _
  | closeActiveContext => exact Option.some.inj heq ▸ h.closeActiveContext
  | openConnectionManager =>
    exact Option.some.inj heq ▸ (h.looks (looks_of app .connectionManager _ _ _)).repair
  | dismissOverlay => exact looked (looks_of app _ _ _ _) heq
  | moveConnectionSelection down => exact h.moveConnectionSelection heq
  | activateSelectedConnection => exact Option.some.inj heq ▸ h.activateSelectedConnection
  | openNewBrowserForSelectedConnection =>
    refine looked ?_ heq
    unfold openNewBrowserForSelectedConnection
    split
    · exact looks_of app _ _ _ _
    · split
      · exact looks_openNewBrowserForConnection app _ _
      · exact looks_of app _ _ _ _
  | openAddConnection => exact looked (looks_of app _ _ _ _) heq
  | deleteSelectedConnection => exact Option.some.inj heq ▸ h.deleteSelectedConnection
  | moveTargetSelection down =>
    refine looked ?_ heq
    unfold moveTargetSelection
    split <;> exact looks_of app _ _ _ _
  | submitTargetChoice => exact Option.some.inj heq ▸ h.submitTargetChoice
  | submitTextInput => exact Option.some.inj heq ▸ h.submitTextInput
  | inputBackspace => exact looked (looks_editInput app _) heq
  | inputCharacter character => exact looked (looks_editInput app _) heq
  | cancelDialog => exact looked (looks_cancelDialog app) heq
  | confirmConnectionClose => exact Option.some.inj heq ▸ h.confirmConnectionClose
  | yankActiveSelection => exact looked (looks_yankActiveSelection app) heq
  | pasteIntoActiveContext => exact Option.some.inj heq ▸ h.pasteIntoActiveContext
  | confirmTransferOverwrite => exact Option.some.inj heq ▸ h.confirmTransferOverwrite

/-- **A step.** -/
theorem Wf.step {act : Act μ} (h : Wf none app) (heq : app.step act = some app') :
    Wf none app' := by
  cases act with
  | key key => exact h.press heq
  | ends index outcome =>
    obtain ⟨task, htask, heq⟩ := Option.bind_eq_some_iff.mp heq
    have hended : Wf none { app with tasks := app.tasks.eraseIdx index } :=
      h.pass (Nat.le_refl _) (fun task htask => .inl (List.mem_of_mem_eraseIdx htask))
        fun event hevent => .inl hevent
    refine hended.finish ?_ heq
    have hwf := h.tasks task (List.mem_of_getElem? htask)
    cases task <;> exact hwf
  | lifecycle =>
    unfold App.step at heq
    dsimp only at heq
    split at heq
    · cases heq
    · next event rest hlifecycle =>
      have htaken : Wf none { app with lifecycle := rest } :=
        h.pass (Nat.le_refl _) (fun task htask => .inl htask)
          fun event hevent => .inl (hlifecycle ▸ List.mem_cons_of_mem _ hevent)
      have hevent := h.events event (hlifecycle ▸ List.mem_cons_self)
      obtain rfl := Option.some.inj heq
      refine htaken.applyLifecycleEvent ?_
      cases event <;> exact hevent
  | browser event => exact h.applyBrowserEvent heq

end Keys

/-! ### Whole runs -/

theorem wf_new : Wf none (App.new : App μ) := by
  refine ⟨⟨.empty, ?_, fun h => absurd rfl h, ?_⟩, ⟨.empty, ?_, fun h => absurd rfl h⟩,
    ⟨?_, ?_, ?_⟩, ?_, ⟨?_, ?_, ?_⟩, ?_, ?_⟩
  all_goals simp [App.new, Live]

theorem Wf.start (h : Wf none app) (opening : Option Opening) : Wf none (app.start opening) := by
  cases opening with
  | none => exact h.looks (looks_of app _ _ _ _)
  | some opening =>
    obtain ⟨record, hstatus, -, -, hinsert, hid⟩ :=
      insertConnectionRecord_spec app .embedded .starting
    have hinserted := h.insertConnectionRecord .embedded
    unfold App.start
    generalize app.insertConnectionRecord .embedded .starting = inserted at *
    obtain ⟨app₁, r⟩ := inserted
    have hopened := hinserted.openConnection r
    have hlookup : app₁.connections.lookup r = some record := by
      obtain rfl : r = app.uuids := hid
      rw [hinsert]
      exact AList.lookup_insert _
    have hready : Wf none ((app₁.openConnection r).1.setReady r app₁.uuids) :=
      hopened.setReady hlookup hstatus (AList.lookup_insert _)
    cases opening with
    | refused => exact hinserted
    | unresolved => exact hready
    | resolved rootPath =>
      have hrecord : ((app₁.openConnection r).1.setReady r app₁.uuids).connections.lookup r =
          some { record with connection := some app₁.uuids, status := .ready } := by
        show (app₁.connections.modify r _).lookup r = some _
        rw [Table.lookup_modify, if_pos rfl, hlookup]
        rfl
      exact (hready.addContext hrecord rfl rootPath).looks (looks_of _ _ _ _ _)

/-- What holds between the tabs and the connections. -/
structure Consistent (app : App μ) : Prop where
  nodup : app.contextOrder.Nodup
  keys : ∀ id, id ∈ app.contextOrder ↔ ∃ tab, app.contexts.lookup id = some tab
  active : app.activeContextId.isSome ↔ ∃ id tab, app.contexts.lookup id = some tab
  activeNames : ∀ id, app.activeContextId = some id → ∃ tab, app.contexts.lookup id = some tab
  lastActive : ∀ r record id, app.connections.lookup r = some record →
    record.lastActiveContextId = some id →
      ∃ tab, app.contexts.lookup id = some tab ∧ tab.connectionId = r
  live : ∀ id tab, app.contexts.lookup id = some tab → ∃ record c,
    app.connections.lookup tab.connectionId = some record ∧ record.status = .ready ∧
      record.connection = some c ∧ app.client.lookup c = some tab.connectionId
  selected : (∃ r record, app.connections.lookup r = some record) → ∃ r record,
    app.selectedConnectionId = some r ∧ app.connections.lookup r = some record

theorem Wf.consistent (h : Wf none app) : Consistent app := by
  have hkeys (id : ContextId) :
      id ∈ app.contextOrder ↔ ∃ tab, app.contexts.lookup id = some tab := by
    rw [h.tabs.ordered.mem, Option.isSome_iff_exists]
  refine ⟨h.tabs.ordered.nodup, hkeys, ?_, fun id hid => (hkeys id).mp (h.tabs.active id hid),
    fun r record id hr hlast => isOf_iff.mp (h.tabs.lastActive r record id hr hlast),
    fun id tab htab => ?_, fun hsome => ?_⟩
  · rw [← h.tabs.ordered.ne_nil_iff, Option.isSome_iff_ne_none]
    refine ⟨fun hactive => ?_, h.tabs.someActive⟩
    obtain ⟨id, hid⟩ := Option.ne_none_iff_exists'.mp hactive
    exact List.ne_nil_of_mem (h.tabs.active id hid)
  · obtain ⟨record, hrecord, hready⟩ := h.live id tab htab (by simp)
    obtain ⟨c, hc⟩ := Option.isSome_iff_exists.mp (h.connections.ready _ record hrecord hready)
    exact ⟨record, c, hrecord, hready, hc, h.connections.retained _ record c hrecord hc⟩
  · obtain ⟨r, hr⟩ := Option.ne_none_iff_exists'.mp
      (h.records.someSelected (h.records.ordered.ne_nil_iff.mpr hsome))
    obtain ⟨record, hrecord⟩ := Option.isSome_iff_exists.mp
      ((h.records.ordered.mem r).mp (h.records.selected r hr))
    exact ⟨r, record, hr, hrecord⟩

end App

/-- **Tabs and connections stay consistent**, whatever is pressed, and whatever tasks and
listings report, in any order. -/
theorem stays_consistent [Lowercase] {opening : Option App.Opening}
    (h : Steps App.step (fun _ _ => True) (App.new.start opening) app) : app.Consistent :=
  (h.invariant (fun _ _ _ hwf _ heq => hwf.step heq) (App.wf_new.start opening)).consistent

section Example

attribute [local instance] asciiLowercase

/-- A directory named by a letter. -/
def directory (letter : UInt8) : PathString := .fromLiteral (lossy [letter])

/-- A second connection is opened and gets a tab, which is the third; then the first
connection is closed, with the two tabs that it has. -/
def afterClose : App Unit :=
  runs App.step (fun _ _ => True) (App.new.start (some (.resolved (directory 0x72))))
    [.key .openAddConnection, .key .submitTargetChoice, .ends 0 .done, .lifecycle,
      .key .openNewBrowserForActive, .key .submitTextInput,
      .ends 0 (.resolved (directory 0x73)), .lifecycle,
      .key .openConnectionManager, .key (.moveConnectionSelection true),
      .key .activateSelectedConnection, .key .submitTextInput,
      .ends 0 (.resolved (directory 0x74)), .lifecycle,
      .key (.switchContext true), .key .openConnectionManager,
      .key (.moveConnectionSelection false), .key .deleteSelectedConnection,
      .key .confirmConnectionClose, .ends 0 .done, .lifecycle]

theorem afterClose_consistent : afterClose.contextOrder.length = 1 ∧
    afterClose.connectionOrder.length = 1 ∧ afterClose.Consistent :=
  ⟨by decide +kernel, by decide +kernel, stays_consistent (steps_runs _ _)⟩

end Example

end FilePeeker.Tabs
