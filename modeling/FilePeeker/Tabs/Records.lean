import FilePeeker.Tabs.Wf

/-!
# The records of the connections

A record is inserted, its connection is opened, it goes on or is removed; and one that is
ready is closed, with all its tabs.
-/

namespace FilePeeker.Tabs

open Browser (BrowserContext BrowserContextEvent ContextId ContextOp)

variable {μ : Type} {app app' : App μ} {shut : Option RecordId} {id r : Uuid}
  {c : ConnectionId} {record : ConnectionRecord} {tab : BrowserTab μ}

namespace App

theorem insertConnectionRecord_spec (app : App μ) (target : ServerLocation)
    (status : ConnectionStatus) : ∃ record, record.status = status ∧ record.connection = none ∧
      record.lastActiveContextId = none ∧
      (app.insertConnectionRecord target status).1.connections =
        app.connections.insert app.uuids record ∧
      (app.insertConnectionRecord target status).2 = app.uuids :=
  ⟨_, rfl, rfl, rfl, rfl, rfl⟩

/-- Another record, which is ready and holds a connection of its own, or holds none. -/
theorem ConnectionsWf.insert (h : ConnectionsWf app)
    (hready : record.status = .ready →
      ∃ c, record.connection = some c ∧ app.client.lookup c = some r)
    (hnot : record.status ≠ .ready → record.connection = none) :
    ConnectionsWf { app with connections := app.connections.insert r record } := by
  refine ⟨fun r' other hother hstatus => ?_, fun r' other hother hstatus => ?_,
    fun r' other c hother hc => ?_⟩
  · rcases Table.cases_of_lookup_insert hother with ⟨-, rfl⟩ | hold
    · obtain ⟨c, hc, -⟩ := hready hstatus
      rw [hc]
      rfl
    · exact h.ready r' other hold hstatus
  · rcases Table.cases_of_lookup_insert hother with ⟨-, rfl⟩ | hold
    · exact hnot hstatus
    · exact h.notReady r' other hold hstatus
  · rcases Table.cases_of_lookup_insert hother with ⟨rfl, rfl⟩ | hold
    · by_cases hstatus : other.status = .ready
      · obtain ⟨c', hc', hclient⟩ := hready hstatus
        obtain rfl := Option.some.inj (hc'.symm.trans hc)
        exact hclient
      · rw [hnot hstatus] at hc
        cases hc
    · exact h.retained r' other c hold hc

/-- The first record of all is selected. -/
theorem RecordsWf.push (h : RecordsWf app) (hfresh : app.connections.lookup r = none)
    (record : ConnectionRecord) :
    RecordsWf { app with
      connections := app.connections.insert r record
      connectionOrder := app.connectionOrder ++ [r]
      selectedConnectionId := app.selectedConnectionId.or (some r) } := by
  refine ⟨h.ordered.push hfresh record, fun r' hr' => ?_, fun _ => ?_⟩
  · cases hselected : app.selectedConnectionId with
    | none =>
      rw [hselected] at hr'
      exact List.mem_append_right _ (List.mem_singleton.mpr (Option.some.inj hr').symm)
    | some selected =>
      rw [hselected] at hr'
      exact List.mem_append_left _ (h.selected r' (hr' ▸ hselected))
  · show app.selectedConnectionId.or (some r) ≠ none
    cases app.selectedConnectionId <;> exact Option.some_ne_none _

/-- A record is inserted. -/
theorem Wf.insertConnectionRecord (h : Wf shut app) (target : ServerLocation) :
    Wf shut (app.insertConnectionRecord target .starting).1 := by
  obtain ⟨record, hstatus, hconnection, hlast, hinsert, -⟩ :=
    insertConnectionRecord_spec app target .starting
  obtain ⟨-, hfresh, -⟩ := h.lookup_uuids
  have hcases {r : RecordId} {record' : ConnectionRecord} (hr :
      (app.insertConnectionRecord target .starting).1.connections.lookup r = some record') :
      r = app.uuids ∧ record' = record ∨ app.connections.lookup r = some record' :=
    Table.cases_of_lookup_insert (hinsert ▸ hr)
  have hadvances : Advances app (app.insertConnectionRecord target .starting).1 := by
    refine ⟨Nat.le_succ _, fun r hr record' hrecord' => ?_, fun c _ r hc => hc,
      fun c r _ hc _ _ => hc⟩
    rcases hcases hrecord' with ⟨rfl, -⟩ | hold
    · exact absurd hr (Nat.lt_irrefl _)
    · exact ⟨record', hold, id, id⟩
  have hrecords := h.records.push hfresh record
  have hconnections : ConnectionsWf { app with
      connections := app.connections.insert app.uuids record } :=
    h.connections.insert (fun hready => by rw [hstatus] at hready; cases hready)
      fun _ => hconnection
  rw [← hinsert] at hrecords hconnections
  refine ⟨⟨h.tabs.ordered, h.tabs.active, h.tabs.someActive, ?_⟩,
    ⟨hrecords.ordered, hrecords.selected, hrecords.someSelected⟩,
    ⟨hconnections.ready, hconnections.notReady, hconnections.retained⟩, ?_, ⟨?_, ?_, ?_⟩,
    fun task htask => (h.tasks task htask).advance hadvances,
    fun event hevent => (h.events event hevent).advance hadvances⟩
  · intro r record' last hrecord' hlast'
    rcases hcases hrecord' with ⟨-, rfl⟩ | hold
    · rw [hlast] at hlast'
      cases hlast'
    · exact h.tabs.lastActive r record' last hold hlast'
  · intro id tab htab hshut
    obtain ⟨record', hrecord', hready⟩ := h.live id tab htab hshut
    refine ⟨record', ?_, hready⟩
    rw [hinsert, Table.lookup_insert_if, if_neg, hrecord']
    intro heq
    rw [heq, hfresh] at hrecord'
    cases hrecord'
  · exact fun id hid => Nat.lt_succ_of_lt (h.below.contexts id hid)
  · intro r hr
    rcases List.mem_append.mp hr with hold | hnew
    · exact Nat.lt_succ_of_lt (h.below.records r hold)
    · obtain rfl := List.mem_singleton.mp hnew
      exact Nat.lt_succ_self app.uuids
  · exact fun c r hc => Nat.lt_succ_of_lt (h.below.client c r hc)

/-- A connection is opened for a record. -/
theorem Wf.openConnection (h : Wf shut app) (r : RecordId) :
    Wf shut (app.openConnection r).1 := by
  obtain ⟨-, -, hfresh⟩ := h.lookup_uuids
  have hlookup (c : ConnectionId) : (app.openConnection r).1.client.lookup c =
      if c = app.uuids then some r else app.client.lookup c := Table.lookup_insert_if _ _ _ _
  have hold {c : ConnectionId} {r' : RecordId} (hc : app.client.lookup c = some r') :
      (app.openConnection r).1.client.lookup c = some r' := by
    rw [hlookup, if_neg, hc]
    rintro rfl
    rw [hfresh] at hc
    cases hc
  have hadvances : Advances app (app.openConnection r).1 := by
    refine ⟨Nat.le_succ _, fun r' _ record hrecord => ⟨record, hrecord, id, id⟩,
      fun c hc r' hr' => ?_, fun c r' record hc _ _ => hold hc⟩
    rw [hlookup, if_neg (Nat.ne_of_lt hc)] at hr'
    exact hr'
  refine ⟨⟨h.tabs.ordered, h.tabs.active, h.tabs.someActive, h.tabs.lastActive⟩,
    ⟨h.records.ordered, h.records.selected, h.records.someSelected⟩,
    ⟨h.connections.ready, h.connections.notReady,
      fun r' record c hr' hc => hold (h.connections.retained r' record c hr' hc)⟩, h.live,
    ⟨fun id hid => Nat.lt_succ_of_lt (h.below.contexts id hid),
      fun r' hr' => Nat.lt_succ_of_lt (h.below.records r' hr'), fun c r' hc => ?_⟩,
    fun task htask => (h.tasks task htask).advance hadvances,
    fun event hevent => (h.events event hevent).advance hadvances⟩
  rw [hlookup] at hc
  split at hc
  · next heq => exact heq ▸ Nat.lt_succ_self app.uuids
  · exact Nat.lt_succ_of_lt (h.below.client c r' hc)

/-- A record goes on: it becomes ready with a connection that is retained for it, or it has
none. -/
theorem Wf.update {shut' : Option RecordId} (h : Wf shut app)
    (hr : app.connections.lookup r = some record) {record' : ConnectionRecord}
    (hlast : record'.lastActiveContextId = record.lastActiveContextId)
    (hready : record'.status = .ready →
      ∃ c, record'.connection = some c ∧ app.client.lookup c = some r)
    (hnot : record'.status ≠ .ready → record'.connection = none)
    (hclosing : record.status = .closing → record'.status = .closing)
    (hstarting : record'.status ≠ .starting)
    (hlive : Live shut' { app with connections := app.connections.insert r record' }) :
    Wf shut' { app with connections := app.connections.insert r record' } := by
  have hadvances : Advances app { app with connections := app.connections.insert r record' } := by
    refine ⟨Nat.le_refl _, fun r' _ record'' hrecord'' => ?_, fun c _ r' hc => hc,
      fun c r' _ hc _ _ => hc⟩
    rcases Table.cases_of_lookup_insert hrecord'' with ⟨rfl, rfl⟩ | hold
    · exact ⟨record, hr, hclosing, fun hstatus => absurd hstatus hstarting⟩
    · exact ⟨record'', hold, id, id⟩
  refine ⟨⟨h.tabs.ordered, h.tabs.active, h.tabs.someActive, ?_⟩,
    ⟨?_, h.records.selected, h.records.someSelected⟩, h.connections.insert hready hnot, hlive,
    ⟨h.below.contexts, h.below.records, h.below.client⟩,
    fun task htask => (h.tasks task htask).advance hadvances,
    fun event hevent => (h.events event hevent).advance hadvances⟩
  · intro r' record'' last hrecord'' hlast''
    rcases Table.cases_of_lookup_insert hrecord'' with ⟨rfl, rfl⟩ | hold
    · exact h.tabs.lastActive r' record last hr (hlast ▸ hlast'')
    · exact h.tabs.lastActive r' record'' last hold hlast''
  · refine h.records.ordered.congr fun r' => ?_
    rw [Table.lookup_insert_if]
    split
    · next heq => rw [heq, hr, Option.isSome_some, Option.isSome_some]
    · rfl

/-- No tab is of a record that is not ready. -/
theorem Live.update (h : Live shut app) (hr : app.connections.lookup r = some record)
    (hstatus : record.status ≠ .ready) (record' : ConnectionRecord) :
    Live shut { app with connections := app.connections.insert r record' } := by
  intro id tab htab hshut
  obtain ⟨old, hold, hready⟩ := h id tab htab hshut
  refine ⟨old, ?_, hready⟩
  show (app.connections.insert r record').lookup tab.connectionId = some old
  rw [Table.lookup_insert_if, if_neg, hold]
  intro heq
  rw [heq, hr] at hold
  exact hstatus (Option.some.inj hold ▸ hready)

/-- A record that was starting is ready. -/
theorem Wf.setReady (h : Wf shut app) (hr : app.connections.lookup r = some record)
    (hstarting : record.status = .starting) (hc : app.client.lookup c = some r) :
    Wf shut (app.setReady r c) := by
  have hnot : record.status ≠ .ready := by simp [hstarting]
  unfold App.setReady Table.modify
  rw [hr]
  exact h.update hr rfl (fun _ => ⟨c, rfl, hc⟩) (fun hne => absurd rfl hne)
    (fun hclosing => by rw [hstarting] at hclosing; cases hclosing) (fun heq => by cases heq)
    (h.live.update hr hnot _)

/-- A record that was starting has failed. -/
theorem Wf.fail (h : Wf shut app) (hr : app.connections.lookup r = some record)
    (hstarting : record.status = .starting) (error : String) :
    Wf shut { app with connections :=
      app.connections.insert r { record with status := .failed error } } := by
  have hnot : record.status ≠ .ready := by simp [hstarting]
  exact h.update hr rfl (fun heq => by cases heq)
    (fun _ => h.connections.notReady r record hr hnot)
    (fun hclosing => by rw [hstarting] at hclosing; cases hclosing) (fun heq => by cases heq)
    (h.live.update hr hnot _)

theorem repairConnectionSelection_eq (app : App μ) : ∃ selected,
    app.repairConnectionSelection = { app with selectedConnectionId := selected } := by
  unfold repairConnectionSelection
  split
  · exact ⟨app.selectedConnectionId, rfl⟩
  · exact ⟨_, rfl⟩

/-- Whatever was selected, a record that is there is. -/
theorem recordsWf_repair (app : App μ) (h : Ordered app.connectionOrder app.connections) :
    RecordsWf app.repairConnectionSelection := by
  unfold repairConnectionSelection
  split
  · next hany =>
    obtain ⟨r, hr, hsome⟩ := (Option.any_eq_true ..).mp hany
    refine ⟨h, fun r' hr' => ?_, fun _ => by rw [hr]; exact Option.some_ne_none r⟩
    obtain rfl := Option.some.inj (hr.symm.trans hr')
    exact (h.mem r).mpr hsome
  · refine ⟨h, fun r hr => List.mem_of_head? hr, fun hne hnone => hne ?_⟩
    exact List.head?_eq_none_iff.mp hnone

theorem Wf.repair (h : Wf shut app) : Wf shut app.repairConnectionSelection := by
  have hrecords := recordsWf_repair app h.records.ordered
  obtain ⟨selected, heq⟩ := repairConnectionSelection_eq app
  rw [heq] at hrecords ⊢
  exact ⟨⟨h.tabs.ordered, h.tabs.active, h.tabs.someActive, h.tabs.lastActive⟩, hrecords,
    ⟨h.connections.ready, h.connections.notReady, h.connections.retained⟩, h.live,
    ⟨h.below.contexts, h.below.records, h.below.client⟩, h.tasks, h.events⟩

/-- Another record is selected. -/
theorem Wf.select (h : Wf shut app) (hr : r ∈ app.connectionOrder) :
    Wf shut { app with selectedConnectionId := some r } :=
  ⟨⟨h.tabs.ordered, h.tabs.active, h.tabs.someActive, h.tabs.lastActive⟩,
    ⟨h.records.ordered, fun _ heq => Option.some.inj heq ▸ hr, fun _ => Option.some_ne_none r⟩,
    ⟨h.connections.ready, h.connections.notReady, h.connections.retained⟩, h.live,
    ⟨h.below.contexts, h.below.records, h.below.client⟩, h.tasks, h.events⟩

/-- Only the overlay and the copy change. -/
structure Looks (app app' : App μ) : Prop where
  exists_look : ∃ overlay labelCounts transferSelection transferTask,
    app' = { app with overlay, labelCounts, transferSelection, transferTask }

theorem looks_of (app : App μ) (overlay : Overlay) (labelCounts : Table Text Nat)
    (transferSelection : Option TransferSelection) (transferTask : Option TransferTask) :
    Looks app { app with overlay, labelCounts, transferSelection, transferTask } :=
  ⟨_, _, _, _, rfl⟩

theorem Wf.looks (h : Wf shut app) (hlooks : Looks app app') : Wf shut app' := by
  obtain ⟨overlay, labelCounts, transferSelection, transferTask, rfl⟩ := hlooks.exists_look
  exact h.look overlay labelCounts transferSelection transferTask

theorem looks_clearTransferState (app : App μ) (r : RecordId) :
    Looks app (app.clearTransferStateForConnection r) := by
  unfold clearTransferStateForConnection
  dsimp only
  split <;> split <;> first | exact looks_of app _ _ _ _ | (split <;> exact looks_of app _ _ _ _)

theorem looks_takeTransfer (app : App μ) (r : RecordId) :
    Looks app (app.takeTransferForConnection r) := by
  unfold takeTransferForConnection
  split <;> exact looks_of app _ _ _ _

/-- A record without tabs goes. -/
theorem Wf.eraseRecord (h : Wf none app)
    (hno : ∀ id tab, app.contexts.lookup id = some tab → tab.connectionId ≠ r)
    (selected : Option RecordId) :
    Wf none ({ app with
      connections := app.connections.erase r
      connectionOrder := app.connectionOrder.filter (· ≠ r)
      selectedConnectionId := selected } : App μ).repairConnectionSelection := by
  have hcases {r' : RecordId} {record : ConnectionRecord}
      (hr' : (app.connections.erase r).lookup r' = some record) :
      app.connections.lookup r' = some record := by
    rw [Table.lookup_erase_if] at hr'
    split at hr'
    · cases hr'
    · exact hr'
  have hrecords := recordsWf_repair { app with
    connections := app.connections.erase r
    connectionOrder := app.connectionOrder.filter (· ≠ r)
    selectedConnectionId := selected } (h.records.ordered.drop r)
  obtain ⟨selected', heq⟩ := repairConnectionSelection_eq ({ app with
    connections := app.connections.erase r
    connectionOrder := app.connectionOrder.filter (· ≠ r)
    selectedConnectionId := selected } : App μ)
  rw [heq] at hrecords ⊢
  have hadvances : Advances app { app with
      connections := app.connections.erase r
      connectionOrder := app.connectionOrder.filter (· ≠ r)
      selectedConnectionId := selected' } :=
    ⟨Nat.le_refl _, fun r' _ record hrecord => ⟨record, hcases hrecord, id, id⟩,
      fun c _ r' hc => hc, fun c r' _ hc _ _ => hc⟩
  refine ⟨⟨h.tabs.ordered, h.tabs.active, h.tabs.someActive,
      fun r' record last hrecord => h.tabs.lastActive r' record last (hcases hrecord)⟩, hrecords,
    ⟨fun r' record hrecord => h.connections.ready r' record (hcases hrecord),
      fun r' record hrecord => h.connections.notReady r' record (hcases hrecord),
      fun r' record c hrecord => h.connections.retained r' record c (hcases hrecord)⟩, ?_,
    ⟨h.below.contexts, fun r' hr' => h.below.records r' (List.mem_of_mem_filter hr'),
      h.below.client⟩,
    fun task htask => (h.tasks task htask).advance hadvances,
    fun event hevent => (h.events event hevent).advance hadvances⟩
  intro id tab htab hshut
  obtain ⟨record, hrecord, hready⟩ := h.live id tab htab hshut
  refine ⟨record, ?_, hready⟩
  show (app.connections.erase r).lookup tab.connectionId = some record
  rw [Table.lookup_erase_if, if_neg (hno id tab htab), hrecord]

/-- **A record is removed** that has no tabs. -/
theorem Wf.removeConnectionRecord (h : Wf none app)
    (hno : ∀ id tab, app.contexts.lookup id = some tab → tab.connectionId ≠ r) :
    Wf none (app.removeConnectionRecord r) := by
  have hlooks := looks_clearTransferState app r
  unfold App.removeConnectionRecord
  generalize app.clearTransferStateForConnection r = cleared at hlooks
  have hcleared := h.looks hlooks
  obtain ⟨overlay, labelCounts, transferSelection, transferTask, rfl⟩ := hlooks.exists_look
  dsimp only
  split
  · exact hcleared.eraseRecord hno _
  · exact hcleared.eraseRecord hno _

/-- A record that is closing has no tabs. -/
theorem Wf.no_tab_of_closing (h : Wf none app) (hclosing : app.Closing r) (id : ContextId)
    (tab : BrowserTab μ) (htab : app.contexts.lookup id = some tab) : tab.connectionId ≠ r := by
  rintro rfl
  obtain ⟨record, hrecord, hready⟩ := h.live id tab htab (by simp)
  rw [hclosing record hrecord] at hready
  cases hready

/-- A record is closing, and its tabs stand for a moment without it. -/
theorem Wf.shutRecord (h : Wf none app) (hr : app.connections.lookup r = some record)
    {closing : ConnectionRecord}
    (hclosing : closing = { record with status := .closing, connection := none }) :
    Wf (some r) { app with connections := app.connections.insert r closing } ∧
      Closing { app with connections := app.connections.insert r closing } r := by
  subst hclosing
  constructor
  · refine h.update hr rfl (fun heq => by cases heq) (fun _ => rfl) (fun _ => rfl)
      (fun heq => by cases heq) ?_
    intro id tab htab hshut
    obtain ⟨old, hold, hready⟩ := h.live id tab htab (by simp)
    refine ⟨old, ?_, hready⟩
    show (app.connections.insert r _).lookup tab.connectionId = some old
    rw [Table.lookup_insert_if, if_neg fun heq => hshut (congrArg some heq), hold]
  · intro record' hrecord'
    obtain rfl := Option.some.inj ((AList.lookup_insert _).symm.trans hrecord')
    rfl

theorem Wf.settle (h : Wf (some r) app)
    (hno : ∀ id tab, app.contexts.lookup id = some tab → tab.connectionId ≠ r) : Wf none app :=
  ⟨h.tabs, h.records, h.connections,
    fun id tab htab _ => h.live id tab htab fun heq => hno id tab htab (Option.some.inj heq),
    h.below, h.tasks, h.events⟩

theorem Wf.lt_uuids (h : Wf shut app) (hr : app.connections.lookup r = some record) :
    r < app.uuids := by
  refine h.below.records r ((h.records.ordered.mem r).mpr ?_)
  rw [hr]
  rfl

/-- The task that closes the connection of a record. -/
theorem Wf.taskWf_closing (h : Wf none app) (hr : app.connections.lookup r = some record)
    (hc : record.connection = some c) (huuids : app'.uuids = app.uuids)
    (hclient : app'.client = app.client) (hclosing : app'.Closing r) :
    app'.TaskWf (.closing r c) := by
  have hretained := h.connections.retained r record c hr hc
  have hbelow := h.below.client c r hretained
  refine ⟨huuids.symm ▸ h.lt_uuids hr, huuids.symm ▸ hbelow, hclosing, fun r' hr' => ?_⟩
  rw [hclient, hretained] at hr'
  exact (Option.some.inj hr').symm

/-- **A connection is closed**: first its tabs are, then a task closes it. -/
theorem Wf.confirmConnectionClose (h : Wf none app) : Wf none app.confirmConnectionClose := by
  unfold App.confirmConnectionClose
  split
  · next r _ =>
    split
    · exact h.looks (looks_of app _ _ _ _)
    · next record hrecord =>
      dsimp only
      generalize hshut : { record with status := .closing, connection := none } = closing
      obtain ⟨hshutWf, hclosing⟩ := h.shutRecord hrecord hshut.symm
      obtain ⟨hwf, hkept, hno⟩ := removeContextsForConnection_spec hshutWf r
      have hemptied := hclosing.advance hkept.advances (h.lt_uuids hrecord)
      generalize removeContextsForConnection _ r = emptied at hwf hkept hno hemptied
      have hlooks := looks_clearTransferState emptied r
      generalize emptied.clearTransferStateForConnection r = cleared at hlooks
      obtain ⟨overlay, labelCounts, transferSelection, transferTask, rfl⟩ := hlooks.exists_look
      have hsettled := (hwf.settle hno).look .connectionManager labelCounts transferSelection
        transferTask
      split
      · exact hsettled.removeConnectionRecord hno
      · next c hc =>
        have htaken := looks_takeTransfer { emptied with
          overlay := .connectionManager, labelCounts, transferSelection, transferTask } r
        refine (hsettled.looks htaken).spawn (h.taskWf_closing hrecord hc ?_ ?_ ?_)
        all_goals
          obtain ⟨_, _, _, _, htaken⟩ := htaken.exists_look
          rw [htaken]
        · exact hkept.uuids
        · exact hkept.client
        · exact hemptied
  · exact h

end App

end FilePeeker.Tabs
