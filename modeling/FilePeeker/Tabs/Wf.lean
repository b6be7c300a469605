import FilePeeker.Tabs.App

/-!
# Tabs and the records they are of

Five fields of `App` name what two maps hold.  `Wf` is what every operation keeps of
them, and of what the tasks and the events on their way rely on.

A connection is closed in two steps: its tabs go at once, and its record when the task
that closes it reports.  `Wf` is also stated of the time between the first step and the
end of the tabs (`shut`), when tabs stand without a connection.
-/

namespace FilePeeker.Tabs

open Browser (BrowserContext BrowserContextEvent ContextId ContextOp)

variable {μ : Type} {app app' : App μ} {shut : Option RecordId} {id r : Uuid}
  {c : ConnectionId} {record : ConnectionRecord} {tab : BrowserTab μ}

namespace App

/-- The tabs: their order, the active one, and what each record remembers as its last. -/
structure TabsWf (app : App μ) : Prop where
  ordered : Ordered app.contextOrder app.contexts
  active : ∀ id, app.activeContextId = some id → id ∈ app.contextOrder
  someActive : app.contextOrder ≠ [] → app.activeContextId ≠ none
  lastActive : ∀ r record id, app.connections.lookup r = some record →
    record.lastActiveContextId = some id → app.isOf r id

/-- The records: their order and the selected one. -/
structure RecordsWf (app : App μ) : Prop where
  ordered : Ordered app.connectionOrder app.connections
  selected : ∀ r, app.selectedConnectionId = some r → r ∈ app.connectionOrder
  someSelected : app.connectionOrder ≠ [] → app.selectedConnectionId ≠ none

/-- The connections: a record that is ready holds one that the client retains for it, and
no other record holds any. -/
structure ConnectionsWf (app : App μ) : Prop where
  ready : ∀ r record, app.connections.lookup r = some record → record.status = .ready →
    record.connection.isSome
  notReady : ∀ r record, app.connections.lookup r = some record → record.status ≠ .ready →
    record.connection = none
  retained : ∀ r record c, app.connections.lookup r = some record →
    record.connection = some c → app.client.lookup c = some r

/-- A tab is of a record that is ready; but for the tabs of `shut`. -/
def Live (shut : Option RecordId) (app : App μ) : Prop :=
  ∀ id tab, app.contexts.lookup id = some tab → some tab.connectionId ≠ shut →
    ∃ record, app.connections.lookup tab.connectionId = some record ∧ record.status = .ready

/-- The record is closing, if it is still there. -/
def Closing (app : App μ) (r : RecordId) : Prop :=
  ∀ record, app.connections.lookup r = some record → record.status = .closing

/-- What a task was spawned for. -/
def TaskWf (app : App μ) : Task → Prop
  | .opening r _ => r < app.uuids
  | .closing r c => r < app.uuids ∧ c < app.uuids ∧ app.Closing r ∧
      ∀ r', app.client.lookup c = some r' → r' = r
  | .resolving .. | .copying .. => True

/-- What an event reports. -/
def EventWf (app : App μ) : LifecycleEvent → Prop
  | .connectionReady r c => r < app.uuids ∧ c < app.uuids ∧ ∀ record,
      app.connections.lookup r = some record → record.status = .starting →
        app.client.lookup c = some r
  | .connectionClosed r _ => r < app.uuids ∧ app.Closing r
  | .connectionFailed .. | .pathResolved .. | .transferCompleted .. => True

/-- No UUID is in use before it is generated. -/
structure Below (app : App μ) : Prop where
  contexts : ∀ id ∈ app.contextOrder, id < app.uuids
  records : ∀ r ∈ app.connectionOrder, r < app.uuids
  client : ∀ c r, app.client.lookup c = some r → c < app.uuids

structure Wf (shut : Option RecordId) (app : App μ) : Prop where
  tabs : TabsWf app
  records : RecordsWf app
  connections : ConnectionsWf app
  live : Live shut app
  below : Below app
  tasks : ∀ task ∈ app.tasks, app.TaskWf task
  events : ∀ event ∈ app.lifecycle, app.EventWf event

theorem isOf_iff : app.isOf r id = true ↔
    ∃ tab, app.contexts.lookup id = some tab ∧ tab.connectionId = r := by
  rw [isOf, Option.any_eq_true]
  exact exists_congr fun tab => and_congr_right fun _ => decide_eq_true_iff

/-! ### What a step may do to tasks and events -/

/-- Nothing that a task or an event relies on is lost. -/
structure Advances (app app' : App μ) : Prop where
  uuids : app.uuids ≤ app'.uuids
  records : ∀ r < app.uuids, ∀ record', app'.connections.lookup r = some record' →
    ∃ record, app.connections.lookup r = some record ∧
      (record.status = .closing → record'.status = .closing) ∧
      (record'.status = .starting → record.status = .starting)
  clientOld : ∀ c < app.uuids, ∀ r, app'.client.lookup c = some r → app.client.lookup c = some r
  clientKept : ∀ c r record', app.client.lookup c = some r →
    app'.connections.lookup r = some record' → record'.status = .starting →
      app'.client.lookup c = some r

theorem Closing.advance (ha : Advances app app') (hr : r < app.uuids) (h : app.Closing r) :
    app'.Closing r := by
  intro record' hrecord'
  obtain ⟨record, hrecord, hclosing, -⟩ := ha.records r hr record' hrecord'
  exact hclosing (h record hrecord)

theorem TaskWf.advance {task : Task} (ha : Advances app app') (h : app.TaskWf task) :
    app'.TaskWf task := by
  cases task with
  | opening r target => exact Nat.lt_of_lt_of_le h ha.uuids
  | closing r c =>
    obtain ⟨hr, hc, hclosing, honly⟩ := h
    exact ⟨Nat.lt_of_lt_of_le hr ha.uuids, Nat.lt_of_lt_of_le hc ha.uuids,
      hclosing.advance ha hr, fun r' hr' => honly r' (ha.clientOld c hc r' hr')⟩
  | resolving r requestId c input => trivial
  | copying transferId request conflict => trivial

theorem EventWf.advance {event : LifecycleEvent} (ha : Advances app app')
    (h : app.EventWf event) : app'.EventWf event := by
  cases event with
  | connectionReady r c =>
    obtain ⟨hr, hc, hstarting⟩ := h
    refine ⟨Nat.lt_of_lt_of_le hr ha.uuids, Nat.lt_of_lt_of_le hc ha.uuids, ?_⟩
    intro record' hrecord' hstatus'
    obtain ⟨record, hrecord, -, hstatus⟩ := ha.records r hr record' hrecord'
    exact ha.clientKept c r record' (hstarting record hrecord (hstatus hstatus')) hrecord' hstatus'
  | connectionClosed r result =>
    exact ⟨Nat.lt_of_lt_of_le h.1 ha.uuids, h.2.advance ha h.1⟩
  | connectionFailed r error => trivial
  | pathResolved r requestId result => trivial
  | transferCompleted transferId request conflict result => trivial

/-- Where only the records' last tabs change, and the tabs. -/
structure Kept (app app' : App μ) : Prop where
  client : app'.client = app.client
  records : ∀ r,
    (app'.connections.lookup r).map (fun record => (record.status, record.connection)) =
      (app.connections.lookup r).map fun record => (record.status, record.connection)
  connectionOrder : app'.connectionOrder = app.connectionOrder
  selected : app'.selectedConnectionId = app.selectedConnectionId
  uuids : app'.uuids = app.uuids
  tasks : app'.tasks = app.tasks
  lifecycle : app'.lifecycle = app.lifecycle

theorem Kept.refl (app : App μ) : Kept app app := ⟨rfl, fun _ => rfl, rfl, rfl, rfl, rfl, rfl⟩

theorem Kept.trans {app'' : App μ} (h : Kept app app') (g : Kept app' app'') : Kept app app'' :=
  ⟨g.client.trans h.client, fun r => (g.records r).trans (h.records r),
    g.connectionOrder.trans h.connectionOrder, g.selected.trans h.selected,
    g.uuids.trans h.uuids, g.tasks.trans h.tasks, g.lifecycle.trans h.lifecycle⟩

theorem Kept.recordOf (h : Kept app app') {record' : ConnectionRecord}
    (hrecord' : app'.connections.lookup r = some record') :
    ∃ record, app.connections.lookup r = some record ∧ record.status = record'.status ∧
      record.connection = record'.connection := by
  have hmap := h.records r
  rw [hrecord', Option.map_some] at hmap
  obtain ⟨record, hrecord, heq⟩ := Option.map_eq_some_iff.mp hmap.symm
  exact ⟨record, hrecord, congrArg Prod.fst heq, congrArg Prod.snd heq⟩

theorem Kept.symm (h : Kept app app') : Kept app' app :=
  ⟨h.client.symm, fun r => (h.records r).symm, h.connectionOrder.symm, h.selected.symm,
    h.uuids.symm, h.tasks.symm, h.lifecycle.symm⟩

theorem Kept.advances (h : Kept app app') : Advances app app' := by
  refine ⟨h.uuids.ge, fun r _ record' hrecord' => ?_, fun c _ r hc => h.client ▸ hc,
    fun c r _ hc _ _ => h.client.symm ▸ hc⟩
  obtain ⟨record, hrecord, hstatus, -⟩ := h.recordOf hrecord'
  exact ⟨record, hrecord, fun hclosing => hstatus ▸ hclosing, fun hstarting => hstatus ▸ hstarting⟩

theorem Wf.kept (h : Wf shut app) (hk : Kept app app') (htabs : TabsWf app')
    (hlive : Live shut app') (hbelow : ∀ id ∈ app'.contextOrder, id < app'.uuids) :
    Wf shut app' := by
  refine ⟨htabs, ⟨?_, ?_, ?_⟩, ⟨?_, ?_, ?_⟩, hlive, ⟨hbelow, ?_, ?_⟩, ?_, ?_⟩
  · rw [hk.connectionOrder]
    refine h.records.ordered.congr fun r => ?_
    rw [← Option.isSome_map, hk.records, Option.isSome_map]
  · rw [hk.selected, hk.connectionOrder]
    exact h.records.selected
  · rw [hk.selected, hk.connectionOrder]
    exact h.records.someSelected
  · intro r record' hrecord' hready
    obtain ⟨record, hrecord, hstatus, hconnection⟩ := hk.recordOf hrecord'
    exact hconnection ▸ h.connections.ready r record hrecord (hstatus.trans hready)
  · intro r record' hrecord' hready
    obtain ⟨record, hrecord, hstatus, hconnection⟩ := hk.recordOf hrecord'
    exact hconnection ▸ h.connections.notReady r record hrecord (hstatus ▸ hready)
  · intro r record' c hrecord' hc
    obtain ⟨record, hrecord, -, hconnection⟩ := hk.recordOf hrecord'
    exact hk.client ▸ h.connections.retained r record c hrecord (hconnection.trans hc)
  · rw [hk.connectionOrder, hk.uuids]
    exact h.below.records
  · rw [hk.client, hk.uuids]
    exact h.below.client
  · intro task htask
    exact (h.tasks task (hk.tasks ▸ htask)).advance hk.advances
  · intro event hevent
    exact (h.events event (hk.lifecycle ▸ hevent)).advance hk.advances

/-! ### What touches no tab and no record -/

/-- Another overlay, other labels, another copy. -/
theorem Wf.look (h : Wf shut app) (overlay : Overlay) (labelCounts : Table Text Nat)
    (transferSelection : Option TransferSelection) (transferTask : Option TransferTask) :
    Wf shut { app with overlay, labelCounts, transferSelection, transferTask } :=
  ⟨⟨h.tabs.ordered, h.tabs.active, h.tabs.someActive, h.tabs.lastActive⟩,
    ⟨h.records.ordered, h.records.selected, h.records.someSelected⟩,
    ⟨h.connections.ready, h.connections.notReady, h.connections.retained⟩, h.live,
    ⟨h.below.contexts, h.below.records, h.below.client⟩, h.tasks, h.events⟩

/-- Tasks end, events are taken, and UUIDs are generated. -/
theorem Wf.pass (h : Wf shut app) {tasks : List Task} {lifecycle : List LifecycleEvent}
    {uuids : Uuid} (huuids : app.uuids ≤ uuids)
    (htasks : ∀ task ∈ tasks, task ∈ app.tasks ∨ TaskWf { app with uuids } task)
    (hevents : ∀ event ∈ lifecycle, event ∈ app.lifecycle ∨ EventWf { app with uuids } event) :
    Wf shut { app with tasks, lifecycle, uuids } := by
  have hadvances : Advances app { app with tasks, lifecycle, uuids } :=
    ⟨huuids, fun r _ record hrecord => ⟨record, hrecord, id, id⟩, fun c _ r hc => hc,
      fun c r record hc _ _ => hc⟩
  refine ⟨⟨h.tabs.ordered, h.tabs.active, h.tabs.someActive, h.tabs.lastActive⟩,
    ⟨h.records.ordered, h.records.selected, h.records.someSelected⟩,
    ⟨h.connections.ready, h.connections.notReady, h.connections.retained⟩, h.live,
    ⟨fun id hid => Nat.lt_of_lt_of_le (h.below.contexts id hid) huuids,
      fun r hr => Nat.lt_of_lt_of_le (h.below.records r hr) huuids,
      fun c r hc => Nat.lt_of_lt_of_le (h.below.client c r hc) huuids⟩, ?_, ?_⟩
  · intro task htask
    rcases htasks task htask with hold | hnew
    · exact (h.tasks task hold).advance hadvances
    · cases task <;> exact hnew
  · intro event hevent
    rcases hevents event hevent with hold | hnew
    · exact (h.events event hold).advance hadvances
    · cases event <;> exact hnew

theorem Wf.spawn (h : Wf shut app) {task : Task} (htask : app.TaskWf task) :
    Wf shut (app.spawn task) := by
  refine h.pass (Nat.le_refl _) (fun other hother => ?_) fun event hevent => .inl hevent
  rcases List.mem_append.mp hother with hold | hnew
  · exact .inl hold
  · exact .inr (List.mem_singleton.mp hnew ▸ htask)

theorem Wf.send (h : Wf shut app) {event : LifecycleEvent} (hevent : app.EventWf event) :
    Wf shut (app.send event) := by
  refine h.pass (Nat.le_refl _) (fun task htask => .inl htask) fun other hother => ?_
  rcases List.mem_append.mp hother with hold | hnew
  · exact .inl hold
  · exact .inr (List.mem_singleton.mp hnew ▸ hevent)

/-! ### Tabs -/

/-- Other browsers in the same tabs. -/
theorem Wf.retab (h : Wf shut app) {contexts : Table ContextId (BrowserTab μ)}
    (hsame : ∀ id, (contexts.lookup id).map BrowserTab.connectionId =
      (app.contexts.lookup id).map BrowserTab.connectionId) :
    Wf shut { app with contexts } := by
  have hsome {id : ContextId} {tab' : BrowserTab μ} (htab' : contexts.lookup id = some tab') :
      ∃ tab, app.contexts.lookup id = some tab ∧ tab.connectionId = tab'.connectionId := by
    have hmap := hsame id
    rw [htab', Option.map_some] at hmap
    exact Option.map_eq_some_iff.mp hmap.symm
  have hkeys (id : ContextId) : (contexts.lookup id).isSome = (app.contexts.lookup id).isSome := by
    rw [← Option.isSome_map, hsame, Option.isSome_map]
  refine h.kept ⟨rfl, fun _ => rfl, rfl, rfl, rfl, rfl, rfl⟩
    ⟨h.tabs.ordered.congr hkeys, h.tabs.active, h.tabs.someActive, ?_⟩ ?_ h.below.contexts
  · intro r record id hrecord hlast
    obtain ⟨tab, htab, hof⟩ := isOf_iff.mp (h.tabs.lastActive r record id hrecord hlast)
    have hmap := hsame id
    rw [htab, Option.map_some] at hmap
    obtain ⟨tab', htab', heq⟩ := Option.map_eq_some_iff.mp hmap
    exact isOf_iff.mpr ⟨tab', htab', heq.trans hof⟩
  · intro id tab' htab' hshut
    obtain ⟨tab, htab, heq⟩ := hsome htab'
    exact heq ▸ h.live id tab htab (heq ▸ hshut)

/-- One browser changes. -/
theorem Wf.retabAt (h : Wf shut app) (htab : app.contexts.lookup id = some tab)
    (context : BrowserContext μ) :
    Wf shut { app with contexts := app.contexts.insert id { tab with context } } := by
  refine h.retab fun other => ?_
  rw [Table.lookup_insert_if]
  split
  · next heq => rw [heq, htab, Option.map_some, Option.map_some]
  · rfl

theorem kept_activateContext (app : App μ) (id : ContextId) :
    Kept app (app.activateContext id) := by
  unfold activateContext
  split
  · exact .refl app
  · refine ⟨rfl, fun r => ?_, rfl, rfl, rfl, rfl, rfl⟩
    rw [Table.lookup_modify]
    split
    · rw [Option.map_map]
      rfl
    · rfl

theorem contexts_activateContext (app : App μ) (id : ContextId) :
    (app.activateContext id).contexts = app.contexts ∧
      (app.activateContext id).contextOrder = app.contextOrder := by
  unfold activateContext
  split <;> exact ⟨rfl, rfl⟩

theorem active_activateContext (htab : app.contexts.lookup id = some tab) :
    (app.activateContext id).activeContextId = some id := by
  unfold activateContext
  rw [htab]

/-- The last tab of a record is still one of its own. -/
theorem lastActive_activateContext
    (h : ∀ r record last, app.connections.lookup r = some record →
      record.lastActiveContextId = some last → app.isOf r last)
    (id : ContextId) {last : ContextId}
    (hrecord : (app.activateContext id).connections.lookup r = some record)
    (hlast : record.lastActiveContextId = some last) : app.isOf r last := by
  unfold activateContext at hrecord
  split at hrecord
  · exact h r record last hrecord hlast
  · next tab htab =>
    rw [Table.lookup_modify] at hrecord
    split at hrecord
    · next heq =>
      obtain ⟨old, -, rfl⟩ := Option.map_eq_some_iff.mp hrecord
      exact isOf_iff.mpr ⟨tab, Option.some.inj hlast ▸ htab, heq.symm⟩
    · exact h r record last hrecord hlast

theorem Live.of_kept (h : Live shut app) (hk : Kept app app')
    (htabs : ∀ id tab, app'.contexts.lookup id = some tab → app.contexts.lookup id = some tab) :
    Live shut app' := by
  intro id tab htab hshut
  obtain ⟨record, hrecord, hready⟩ := h id tab (htabs id tab htab) hshut
  obtain ⟨record', hrecord', hstatus, -⟩ := hk.symm.recordOf hrecord
  exact ⟨record', hrecord', hstatus.trans hready⟩

theorem Wf.activate (h : Wf shut app) (id : ContextId) : Wf shut (app.activateContext id) := by
  obtain ⟨hcontexts, horder⟩ := contexts_activateContext app id
  have hk := kept_activateContext app id
  refine h.kept hk ⟨?_, ?_, ?_, ?_⟩ (h.live.of_kept hk fun id tab htab => hcontexts ▸ htab) ?_
  · rw [hcontexts, horder]
    exact h.tabs.ordered
  · intro active hactive
    rw [horder]
    cases htab : app.contexts.lookup id with
    | none =>
      unfold activateContext at hactive
      rw [htab] at hactive
      exact h.tabs.active active hactive
    | some tab =>
      obtain rfl := Option.some.inj ((active_activateContext htab).symm.trans hactive)
      exact (h.tabs.ordered.mem id).mpr (by rw [htab]; rfl)
  · intro hne
    rw [horder] at hne
    cases htab : app.contexts.lookup id with
    | none =>
      unfold activateContext
      rw [htab]
      exact h.tabs.someActive hne
    | some tab =>
      rw [active_activateContext htab]
      exact Option.some_ne_none id
  · intro r record last hrecord hlast
    have hof := lastActive_activateContext h.tabs.lastActive id hrecord hlast
    rw [isOf] at hof ⊢
    rw [hcontexts]
    exact hof
  · rw [horder, hk.uuids]
    exact h.below.contexts

theorem Wf.lookup_uuids (h : Wf shut app) : app.contexts.lookup app.uuids = none ∧
    app.connections.lookup app.uuids = none ∧ app.client.lookup app.uuids = none := by
  refine ⟨?_, ?_, ?_⟩
  · by_contra hne
    have hin := (h.tabs.ordered.mem app.uuids).mpr (Option.isSome_iff_ne_none.mpr hne)
    exact Nat.lt_irrefl _ (h.below.contexts _ hin)
  · by_contra hne
    have hin := (h.records.ordered.mem app.uuids).mpr (Option.isSome_iff_ne_none.mpr hne)
    exact Nat.lt_irrefl _ (h.below.records _ hin)
  · by_contra hne
    obtain ⟨r, hr⟩ := Option.ne_none_iff_exists'.mp hne
    exact Nat.lt_irrefl _ (h.below.client _ r hr)

/-- **A tab is added**, of a record that is ready, and it is the active one. -/
theorem Wf.addContext (h : Wf shut app) (hrecord : app.connections.lookup r = some record)
    (hready : record.status = .ready) (rootPath : PathString) :
    Wf shut ((app.addContext r rootPath).1.activateContext (app.addContext r rootPath).2) := by
  have hfresh := h.lookup_uuids.1
  have hbumped : Wf shut { app with uuids := app.uuids + 1 } :=
    h.pass (Nat.le_succ _) (fun task htask => .inl htask) fun event hevent => .inl hevent
  -- It may as well be active before it is activated.
  have hadded :
      Wf shut { (app.addContext r rootPath).1 with activeContextId := some app.uuids } := by
    refine hbumped.kept ⟨rfl, fun _ => rfl, rfl, rfl, rfl, rfl, rfl⟩
      ⟨h.tabs.ordered.push hfresh _, ?_, fun _ => Option.some_ne_none _, ?_⟩ ?_ ?_
    · intro active hactive
      exact List.mem_append_right _ (List.mem_singleton.mpr (Option.some.inj hactive).symm)
    · intro r' record' last hrecord' hlast
      obtain ⟨tab, htab, hof⟩ := isOf_iff.mp (h.tabs.lastActive r' record' last hrecord' hlast)
      refine isOf_iff.mpr ⟨tab, ?_, hof⟩
      show (app.contexts.insert app.uuids _).lookup last = some tab
      rw [Table.lookup_insert_if, if_neg, htab]
      rintro rfl
      rw [hfresh] at htab
      cases htab
    · intro id tab htab hshut
      rcases Table.cases_of_lookup_insert htab with ⟨-, rfl⟩ | hold
      · exact ⟨record, hrecord, hready⟩
      · exact h.live id tab hold hshut
    · intro id hid
      rcases List.mem_append.mp hid with hold | hnew
      · exact Nat.lt_succ_of_lt (h.below.contexts id hold)
      · obtain rfl := List.mem_singleton.mp hnew
        exact Nat.lt_succ_self app.uuids
  have htab : (app.addContext r rootPath).1.contexts.lookup app.uuids =
      some { connectionId := r, context := .new app.uuids rootPath } := AList.lookup_insert _
  have hsame : (app.addContext r rootPath).1.activateContext app.uuids =
      ({ (app.addContext r rootPath).1 with activeContextId := some app.uuids } :
        App μ).activateContext app.uuids := by
    unfold activateContext
    simp only [htab]
  show Wf shut ((app.addContext r rootPath).1.activateContext app.uuids)
  rw [hsame]
  exact hadded.activate app.uuids

theorem kept_repairLastActive (app : App μ) (r : RecordId) : Kept app (app.repairLastActive r) := by
  refine ⟨rfl, fun r' => ?_, rfl, rfl, rfl, rfl, rfl⟩
  unfold repairLastActive
  rw [Table.lookup_modify]
  split
  · rw [Option.map_map]
    rfl
  · rfl

/-- A tab goes, and the record it was of remembers another one of its own. -/
theorem Wf.dropContext (h : Wf shut app) (htab : app.contexts.lookup id = some tab)
    (active : Option ContextId)
    (hactive : ∀ a, active = some a → a ∈ app.contextOrder.filter (· ≠ id))
    (hsome : app.contextOrder.filter (· ≠ id) ≠ [] → active ≠ none) :
    Wf shut { ({ app with
        contexts := app.contexts.erase id
        contextOrder := app.contextOrder.filter (· ≠ id) } : App μ).repairLastActive
          tab.connectionId with activeContextId := active } := by
  have herased : Kept app { app with
      contexts := app.contexts.erase id
      contextOrder := app.contextOrder.filter (· ≠ id) } :=
    ⟨rfl, fun _ => rfl, rfl, rfl, rfl, rfl, rfl⟩
  have hkept := herased.trans (kept_repairLastActive _ tab.connectionId)
  refine h.kept ⟨hkept.client, hkept.records, hkept.connectionOrder, hkept.selected, hkept.uuids,
    hkept.tasks, hkept.lifecycle⟩ ⟨h.tabs.ordered.drop id, hactive, hsome, ?_⟩ ?_ ?_
  · intro r record last hrecord hlast
    have hrecord : (app.connections.modify tab.connectionId _).lookup r = some record := hrecord
    rw [Table.lookup_modify] at hrecord
    split at hrecord
    · next heq =>
      obtain ⟨old, -, rfl⟩ := Option.map_eq_some_iff.mp hrecord
      have hfound : (app.contextOrder.filter (· ≠ id)).reverse.find? (isOf { app with
          contexts := app.contexts.erase id
          contextOrder := app.contextOrder.filter (· ≠ id) } tab.connectionId) = some last := hlast
      rw [heq]
      exact List.find?_some hfound
    · next hne =>
      obtain ⟨other, hother, hof⟩ := isOf_iff.mp (h.tabs.lastActive r record last hrecord hlast)
      refine isOf_iff.mpr ⟨other, ?_, hof⟩
      show (app.contexts.erase id).lookup last = some other
      rw [Table.lookup_erase_if, if_neg, hother]
      rintro rfl
      obtain rfl := Option.some.inj (htab.symm.trans hother)
      exact hne hof.symm
  · intro other tab' htab' hshut
    have htab' : (app.contexts.erase id).lookup other = some tab' := htab'
    rw [Table.lookup_erase_if] at htab'
    split at htab'
    · cases htab'
    · obtain ⟨record, hrecord, hready⟩ := h.live other tab' htab' hshut
      obtain ⟨record', hrecord', hstatus, -⟩ := hkept.symm.recordOf hrecord
      exact ⟨record', hrecord', hstatus.trans hready⟩
  · intro other hother
    exact h.below.contexts other (List.mem_of_mem_filter hother)

/-- **A tab is removed.** -/
theorem Wf.removeContext (h : Wf shut app) (id : ContextId) : Wf shut (app.removeContext id) := by
  unfold App.removeContext
  split
  · exact h
  · next index hindex =>
    split
    · exact h
    · next tab htab =>
      simp only [h.tabs.ordered.eraseIdx_eq hindex]
      split
      · -- It was the active one, and its neighbour is now.
        have hneighbour := h.dropContext htab
          (neighbour (app.contextOrder.filter (· ≠ id)) index)
          (fun a ha => neighbour_mem ha) fun hne => by
            obtain ⟨a, -, ha⟩ := neighbour_of_ne_nil hne index
            rw [ha]
            exact Option.some_ne_none a
        split
        · exact hneighbour
        · exact hneighbour.activate _
      · next hother =>
        refine h.dropContext htab app.activeContextId (fun a ha => ?_) fun hne => ?_
        · refine List.mem_filter.mpr ⟨h.tabs.active a ha, decide_eq_true ?_⟩
          rintro rfl
          exact hother ha
        · exact h.tabs.someActive fun hnil => hne (by rw [hnil]; rfl)

theorem kept_removeContext (app : App μ) (id : ContextId) : Kept app (app.removeContext id) := by
  unfold removeContext
  split
  · exact .refl app
  · split
    · exact .refl app
    · next tab htab =>
      have hk {app' : App μ} (hk : Kept app app') (active : Option ContextId) :
          Kept app { app' with activeContextId := active } :=
        ⟨hk.client, hk.records, hk.connectionOrder, hk.selected, hk.uuids, hk.tasks, hk.lifecycle⟩
      have hrepair (contexts : Table ContextId (BrowserTab μ)) (order : List ContextId) :
          Kept app (({ app with contexts, contextOrder := order } : App μ).repairLastActive
            tab.connectionId) := by
        have hbase : Kept app { app with contexts, contextOrder := order } :=
          ⟨rfl, fun _ => rfl, rfl, rfl, rfl, rfl, rfl⟩
        exact hbase.trans (kept_repairLastActive _ _)
      dsimp only
      split
      · split
        · exact hk (hrepair _ _) _
        · exact (hk (hrepair _ _) _).trans (kept_activateContext _ _)
      · exact hrepair _ _

theorem lookup_removeContext (h : Ordered app.contextOrder app.contexts) (id a : ContextId) :
    (app.removeContext id).contexts.lookup a = if a = id then none else app.contexts.lookup a := by
  have hnone (hid : id ∉ app.contextOrder) :
      app.contexts.lookup a = if a = id then none else app.contexts.lookup a := by
    split
    · next heq =>
      rw [h.mem, Bool.not_eq_true, Option.isSome_eq_false_iff, Option.isNone_iff_eq_none] at hid
      rw [heq, hid]
    · rfl
  unfold removeContext
  split
  · next hindex => exact hnone (List.idxOf?_eq_none_iff.mp hindex)
  · split
    · next hlookup =>
      refine hnone fun hid => ?_
      rw [h.mem, hlookup] at hid
      cases hid
    · rw [← Table.lookup_erase_if]
      dsimp only
      split
      · split
        · rfl
        · rw [(contexts_activateContext _ _).1]
          rfl
      · rfl

theorem removeContexts_spec : ∀ (ids : List ContextId) (app : App μ), Wf shut app →
    Wf shut (ids.foldl App.removeContext app) ∧ Kept app (ids.foldl App.removeContext app) ∧
      ∀ a, (ids.foldl App.removeContext app).contexts.lookup a =
        if a ∈ ids then none else app.contexts.lookup a := by
  intro ids
  induction ids with
  | nil =>
    intro app h
    exact ⟨h, .refl app, fun a => (if_neg List.not_mem_nil).symm⟩
  | cons id ids ih =>
    intro app h
    obtain ⟨hwf, hkept, hlookup⟩ := ih (app.removeContext id) (h.removeContext id)
    refine ⟨hwf, (kept_removeContext app id).trans hkept, fun a => ?_⟩
    rw [List.foldl_cons, hlookup, lookup_removeContext h.tabs.ordered]
    by_cases ha : a = id
    · simp [ha]
    · simp [ha]

/-- **All tabs of a connection are removed.** -/
theorem removeContextsForConnection_spec (h : Wf shut app) (r : RecordId) :
    Wf shut (app.removeContextsForConnection r) ∧
      Kept app (app.removeContextsForConnection r) ∧
      ∀ id tab, (app.removeContextsForConnection r).contexts.lookup id = some tab →
        tab.connectionId ≠ r := by
  obtain ⟨hwf, hkept, hlookup⟩ :=
    removeContexts_spec (app.contextOrder.filter (app.isOf r)) app h
  refine ⟨hwf, hkept, fun id tab htab hof => ?_⟩
  rw [removeContextsForConnection, hlookup] at htab
  split at htab
  · cases htab
  · next hnot =>
    refine hnot (List.mem_filter.mpr ⟨?_, isOf_iff.mpr ⟨tab, htab, hof⟩⟩)
    rw [h.tabs.ordered.mem, htab]
    rfl

end App

end FilePeeker.Tabs
