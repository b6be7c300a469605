import FilePeeker.Server.Times
import FilePeeker.Task.Submissions
import FilePeeker.Tui.Linger
import FilePeeker.Wire.Tasks

/-!
# Whether a dropped task stays gone

A stream shows a task that has settled as settled ever after: `Orderly`, which the
updates of every `Watch` stream are (`watch_stream_orderly`).  A task that has settled
and was dropped is then put back by no snapshot, but by every change that shows it
(`stays_gone_iff`); and there can be such a change, for the forwarder sends one message
for each event it comes to, with the task as it is by then (`dropped_task_comes_back`).
-/

namespace FilePeeker.Tui

variable {m : Machine} {now : Instant} {id label : String} {ssh : Option String}
  {task : TaskView} {update : TaskUpdate} {call : Call}

/-! ### The updates of a stream -/

/-- The tasks an update shows. -/
def TaskUpdate.tasks : TaskUpdate → List TaskView
  | .snapshot tasks => tasks
  | .changed task => [task]

/-- What a stream can say: no snapshot has a task twice, and what has settled stays so. -/
structure Orderly (updates : List TaskUpdate) : Prop where
  distinct : ∀ update ∈ updates, update.Distinct
  settled : updates.Pairwise fun earlier later => ∀ a ∈ earlier.tasks, ∀ b ∈ later.tasks,
    a.id = b.id → a.status.isTerminal → b.status.isTerminal

def Call.updates : Call → List TaskUpdate
  | .apply update => [update]
  | .expire => []

/-- The updates among the calls. -/
def updatesOf (calls : List (Instant × Call)) : List TaskUpdate :=
  calls.flatMap fun call => call.2.updates

theorem updatesOf_append (earlier later : List (Instant × Call)) :
    updatesOf (earlier ++ later) = updatesOf earlier ++ updatesOf later :=
  List.flatMap_append

theorem updatesOf_concat (calls : List (Instant × Call)) (now : Instant) (call : Call) :
    updatesOf (calls ++ [(now, call)]) = updatesOf calls ++ call.updates := by
  rw [updatesOf_append]
  simp [updatesOf]

theorem Orderly.of_append {earlier later : List TaskUpdate} (h : Orderly (earlier ++ later)) :
    Orderly earlier where
  distinct update hmem := h.distinct update (List.mem_append_left _ hmem)
  settled := (List.pairwise_append.mp h.settled).1

theorem Orderly.of_concat {calls : List (Instant × Call)}
    (h : Orderly (updatesOf (calls ++ [(now, call)]))) : Orderly (updatesOf calls) := by
  rw [updatesOf_concat] at h
  exact h.of_append

/-- The next update shows as settled what has been shown so. -/
theorem Orderly.next {calls : List (Instant × Call)}
    (h : Orderly (updatesOf (calls ++ [(now, .apply update)]))) {earlier : TaskUpdate}
    (hmem : earlier ∈ updatesOf calls) {a : TaskView} (ha : a ∈ earlier.tasks)
    (hend : a.status.isTerminal) (htask : task ∈ update.tasks) (hid : a.id = task.id) :
    task.status.isTerminal := by
  rw [updatesOf_concat] at h
  have hcross := (List.pairwise_append.mp h.settled).2.2
  exact hcross earlier hmem update (List.mem_singleton_self _) a ha task htask hid hend

theorem Orderly.distinct_next {calls : List (Instant × Call)}
    (h : Orderly (updatesOf (calls ++ [(now, call)]))) : call.Distinct := by
  cases call with
  | expire => trivial
  | apply update =>
    rw [updatesOf_concat] at h
    exact h.distinct update (List.mem_append_right _ (List.mem_singleton_self _))

/-! ### How a task comes to be held -/

namespace Machine

/-- A task there is after an update is one it shows, or was there. -/
theorem Agrees.mem_apply (h : m.Agrees) (hmem : task ∈ (m.apply update now).tasks) :
    task ∈ update.tasks ∨ task ∈ m.tasks := by
  rw [apply_eq] at hmem
  have hmem := mem_sorted.mp (mem_expire.mp hmem).1
  cases update with
  | snapshot snapshot =>
    rw [updated_snapshot_tasks] at hmem
    exact .inl (List.mem_of_mem_filter hmem)
  | changed changed =>
    rcases (mem_replaceTask h.ids).mp hmem with rfl | ⟨hold, -⟩
    · exact .inl (List.mem_singleton_self _)
    · exact .inr hold

theorem Agrees.holds_apply (h : m.Agrees) (hholds : (m.apply update now).holds id) :
    (∃ task ∈ update.tasks, task.id = id) ∨ m.holds id := by
  obtain ⟨held, hheld, hid⟩ := holds_iff.mp hholds
  exact (h.mem_apply hheld).imp (fun hin => ⟨held, hin, hid⟩)
    fun hin => holds_iff.mpr ⟨held, hin, hid⟩

/-- **A snapshot puts no settled task back.** -/
theorem Agrees.holds_apply_snapshot (h : m.Agrees) {snapshot : List TaskView}
    (hend : ∀ task ∈ snapshot, task.id = id → task.status.isTerminal)
    (hholds : (m.apply (.snapshot snapshot) now).holds id) : m.holds id := by
  rw [apply_eq] at hholds
  obtain ⟨task, htask, rfl⟩ := holds_iff.mp hholds
  have hmem := mem_sorted.mp (mem_expire.mp htask).1
  rw [updated_snapshot_tasks] at hmem
  obtain ⟨hin, htakes⟩ := List.mem_filter.mp hmem
  exact (h.takes_iff (hend task hin rfl)).mp htakes

theorem Agrees.showsSettled_apply (h : m.Agrees)
    (hshows : (m.apply update now).showsSettled id) :
    (∃ task ∈ update.tasks, task.id = id ∧ task.status.isTerminal) ∨ m.showsSettled id := by
  obtain ⟨held, hheld, hid, hend⟩ := showsSettled_iff.mp hshows
  exact (h.mem_apply hheld).imp (fun hin => ⟨held, hin, hid, hend⟩)
    fun hin => showsSettled_iff.mpr ⟨held, hin, hid, hend⟩

theorem holds_expire (h : (m.expire now).holds id) : m.holds id := by
  obtain ⟨task, htask, hid⟩ := holds_iff.mp h
  exact holds_iff.mpr ⟨task, (mem_expire.mp htask).1, hid⟩

theorem showsSettled_expire (h : (m.expire now).showsSettled id) : m.showsSettled id := by
  obtain ⟨task, htask, hid, hend⟩ := showsSettled_iff.mp h
  exact showsSettled_iff.mpr ⟨task, (mem_expire.mp htask).1, hid, hend⟩

end Machine

namespace Pane

variable {p p' : Pane} {calls : List (Instant × Call)}

/-! ### Late changes -/

/-- The call is a change that shows a task as settled after it was dropped. -/
def Late (p : Pane) : Call → Prop
  | .apply (.changed task) => task.status.isTerminal ∧ p.dropped task.id
  | .apply (.snapshot _) | .expire => False

/-- What was dropped is neither held nor timed. -/
def StaysGone (p : Pane) : Prop :=
  ∀ id, p.dropped id → ¬ p.machine.holds id ∧ p.machine.settledAt.lookup id = none

/-- A change is not late that comes while no call has come `SETTLED_LINGER` after the
task was first held as settled. -/
theorem Lingers.in_time (h : p.Lingers)
    (hsoon : ∀ t, p.first task.id = some t → p.now < t + settledLinger) :
    ¬ p.Late (.apply (.changed task)) := by
  rintro ⟨-, hdropped⟩
  obtain ⟨t, hfirst, hover⟩ := h.gone task.id hdropped
  exact absurd hover (Nat.not_le_of_lt (hsoon t hfirst))

/-- What has been held as settled has been shown so. -/
def Seen (p : Pane) (updates : List TaskUpdate) : Prop :=
  ∀ id, (p.first id).isSome → ∃ update ∈ updates, ∃ task ∈ update.tasks,
    task.id = id ∧ task.status.isTerminal

theorem Seen.step {updates : List TaskUpdate} (h : p.Seen updates) (hp : p.Lingers)
    (hstep : p.step (now, call) = some p') :
    p'.Seen (updates ++ call.updates) := by
  obtain ⟨-, rfl⟩ := step_eq_some.mp hstep
  intro id hfirst
  -- What is held as settled, and was, has been held so before.
  have hbefore (hshows : p.machine.showsSettled id) : (p.first id).isSome := by
    have hkey := hp.agrees.keys id
    rw [hshows, hp.times, Option.isSome_iff_exists] at hkey
    obtain ⟨t, hsince⟩ := hkey
    obtain ⟨t₀, -, hfirst⟩ := hp.started id t hsince
    rw [hfirst]
    rfl
  cases hold : (p.first id).isSome with
  | true =>
    obtain ⟨update, hmem, hshown⟩ := h id hold
    exact ⟨update, List.mem_append_left _ hmem, hshown⟩
  | false =>
    rw [Option.isSome_eq_false_iff, Option.isNone_iff_eq_none] at hold
    simp only [hold, Option.none_or] at hfirst
    split at hfirst
    · next hshows =>
      cases call with
      | expire =>
        have hfirst := hbefore (Machine.showsSettled_expire hshows)
        rw [hold] at hfirst
        cases hfirst
      | apply update =>
        rcases hp.agrees.showsSettled_apply hshows with hshown | hshows
        · exact ⟨update, List.mem_append_right _ (List.mem_singleton_self _), hshown⟩
        · have hfirst := hbefore hshows
          rw [hold] at hfirst
          cases hfirst
    · cases hfirst

/-- **A call that is not late leaves gone what is gone.** -/
theorem StaysGone.step (h : p.StaysGone) (hp : p.Lingers) (hseen : p.Seen (updatesOf calls))
    (horder : Orderly (updatesOf (calls ++ [(now, call)]))) (hlate : ¬ p.Late call)
    (hstep : p.step (now, call) = some p') : p'.StaysGone := by
  have hp' : p'.Lingers := hp.step horder.distinct_next hstep
  suffices hgone : ∀ id, p'.dropped id → ¬ p'.machine.holds id by
    intro id hdropped
    refine ⟨hgone id hdropped, ?_⟩
    rw [← Option.isNone_iff_eq_none, ← Option.isSome_eq_false_iff, hp'.agrees.keys,
      ← Bool.not_eq_true]
    exact fun hshows => hgone id hdropped (Machine.holds_of_showsSettled hshows)
  obtain ⟨-, rfl⟩ := step_eq_some.mp hstep
  intro id hdropped hholds
  simp only [Bool.or_eq_true, Bool.and_eq_true, Bool.not_eq_true'] at hdropped
  rcases hdropped with hold | ⟨⟨-, hgone⟩, -⟩
  · -- It was gone, and has been shown as settled.
    have hnot := (h id hold).1
    have hend {update : TaskUpdate} (hcall : call = .apply update) {task : TaskView}
        (htask : task ∈ update.tasks) (hid : task.id = id) : task.status.isTerminal := by
      subst hcall
      obtain ⟨t, hfirst, -⟩ := hp.gone id hold
      obtain ⟨earlier, hmem, a, ha, haid, haend⟩ := hseen id (by rw [hfirst]; rfl)
      exact horder.next hmem ha haend htask (haid.trans hid.symm)
    cases call with
    | expire => exact hnot (Machine.holds_expire hholds)
    | apply update =>
      cases update with
      | snapshot snapshot =>
        exact hnot (hp.agrees.holds_apply_snapshot (fun task => hend rfl) hholds)
      | changed task =>
        rcases hp.agrees.holds_apply hholds with ⟨held, hheld, hid⟩ | hheld
        · obtain rfl : held = task := List.mem_singleton.mp hheld
          exact hlate ⟨hend rfl hheld hid, hid ▸ hold⟩
        · exact hnot hheld
  · rw [hholds] at hgone
    cases hgone

/-- **A late change puts the task back.** -/
theorem StaysGone.not_of_late (h : p.StaysGone) (hp : p.Lingers) (hlate : p.Late call)
    (hstep : p.step (now, call) = some p') : ¬ p'.StaysGone := by
  intro h'
  obtain ⟨hle, -⟩ := step_eq_some.mp hstep
  cases call with
  | expire => exact hlate
  | apply update =>
    cases update with
    | snapshot snapshot => exact hlate
    | changed task =>
      obtain ⟨hend, hdropped⟩ := hlate
      have hgone := (h task.id hdropped).1
      obtain ⟨q, hback, hshows, -, -⟩ := hp.put_back _ hend
        (fun hshows => hgone (Machine.holds_of_showsSettled hshows)) hle
      obtain rfl : q = p' := Option.some.inj (hback.symm.trans hstep)
      obtain ⟨-, rfl⟩ := step_eq_some.mp hstep
      exact (h' task.id (by simp [hdropped])).1 (Machine.holds_of_showsSettled hshows)

/-! ### Whole runs -/

/-- What holds after any calls. -/
theorem lingers_of_run (label : String) (ssh : Option String) :
    ∀ {calls : List (Instant × Call)} {p : Pane}, Orderly (updatesOf calls) →
      exec step (new label ssh) calls = some p → p.Lingers ∧ p.Seen (updatesOf calls) := by
  intro calls
  induction calls using List.reverseRecOn with
  | nil =>
    intro p _ hrun
    obtain rfl : new label ssh = p := Option.some.inj hrun
    refine ⟨.new label ssh, fun id hfirst => ?_⟩
    cases hfirst
  | append_singleton calls last ih =>
    intro p horder hrun
    obtain ⟨now, call⟩ := last
    obtain ⟨q, hq, hstep⟩ := exec_concat_eq_some.mp hrun
    obtain ⟨hlingers, hseen⟩ := ih horder.of_concat hq
    refine ⟨hlingers.step horder.distinct_next hstep, ?_⟩
    rw [updatesOf_concat]
    exact hseen.step hlingers hstep

/-- **A dropped task stays gone, in a whole run, exactly if no change of the run is
late**: if none shows as settled a task that has been dropped. -/
theorem stays_gone_iff (label : String) (ssh : Option String) (calls : List (Instant × Call))
    (horder : Orderly (updatesOf calls)) (hrun : (exec step (new label ssh) calls).isSome) :
    (∀ earlier p, earlier <+: calls → exec step (new label ssh) earlier = some p →
      p.StaysGone) ↔
    ∀ earlier p now call, earlier ++ [(now, call)] <+: calls →
      exec step (new label ssh) earlier = some p → ¬ p.Late call := by
  have hnew : (new label ssh).StaysGone := by
    intro id hdropped
    cases hdropped
  refine (exec_forall_iff (B := fun p call => p.Late call.2) hnew ?_ hrun).trans ?_
  · intro earlier p last q hpre hp hstep hgone
    obtain ⟨now, call⟩ := last
    have hpart : Orderly (updatesOf (earlier ++ [(now, call)])) := by
      obtain ⟨rest, rfl⟩ := hpre
      rw [updatesOf_append] at horder
      exact horder.of_append
    obtain ⟨hlingers, hseen⟩ := lingers_of_run label ssh hpart.of_concat hp
    constructor
    · intro hgone' hlate
      exact hgone.not_of_late hlingers hlate hstep hgone'
    · intro hlate
      exact hgone.step hlingers hseen hpart hlate hstep
  · exact ⟨fun hall earlier p now call => hall earlier p (now, call),
      fun hall earlier p last => hall earlier p last.1 last.2⟩

/-- A task is shown settled, and goes. -/
def callsOnce : List (Instant × Call) :=
  [(0, .apply (.changed (taskNamed "a" .succeeded))), (settledLinger, .expire)]

theorem shown_once_stays_gone : (exec step (new "local" none) callsOnce).isSome ∧
    ∀ earlier p, earlier <+: callsOnce →
      exec step (new "local" none) earlier = some p → p.StaysGone := by
  refine ⟨rfl, (stays_gone_iff "local" none callsOnce
    ⟨?_, List.pairwise_singleton _ _⟩ rfl).mpr ?_⟩
  · intro update hmem
    rw [List.mem_singleton.mp hmem]
    trivial
  · intro earlier p now call hpre hp hlate
    cases earlier with
    | nil =>
      obtain rfl : new "local" none = p := Option.some.inj hp
      obtain ⟨heq, -⟩ := List.cons_prefix_cons.mp hpre
      obtain ⟨rfl, rfl⟩ := Prod.mk.inj heq
      cases hlate.2
    | cons first earlier =>
      obtain ⟨-, hpre⟩ := List.cons_prefix_cons.mp hpre
      cases earlier with
      | nil =>
        obtain ⟨heq, -⟩ := List.cons_prefix_cons.mp hpre
        obtain ⟨rfl, rfl⟩ := Prod.mk.inj heq
        exact hlate
      | cons second earlier =>
        obtain ⟨-, hpre⟩ := List.cons_prefix_cons.mp hpre
        simp at hpre

end Pane

/-! ### What a `Watch` stream says -/

section Watch

variable {Output : Type} {config : Config} {capacity : Nat} {s : State Output}
  {past : List (Watch Output)} {w : Watch Output} {m : ServerEvent} {a b : TaskInfo}

/-- The tasks a message shows. -/
def tasksOf : ServerEvent → List TaskInfo
  | .hello => []
  | .snapshot tasks => tasks
  | .changed task => [task]

/-- `Watching::next`. -/
def updateOf : ServerEvent → Option TaskUpdate
  | .hello => none
  | .snapshot tasks => some (.snapshot (tasks.map fun info => Wire.viewFrom (Wire.taskMessage info)))
  | .changed task => some (.changed (Wire.viewFrom (Wire.taskMessage task)))

theorem tasks_updateOf {update : TaskUpdate} (h : updateOf m = some update) :
    update.tasks = (tasksOf m).map fun info => Wire.viewFrom (Wire.taskMessage info) := by
  cases m with
  | hello => cases h
  | snapshot tasks | changed task =>
    obtain rfl := Option.some.inj h
    rfl

theorem id_view (info : TaskInfo) :
    (Wire.viewFrom (Wire.taskMessage info)).id = Wire.displayId info.id := by
  rw [(Wire.view_taskMessage info).1]

theorem nodup_tasksOf (hwf : Wf config s) (h : m.Exact s.registry) :
    ((tasksOf m).map TaskInfo.id).Nodup := by
  cases m with
  | hello => exact List.nodup_nil
  | snapshot tasks =>
    obtain rfl : tasks = s.registry.tasks := h
    exact hwf.nodup_tasks
  | changed task => exact List.nodup_singleton _

theorem shows_of_mem (hnodup : ((tasksOf m).map TaskInfo.id).Nodup) (ha : a ∈ tasksOf m) :
    watchFeed.shows m a.id = some a := by
  cases m with
  | hello => cases ha
  | snapshot tasks =>
    show tasks.find? (fun task => task.id = a.id) = some a
    obtain ⟨found, hfound⟩ : ∃ found, tasks.find? (fun task => task.id = a.id) = some found := by
      rw [← Option.isSome_iff_exists, List.find?_isSome]
      exact ⟨a, ha, by simp⟩
    have hid : found.id = a.id := by simpa using List.find?_some hfound
    rw [hfound, List.inj_on_of_nodup_map hnodup (List.mem_of_find?_eq_some hfound) ha hid]
  | changed task =>
    obtain rfl : a = task := List.mem_singleton.mp ha
    exact if_pos rfl

/-- Every message but the greeting shows the registry as it once was. -/
theorem Trace.exact_of_mem (h : Trace (watchStep config capacity) anyWatch .init past w)
    (hm : m ∈ w.stream.produced) : m = .hello ∨
      ∃ u : Watch Output, Steps (watchStep config capacity) anyWatch .init u ∧
        Steps (watchStep config capacity) anyWatch u w ∧ m.Exact u.runtime.registry := by
  obtain ⟨times, hstamp, -⟩ := h.chronicled
  obtain ⟨events, hhello⟩ := (Steps.watched h.steps).ok.hello
  have hproduced : w.stream.produced = .hello :: w.stream.produced.tail := by
    rw [WatchStream.produced, hhello]
    rfl
  rw [hproduced] at hm
  rcases List.mem_cons.mp hm with rfl | hm
  · exact .inl rfl
  · obtain ⟨i, hi, rfl⟩ := List.mem_iff_getElem.mp hm
    obtain ⟨u, hu, hexact⟩ := hstamp.exact.get (hstamp.exact.length_eq ▸ hi) hi
    rcases List.mem_append.mp (List.mem_of_getElem? hu) with hmem | hmem
    · obtain ⟨hbefore, hafter⟩ := h.steps_of_mem hmem
      exact .inr ⟨u, hbefore, hafter, hexact⟩
    · obtain rfl := List.mem_singleton.mp hmem
      exact .inr ⟨u, h.steps, .refl u, hexact⟩

/-- **The updates of a `Watch` stream are orderly**, identifiers having 128 bits. -/
theorem watch_stream_orderly (h : Trace (watchStep config capacity) anyWatch .init past w)
    (hids : ∀ m ∈ w.stream.produced, ∀ info ∈ tasksOf m, info.id.uuid < 2 ^ 128) :
    Orderly (w.stream.applied.filterMap updateOf) := by
  have hnodup {m : ServerEvent} (hm : m ∈ w.stream.produced) :
      ((tasksOf m).map TaskInfo.id).Nodup := by
    rcases Trace.exact_of_mem h hm with rfl | ⟨u, hu, -, hexact⟩
    · exact List.nodup_nil
    · exact nodup_tasksOf (Reaches.wf (Steps.watched hu).reaches) hexact
  have hterminal (info : TaskInfo) :
      (Wire.viewFrom (Wire.taskMessage info)).status.isTerminal = info.state.isTerminal :=
    (Wire.view_taskMessage info).2.2
  suffices horder : Orderly (w.stream.produced.filterMap updateOf) by
    obtain ⟨rest, hrest⟩ :=
      ((Steps.watched h.steps).ok.applied.trans (List.prefix_append _ _) :
        w.stream.applied <+: w.stream.produced)
    rw [← hrest, List.filterMap_append] at horder
    exact horder.of_append
  constructor
  · intro update hmem
    obtain ⟨m, hm, hupdate⟩ := List.mem_filterMap.mp hmem
    cases m with
    | hello => cases hupdate
    | changed task =>
      obtain rfl := Option.some.inj hupdate
      trivial
    | snapshot tasks =>
      obtain rfl := Option.some.inj hupdate
      show ((tasks.map _).map TaskView.id).Nodup
      rw [List.map_map, show (TaskView.id ∘ fun info => Wire.viewFrom (Wire.taskMessage info)) =
        Wire.displayId ∘ TaskInfo.id from funext id_view, ← List.map_map]
      refine List.Nodup.map_on (fun x hx y hy heq => ?_) (hnodup hm)
      obtain ⟨a, ha, rfl⟩ := List.mem_map.mp hx
      obtain ⟨b, hb, rfl⟩ := List.mem_map.mp hy
      exact Wire.displayId_inj (hids _ hm a ha) (hids _ hm b hb) heq
  · rw [List.pairwise_filterMap, List.pairwise_iff_getElem]
    intro i j hi hj hij update hupdate later hlater shown hshown shown' hshown' hid hend
    rw [tasks_updateOf hupdate] at hshown
    rw [tasks_updateOf hlater] at hshown'
    obtain ⟨a, ha, rfl⟩ := List.mem_map.mp hshown
    obtain ⟨b, hb, rfl⟩ := List.mem_map.mp hshown'
    have hi' := List.getElem_mem hi
    have hj' := List.getElem_mem hj
    have hsame : a.id = b.id := by
      rw [id_view, id_view] at hid
      exact Wire.displayId_inj (hids _ hi' a ha) (hids _ hj' b hb) hid
    have hrank := List.pairwise_iff_getElem.mp (List.pairwise_filterMap.mp (h.shown_sorted a.id))
      i j hi hj hij a (shows_of_mem (hnodup hi') ha) b
      (hsame ▸ shows_of_mem (hnodup hj') hb)
    rw [hterminal, TaskState.isTerminal_iff_rank] at hend ⊢
    have hmost := TaskState.rank_le b.state
    omega

end Watch

/-! ### A task that comes back -/

/-- A task shown settled, dropped once it has lingered its while, and shown settled once
more. -/
theorem Pane.Lingers.comes_back {p : Pane} (h : p.Lingers) (task : TaskView)
    (hend : task.status.isTerminal) (hgone : ¬ p.machine.showsSettled task.id)
    (hle : p.now ≤ now) :
    ∃ q, exec Pane.step p [(now, .apply (.changed task)), (now + settledLinger, .expire),
        (now + settledLinger, .apply (.changed task))] = some q ∧ ¬ q.StaysGone := by
  obtain ⟨p₁, hstep₁, hshows, hsince, -⟩ := h.put_back task hend hgone hle
  have hp₁ := h.step (distinct_changed p now task) hstep₁
  have hnow : p₁.now = now := by
    obtain ⟨-, rfl⟩ := step_eq_some.mp hstep₁
    rfl
  -- When the task goes: a time of its own, for the kernel is not to count up to it.
  obtain ⟨later, hlater⟩ : ∃ later, later = now + settledLinger := ⟨_, rfl⟩
  rw [← hlater]
  have hstep₂ : p₁.step (later, .expire) = some _ :=
    step_eq_some.mpr ⟨hnow ▸ hlater ▸ Nat.le_add_right now settledLinger, rfl⟩
  have hp₂ := hp₁.step (distinct_expire p₁ later) hstep₂
  have hlingered : settledLinger ≤ later - now := by
    rw [hlater, Nat.add_sub_cancel_left]
  have hdrops : ¬ (p₁.machine.expire later).holds task.id := hp₁.drops hsince hlingered
  obtain ⟨q, hstep₃, hshows', -, -⟩ := hp₂.put_back task hend
    (fun hshows => hdrops (Machine.holds_of_showsSettled hshows)) (Nat.le_refl _)
  refine ⟨q, ?_, fun hgone => ?_⟩
  · simp only [exec, hstep₁, hstep₂, hstep₃, Option.bind_some]
  · refine (hgone task.id ?_).1 (Machine.holds_of_showsSettled hshows')
    obtain ⟨-, rfl⟩ := step_eq_some.mp hstep₃
    simp [hshows, Call.run, Call.omits, hdrops]

/-- A root settles before the forwarder gets to the first of its events; the client has
been sent the root twice since, as it is. -/
def settledBehind : Watch Nat :=
  Watch.init.run .default 1024
    [.stream .forward, .stream .forward, .stream .forward,
      .runtime (.submit ⟨1⟩ ⟨⟨"list", [], .interactive⟩, []⟩ 0), .runtime (.drive ⟨1⟩),
      .runtime (.drive ⟨1⟩), .runtime (.drive ⟨1⟩), .runtime (.runReturns ⟨1⟩),
      .runtime (.bodyEnds ⟨1⟩ (.ok 0)), .runtime (.drive ⟨1⟩), .runtime (.drive ⟨1⟩),
      .runtime (.drive ⟨1⟩), .runtime (.drive ⟨1⟩), .runtime (.drive ⟨1⟩), .stream .forward,
      .stream .forward, .stream .forward, .stream .forward, .stream .forward, .stream .forward,
      .stream .receive, .stream .receive, .stream .receive, .stream .receive]

/-- The root as it is then. -/
def settledRoot : TaskInfo where
  id := ⟨1⟩
  parent := none
  descriptor := ⟨"list", [], .interactive⟩
  submitted := 0
  settled := some 0
  state := .succeeded
  progress := ⟨none, .indeterminate⟩

/-- The client applies the first change, waits for the task to go, and applies the
second. -/
def callsBehind : List (Instant × Call) :=
  let task := Wire.viewFrom (Wire.taskMessage settledRoot)
  [(0, .apply (.snapshot [])), (0, .apply (.changed task)), (settledLinger, .expire),
    (settledLinger, .apply (.changed task))]

theorem settledBehind_applied : settledBehind.stream.applied =
    [.hello, .snapshot [], .changed settledRoot, .changed settledRoot] := by
  decide

theorem dropped_task_comes_back :
    ¬ ∀ (w : Watch Nat) (calls : List (Instant × Call)) (p : Pane),
      Steps (watchStep .default 1024) anyWatch .init w →
      updatesOf calls = w.stream.applied.filterMap updateOf →
      exec Pane.step (Pane.new "local" none) calls = some p → p.StaysGone := by
  intro h
  have hstart : (Pane.new "local" none).step (0, .apply (.snapshot [])) = some _ :=
    Pane.step_eq_some.mpr ⟨Nat.le_refl 0, rfl⟩
  have hdistinct : (Call.apply (.snapshot [])).Distinct := List.nodup_nil
  have hp := (Pane.Lingers.new "local" none).step hdistinct hstart
  obtain ⟨q, hrun, hback⟩ := hp.comes_back
    (Wire.viewFrom (Wire.taskMessage settledRoot))
    (Wire.view_taskMessage settledRoot).2.2 (fun hshows => by
      rcases (Pane.Lingers.new "local" none).agrees.showsSettled_apply hshows with
        ⟨task, hmem, -⟩ | hshows
      · cases hmem
      · cases hshows) (Nat.le_refl 0)
  refine hback (h settledBehind callsBehind q (Watch.steps_run ..) ?_ ?_)
  · rw [settledBehind_applied]
    rfl
  · rw [callsBehind, exec, hstart, Option.bind_some, ← hrun, Nat.zero_add]

end FilePeeker.Tui
