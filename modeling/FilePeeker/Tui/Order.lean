import FilePeeker.Lib.StableSort
import FilePeeker.Tui.Dropped

/-!
# The order of the tasks

A machine sorts its tasks by the time each was submitted, in whole milliseconds, which the
wall clock gave; the server numbers them as it registers them.

A change puts a task that is not held behind those of the same millisecond, and a
snapshot's tasks come as the server orders them.  So of two tasks of which the later has
the earlier time one is misplaced once both are held, and of two of one millisecond the
earlier where it comes back by a change (`Misplaces`); the tasks are in the order of their
submission, in a whole run, exactly if no call misplaces one (`order_kept_iff`).
-/

namespace FilePeeker.Tui

variable {m : Machine} {now : Instant} {id label : String} {ssh : Option String}
  {task a b : TaskView} {update : TaskUpdate} {call : Call} {place : String → Nat}

/-! ### Updates of numbered tasks -/

/-- The tasks that some updates show. -/
def shownIn (updates : List TaskUpdate) : List TaskView := updates.flatMap TaskUpdate.tasks

/-- Updates about numbered tasks: a snapshot has them in their order, and what is shown of
a task always has the time of its submission. -/
structure Numbered (place : String → Nat) (updates : List TaskUpdate) : Prop where
  snapshot : ∀ snapshot, .snapshot snapshot ∈ updates →
    snapshot.Pairwise fun a b => place a.id < place b.id
  apart : ∀ a ∈ shownIn updates, ∀ b ∈ shownIn updates, place a.id = place b.id → a.id = b.id
  submitted : ∀ a ∈ shownIn updates, ∀ b ∈ shownIn updates, a.id = b.id →
    a.submittedUnixMillis = b.submittedUnixMillis

def InOrder (place : String → Nat) (tasks : List TaskView) : Prop :=
  tasks.Pairwise fun a b => place a.id < place b.id

namespace Machine

/-- A task of a snapshot that is in the list after it. -/
def willShow (m : Machine) (now : Instant) (task : TaskView) : Bool :=
  !task.status.isTerminal || m.holds task.id && m.stays now task

end Machine

/-- The call puts a task in the wrong place.  A snapshot: where a task that it shows was
submitted before one that has an earlier time.  A change: where it shows a task that is not
held, and one is held, and stays, that the times put before it and the numbers behind it,
or the other way round. -/
def Misplaces (place : String → Nat) (m : Machine) (now : Instant) : Call → Prop
  | .apply (.snapshot snapshot) => ∃ a b, [a, b].Sublist snapshot ∧
      m.willShow now a ∧ m.willShow now b ∧ b.submittedUnixMillis < a.submittedUnixMillis
  | .apply (.changed task) => ¬ m.holds task.id ∧ ∃ held ∈ m.tasks, m.stays now held ∧
      (held.submittedUnixMillis ≤ task.submittedUnixMillis ∧ place task.id < place held.id ∨
        task.submittedUnixMillis < held.submittedUnixMillis ∧ place held.id < place task.id)
  | .expire => False

theorem Numbered.distinct {updates : List TaskUpdate} (h : Numbered place updates)
    (hmem : update ∈ updates) : update.Distinct := by
  cases update with
  | changed task => trivial
  | snapshot snapshot =>
    refine List.pairwise_map.mpr ((h.snapshot snapshot hmem).imp fun hlt heq => ?_)
    rw [heq] at hlt
    exact absurd hlt (Nat.lt_irrefl _)

/-! ### The list after an update -/

namespace Machine

/-- The comparison that the tasks are sorted by. -/
def notLater (a b : TaskView) : Bool := a.submittedUnixMillis ≤ b.submittedUnixMillis

theorem notLater_iff : notLater a b ↔ a.submittedUnixMillis ≤ b.submittedUnixMillis :=
  decide_eq_true_iff

theorem notLater_trans (a b c : TaskView) (hab : notLater a b) (hbc : notLater b c) :
    notLater a c :=
  notLater_iff.mpr (Int.le_trans (notLater_iff.mp hab) (notLater_iff.mp hbc))

theorem notLater_total (a b : TaskView) : notLater a b || notLater b a := by
  rw [Bool.or_eq_true, notLater_iff, notLater_iff]
  exact Int.le_total _ _

theorem sorted_tasks (m : Machine) : m.sorted.tasks = m.tasks.mergeSort notLater := rfl

/-- Two tasks are as the times and the numbers have them alike. -/
def Alike (place : String → Nat) (a b : TaskView) : Prop :=
  (notLater a b → place a.id < place b.id) ∧ (¬ notLater a b → place b.id < place a.id)

theorem Agrees.inOrder_apply (h : m.Agrees) (hdistinct : update.Distinct) :
    InOrder place (m.apply update now).tasks ↔
      (m.updated update now).tasks.Pairwise fun a b =>
        (m.updated update now).stays now a → (m.updated update now).stays now b →
          Alike place a b := by
  have hnodup : (m.updated update now).tasks.Nodup := (h.updated hdistinct now).ids.of_map _
  rw [InOrder, apply_eq, expire_tasks, List.pairwise_filter, sorted_tasks,
    pairwise_mergeSort_iff notLater_trans notLater_total hnodup]
  refine iff_of_eq (congrArg (fun R => List.Pairwise R _) (funext fun a => funext fun b => ?_))
  refine propext ⟨fun hab ha hb => ⟨fun hle => hab.1 hle ha hb, fun hle => hab.2 hle hb ha⟩,
    fun hab => ⟨fun hle ha hb => (hab ha hb).1 hle, fun hle hb ha => (hab ha hb).2 hle⟩⟩

/-! ### After a change -/

theorem stays_changed (hid : a.id ≠ task.id) :
    (m.updated (.changed task) now).stays now a = m.stays now a := by
  have hlookup : (m.updated (.changed task) now).settledAt.lookup a.id =
      m.settledAt.lookup a.id := by
    simp only [updated]
    cases task.status.isTerminal with
    | false => simp [hid]
    | true => cases m.settledAt.lookup task.id <;> simp [hid]
  rw [stays, stays, hlookup]

/-- A task that is put in is not dropped at once. -/
theorem Agrees.stays_new (h : m.Agrees) (hnew : ¬ m.holds task.id) :
    (m.updated (.changed task) now).stays now task := by
  have hnone : m.settledAt.lookup task.id = none := by
    rw [← Option.isNone_iff_eq_none, ← Option.isSome_eq_false_iff, h.keys, ← Bool.not_eq_true]
    exact fun hshows => hnew (holds_of_showsSettled hshows)
  rw [stays, h.lookup_updated, settling, hnone]
  split
  · rfl
  · next since hsince =>
    split at hsince
    · obtain rfl : now = since := Option.some.inj hsince
      rw [Nat.sub_self]
      decide
    · cases hsince

theorem replaceTask_of_notMem {tasks : List TaskView} (h : ∀ held ∈ tasks, held.id ≠ task.id) :
    replaceTask task tasks = tasks ++ [task] := by
  induction tasks with
  | nil => rfl
  | cons held tasks ih =>
    obtain ⟨hne, hrest⟩ := List.forall_mem_cons.mp h
    rw [replaceTask, if_neg hne, ih hrest, List.cons_append]

/-- What is the same of a task and of the one it replaces stays as it is. -/
theorem map_replaceTask {β : Type} {f : TaskView → β} {tasks : List TaskView}
    (hheld : ∃ held ∈ tasks, held.id = task.id)
    (hsame : ∀ held ∈ tasks, held.id = task.id → f held = f task) :
    (replaceTask task tasks).map f = tasks.map f := by
  induction tasks with
  | nil =>
    obtain ⟨held, hmem, -⟩ := hheld
    cases hmem
  | cons held tasks ih =>
    obtain ⟨hfirst, hrest⟩ := List.forall_mem_cons.mp hsame
    rw [replaceTask]
    by_cases hid : held.id = task.id
    · rw [if_pos hid, List.map_cons, List.map_cons, hfirst hid]
    · have hheld : ∃ held ∈ tasks, held.id = task.id := by
        obtain ⟨other, hmem, hother⟩ := hheld
        rcases List.mem_cons.mp hmem with rfl | hmem
        · exact absurd hother hid
        · exact ⟨other, hmem, hother⟩
      rw [if_neg hid, List.map_cons, List.map_cons, ih hheld hrest]

/-! ### After a snapshot -/

theorem Agrees.takes_stays (h : m.Agrees) {snapshot : List TaskView}
    (hdistinct : (snapshot.map TaskView.id).Nodup) (ha : a ∈ snapshot) :
    (m.takes a ∧ (m.updated (.snapshot snapshot) now).stays now a) ↔ m.willShow now a := by
  have hshows : (m.updated (.snapshot snapshot) now).showsSettled a.id ↔
      m.takes a ∧ a.status.isTerminal := by
    rw [showsSettled_iff, updated_snapshot_tasks]
    constructor
    · rintro ⟨b, hb, hid, hend⟩
      obtain ⟨hb, htakes⟩ := List.mem_filter.mp hb
      obtain rfl := List.inj_on_of_nodup_map hdistinct hb ha hid
      exact ⟨htakes, hend⟩
    · rintro ⟨htakes, hend⟩
      exact ⟨a, List.mem_filter.mpr ⟨ha, htakes⟩, rfl, hend⟩
  have hlookup := h.lookup_updated (.snapshot snapshot) now a.id
  by_cases hend : a.status.isTerminal
  · by_cases htakes : m.takes a
    · rw [if_pos (hshows.mpr ⟨htakes, hend⟩)] at hlookup
      have hholds := (h.takes_iff hend).mp htakes
      simp only [htakes, hholds, willShow, hend, true_and, Bool.not_true, Bool.false_or,
        Bool.true_and, stays, hlookup, settling]
      cases m.settledAt.lookup a.id with
      | none => simp [settledLinger]
      | some since => rfl
    · have hholds : ¬ m.holds a.id := fun hholds => htakes ((h.takes_iff hend).mpr hholds)
      simp [htakes, willShow, hend, hholds]
  · have htakes : m.takes a := by
      rw [takes, if_neg hend]
    rw [if_neg fun hsettled => hend (hshows.mp hsettled).2] at hlookup
    simp [htakes, stays, hlookup, willShow, hend]

end Machine

/-! ### One call -/

/-- What holds of a machine under updates about numbered tasks, in order or not. -/
structure Ordered (updates : List TaskUpdate) (m : Machine) : Prop where
  agrees : m.Agrees
  sorted : m.tasks.Pairwise fun a b => Machine.notLater a b
  shown : ∀ task ∈ m.tasks, task ∈ shownIn updates

namespace Ordered

open Machine

variable {updates : List TaskUpdate}

theorem new (updates : List TaskUpdate) (label : String) (ssh : Option String) :
    Ordered updates (App.machineOf label ssh) where
  agrees := ⟨List.nodup_nil, fun _ => rfl⟩
  sorted := .nil
  shown _ h := by cases h

theorem mem_shownIn (hmem : update ∈ updates) (htask : task ∈ update.tasks) :
    task ∈ shownIn updates :=
  List.mem_flatMap.mpr ⟨update, hmem, htask⟩

theorem run (h : Ordered updates m) (hnum : Numbered place updates)
    (hcall : ∀ update ∈ call.updates, update ∈ updates) : Ordered updates (call.run m now) := by
  cases call with
  | expire =>
    exact ⟨h.agrees.expire now, h.sorted.sublist List.filter_sublist,
      fun task htask => h.shown task (mem_expire.mp htask).1⟩
  | apply update =>
    have hmem := hcall update (List.mem_singleton_self _)
    refine ⟨h.agrees.apply (hnum.distinct hmem) now, ?_, fun task htask => ?_⟩
    · refine List.Pairwise.sublist List.filter_sublist ?_
      exact List.pairwise_mergeSort notLater_trans notLater_total _
    · rcases h.agrees.mem_apply htask with hin | hin
      · exact mem_shownIn hmem hin
      · exact h.shown task hin

theorem alike_of_lt (hlt : place a.id < place b.id) : Alike place a b ↔ notLater a b := by
  constructor
  · intro h
    by_contra hnot
    exact absurd (h.2 hnot) (Nat.not_lt_of_lt hlt)
  · intro hle
    exact ⟨fun _ => hlt, fun hnot => absurd hle hnot⟩

theorem not_alike_iff (hne : place a.id ≠ place b.id) : ¬ Alike place a b ↔
    a.submittedUnixMillis ≤ b.submittedUnixMillis ∧ place b.id < place a.id ∨
      b.submittedUnixMillis < a.submittedUnixMillis ∧ place a.id < place b.id := by
  rw [Alike, notLater_iff]
  omega

/-- A task that is held and changes stays where it is. -/
theorem inOrder_held (h : Ordered updates m) (hnum : Numbered place updates)
    (hmem : .changed task ∈ updates) (hin : InOrder place m.tasks) (hheld : m.holds task.id) :
    InOrder place (m.apply (.changed task) now).tasks := by
  have hshown := mem_shownIn hmem (List.mem_singleton_self task)
  let f (task : TaskView) : String × Int := (task.id, task.submittedUnixMillis)
  have hmap : (replaceTask task m.tasks).map f = m.tasks.map f :=
    map_replaceTask (holds_iff.mp hheld) fun held hmem hid =>
      Prod.ext hid (hnum.submitted held (h.shown held hmem) task hshown hid)
  have hboth : (m.tasks.map f).Pairwise fun a b => a.2 ≤ b.2 ∧ place a.1 < place b.1 :=
    List.pairwise_map.mpr ((h.sorted.and hin).imp fun hab => ⟨notLater_iff.mp hab.1, hab.2⟩)
  rw [h.agrees.inOrder_apply (hnum.distinct hmem)]
  rw [← hmap, List.pairwise_map] at hboth
  exact hboth.imp fun hab _ _ => (alike_of_lt hab.2).mpr (notLater_iff.mpr hab.1)

/-- A task that is put in comes in order exactly if it does so with each that stays. -/
theorem inOrder_new (h : Ordered updates m) (hnum : Numbered place updates)
    (hmem : .changed task ∈ updates) (hin : InOrder place m.tasks) (hnew : ¬ m.holds task.id) :
    InOrder place (m.apply (.changed task) now).tasks ↔
      ∀ held ∈ m.tasks, m.stays now held → Alike place held task := by
  have hne : ∀ held ∈ m.tasks, held.id ≠ task.id :=
    fun held hheld hid => hnew (holds_iff.mpr ⟨held, hheld, hid⟩)
  have htasks : (m.updated (.changed task) now).tasks = m.tasks ++ [task] :=
    replaceTask_of_notMem hne
  rw [h.agrees.inOrder_apply (hnum.distinct hmem), htasks, List.pairwise_append]
  constructor
  · rintro ⟨-, -, hcross⟩ held hheld hstays
    exact hcross held hheld task (List.mem_singleton_self _)
      ((stays_changed (hne held hheld)).trans hstays) (h.agrees.stays_new hnew)
  · refine fun hall => ⟨?_, List.pairwise_singleton _ _, fun held hheld last hlast hstays _ => ?_⟩
    · exact (h.sorted.and hin).imp fun hab _ _ => (alike_of_lt hab.2).mpr hab.1
    · rw [List.mem_singleton.mp hlast]
      exact hall held hheld ((stays_changed (hne held hheld)).symm.trans hstays)

/-- A snapshot comes in order exactly if the times of what it shows do. -/
theorem inOrder_snapshot (h : Ordered updates m) (hnum : Numbered place updates)
    {snapshot : List TaskView} (hmem : .snapshot snapshot ∈ updates) :
    InOrder place (m.apply (.snapshot snapshot) now).tasks ↔
      ∀ a b, [a, b].Sublist snapshot → m.willShow now a → m.willShow now b → notLater a b := by
  have hdistinct := hnum.distinct hmem
  rw [h.agrees.inOrder_apply hdistinct, updated_snapshot_tasks, List.pairwise_filter,
    List.pairwise_iff_forall_sublist]
  have hiff {a b : TaskView} (hab : [a, b].Sublist snapshot) :
      (m.takes a → m.takes b → (m.updated (.snapshot snapshot) now).stays now a →
        (m.updated (.snapshot snapshot) now).stays now b → Alike place a b) ↔
      (m.willShow now a → m.willShow now b → notLater a b) := by
    have ha : a ∈ snapshot := hab.subset (by simp)
    have hb : b ∈ snapshot := hab.subset (by simp)
    rw [alike_of_lt ((hnum.snapshot snapshot hmem).forall_sublist hab),
      ← h.agrees.takes_stays hdistinct ha, ← h.agrees.takes_stays hdistinct hb]
    exact ⟨fun hab ha hb => hab ha.1 hb.1 ha.2 hb.2,
      fun hab ha hb ha' hb' => hab ⟨ha, ha'⟩ ⟨hb, hb'⟩⟩
  exact ⟨fun hall a b hab => (hiff hab).mp (hall hab), fun hall a b hab => (hiff hab).mpr
    (hall a b hab)⟩

/-- **After one call the tasks are in order exactly if it misplaces none.** -/
theorem inOrder_run (h : Ordered updates m) (hnum : Numbered place updates)
    (hcall : ∀ update ∈ call.updates, update ∈ updates) (hin : InOrder place m.tasks) :
    InOrder place (call.run m now).tasks ↔ ¬ Misplaces place m now call := by
  cases call with
  | expire => exact iff_of_true (hin.sublist List.filter_sublist) id
  | apply update =>
    have hmem := hcall update (List.mem_singleton_self _)
    cases update with
    | snapshot snapshot =>
      refine (h.inOrder_snapshot hnum hmem).trans ?_
      simp only [Misplaces, not_exists, not_and, Int.not_lt, ← notLater_iff]
    | changed task =>
      by_cases hheld : m.holds task.id
      · exact iff_of_true (h.inOrder_held hnum hmem hin hheld) fun hmis => hmis.1 hheld
      · refine (h.inOrder_new hnum hmem hin hheld).trans ?_
        have hne : ∀ held ∈ m.tasks, place held.id ≠ place task.id := by
          intro held hmem' heq
          have hid := hnum.apart held (h.shown held hmem') task
            (mem_shownIn hmem (List.mem_singleton_self task)) heq
          exact hheld (holds_iff.mpr ⟨held, hmem', hid⟩)
        constructor
        · rintro hall ⟨-, held, hmem', hstays, hmis⟩
          exact (not_alike_iff (hne held hmem')).mpr hmis (hall held hmem' hstays)
        · intro hnone held hmem' hstays
          by_contra hnot
          exact hnone ⟨hheld, held, hmem', hstays, (not_alike_iff (hne held hmem')).mp hnot⟩

/-- Of tasks that have their times in order no call misplaces one. -/
theorem not_misplaces (h : Ordered updates m) (hnum : Numbered place updates)
    (htimes : ∀ a ∈ shownIn updates, ∀ b ∈ shownIn updates, place a.id < place b.id →
      a.submittedUnixMillis < b.submittedUnixMillis)
    (hcall : ∀ update ∈ call.updates, update ∈ updates) : ¬ Misplaces place m now call := by
  cases call with
  | expire => exact id
  | apply update =>
    have hmem := hcall update (List.mem_singleton_self _)
    cases update with
    | snapshot snapshot =>
      rintro ⟨a, b, hab, -, -, hlt⟩
      have ha : a ∈ snapshot := hab.subset (by simp)
      have hb : b ∈ snapshot := hab.subset (by simp)
      have hplace := (hnum.snapshot snapshot hmem).forall_sublist hab
      have htime := htimes a (mem_shownIn hmem ha) b (mem_shownIn hmem hb) hplace
      omega
    | changed task =>
      have htask := mem_shownIn hmem (List.mem_singleton_self task)
      rintro ⟨-, held, hheld, -, ⟨htime, hplace⟩ | ⟨htime, hplace⟩⟩
      · have := htimes task htask held (h.shown held hheld) hplace
        omega
      · have := htimes held (h.shown held hheld) task htask hplace
        omega

end Ordered

/-! ### Whole runs -/

namespace Pane

variable {p : Pane} {calls : List (Instant × Call)} {updates : List TaskUpdate}

theorem ordered_of_run (label : String) (ssh : Option String) (hnum : Numbered place updates) :
    ∀ {calls : List (Instant × Call)} {p : Pane}, (∀ update ∈ updatesOf calls, update ∈ updates) →
      exec step (new label ssh) calls = some p → Ordered updates p.machine := by
  intro calls
  induction calls using List.reverseRecOn with
  | nil =>
    intro p _ hrun
    obtain rfl : new label ssh = p := Option.some.inj hrun
    exact .new updates label ssh
  | append_singleton calls last ih =>
    intro p hcalls hrun
    obtain ⟨now, call⟩ := last
    obtain ⟨q, hq, hstep⟩ := exec_concat_eq_some.mp hrun
    rw [updatesOf_concat] at hcalls
    obtain ⟨-, rfl⟩ := step_eq_some.mp hstep
    exact (ih (fun update hmem => hcalls update (List.mem_append_left _ hmem)) hq).run hnum
      fun update hmem => hcalls update (List.mem_append_right _ hmem)

/-- **The tasks are in order in a whole run exactly if no call misplaces one.** -/
theorem in_order_iff (label : String) (ssh : Option String) (calls : List (Instant × Call))
    (hnum : Numbered place updates) (hcalls : ∀ update ∈ updatesOf calls, update ∈ updates)
    (hrun : (exec step (new label ssh) calls).isSome) :
    (∀ earlier p, earlier <+: calls → exec step (new label ssh) earlier = some p →
      InOrder place p.machine.tasks) ↔
    ∀ earlier p now call, earlier ++ [(now, call)] <+: calls →
      exec step (new label ssh) earlier = some p → ¬ Misplaces place p.machine now call := by
  have hnew : InOrder place (new label ssh).machine.tasks := .nil
  refine (exec_forall_iff (P := fun p : Pane => InOrder place p.machine.tasks)
    (B := fun p last => Misplaces place p.machine last.1 last.2) hnew ?_ hrun).trans ?_
  · intro earlier p last q hpre hp hstep hin
    obtain ⟨now, call⟩ := last
    have hpart : ∀ update ∈ updatesOf (earlier ++ [(now, call)]), update ∈ updates := by
      obtain ⟨rest, rfl⟩ := hpre
      rw [updatesOf_append] at hcalls
      exact fun update hmem => hcalls update (List.mem_append_left _ hmem)
    rw [updatesOf_concat] at hpart
    have hordered := ordered_of_run label ssh hnum
      (fun update hmem => hpart update (List.mem_append_left _ hmem)) hp
    obtain ⟨-, rfl⟩ := step_eq_some.mp hstep
    exact hordered.inOrder_run hnum
      (fun update hmem => hpart update (List.mem_append_right _ hmem)) hin
  · exact ⟨fun hall earlier p now call => hall earlier p (now, call),
      fun hall earlier p last => hall earlier p last.1 last.2⟩

end Pane

/-! ### What `Watch` streams say -/

section Watch

variable {Output : Type} {config : Config} {capacity : Nat} {s : State Output}
  {u w : Watch Output} {m : ServerEvent} {info : TaskInfo} {x y : TaskId}

/-- The place of a task among those submitted, by the identifier it has on the wire. -/
def placeIn (s : State Output) (id : String) : Nat :=
  s.ids.findIdx fun x => Wire.displayId x = id

/-- The identifiers of a runtime have 128 bits. -/
def Uuids (s : State Output) : Prop := ∀ x ∈ s.ids, x.uuid < 2 ^ 128

theorem findIdx_displayId {ids : List TaskId} (hids : ∀ x ∈ ids, x.uuid < 2 ^ 128)
    (hx : x ∈ ids) : ids.findIdx (fun y => Wire.displayId y = Wire.displayId x) = ids.idxOf x := by
  have hsame : ∀ y ∈ ids, Wire.displayId y = Wire.displayId x ↔ y = x :=
    fun y hy => ⟨Wire.displayId_inj (hids y hy) (hids x hx), fun h => h ▸ rfl⟩
  clear hids hx
  induction ids with
  | nil => rfl
  | cons y ids ih =>
    obtain ⟨hy, hrest⟩ := List.forall_mem_cons.mp hsame
    rw [List.findIdx_cons, List.idxOf_cons, ih hrest, decide_eq_decide.mpr hy]
    rfl

theorem placeIn_displayId (hids : Uuids s) (hx : x ∈ s.ids) :
    placeIn s (Wire.displayId x) = s.ids.idxOf x :=
  findIdx_displayId hids hx

/-- The submissions of an earlier state are the first of a later one's. -/
theorem submissions_grow (hu : Steps (watchStep config capacity) anyWatch .init u)
    (h : Steps (watchStep config capacity) anyWatch u w) :
    u.runtime.submissions <+: w.runtime.submissions := by
  refine h.invariant_from (I := fun v => u.runtime.submissions <+: v.runtime.submissions)
    List.prefix_rfl fun v a v' hv hpre _ hstep => hpre.trans ?_
  cases a with
  | runtime action =>
    obtain ⟨s', hs', rfl⟩ := Option.map_eq_some_iff.mp hstep
    exact (FilePeeker.step_cases hs').submissions_grow
      (Reaches.wf (Steps.watched (hu.trans hv)).reaches)
  | close =>
    cases hstep
    exact List.prefix_rfl
  | stream action =>
    obtain ⟨st, -, rfl⟩ := Option.map_eq_some_iff.mp hstep
    exact List.prefix_rfl

theorem task_of_exact (h : m.Exact s.registry) (hinfo : info ∈ tasksOf m) :
    ∃ y, s.registry.task y = some info := by
  cases m with
  | hello => cases hinfo
  | snapshot tasks =>
    obtain rfl : tasks = s.registry.tasks := h
    exact Registry.mem_tasks.mp hinfo
  | changed task =>
    obtain rfl := List.mem_singleton.mp hinfo
    exact ⟨_, h⟩

/-- What a message shows of a task has the time that it was submitted with. -/
theorem submission_of_shown (hw : Steps (watchStep config capacity) anyWatch .init w)
    (hm : m ∈ w.stream.produced) (hinfo : info ∈ tasksOf m) :
    ∃ first ∈ w.runtime.submissions, first.id = info.id ∧ first.submitted = info.submitted := by
  obtain ⟨past, htrace⟩ := hw.trace
  rcases Trace.exact_of_mem htrace hm with rfl | ⟨u, hu, huw, hexact⟩
  · cases hinfo
  · obtain ⟨y, hy⟩ := task_of_exact hexact hinfo
    obtain ⟨e, he, rfl⟩ := Option.map_eq_some_iff.mp hy
    have hreaches := (Steps.watched hu).reaches
    obtain ⟨first, hfirst, hid, htime⟩ := (Reaches.enrolled hreaches).entry y e he
    have hsame := (Reaches.wf hreaches).id_of_task hy
    exact ⟨first, (submissions_grow hu huw).subset hfirst, hid.trans hsame.symm, htime⟩

/-- A snapshot has the tasks in the order of their submission. -/
theorem snapshot_in_order (hw : Steps (watchStep config capacity) anyWatch .init w)
    {tasks : List TaskInfo} (hm : .snapshot tasks ∈ w.stream.produced) :
    tasks.Pairwise fun a b => w.runtime.ids.idxOf a.id < w.runtime.ids.idxOf b.id := by
  obtain ⟨past, htrace⟩ := hw.trace
  rcases Trace.exact_of_mem htrace hm with hhello | ⟨u, hu, huw, hexact⟩
  · cases hhello
  · have hwf := Reaches.wf (Steps.watched hu).reaches
    have henrolled := Reaches.enrolled (Steps.watched hu).reaches
    have hids : u.runtime.ids <+: w.runtime.ids := by
      rw [← henrolled.ids, ← (Reaches.enrolled (Steps.watched hw).reaches).ids]
      exact (submissions_grow hu huw).map _
    have hidx {a : TaskInfo} (ha : a ∈ tasks) :
        w.runtime.ids.idxOf a.id = u.runtime.ids.idxOf a.id := by
      obtain ⟨y, hy⟩ := task_of_exact hexact ha
      obtain ⟨e, he, rfl⟩ := Option.map_eq_some_iff.mp hy
      obtain ⟨d, hd, ho⟩ := hwf.entry y e he
      obtain ⟨rest, hrest⟩ := hids
      rw [← hrest, List.idxOf_append_of_mem]
      rw [ho.id]
      exact (hwf.mem_ids y).mpr (hd ▸ rfl)
    obtain rfl : tasks = u.runtime.registry.tasks := hexact
    refine hwf.tasks_in_order.imp_of_mem fun {a b} ha hb hlt => ?_
    rw [hidx ha, hidx hb]
    exact hlt

/-- The updates of some streams. -/
def received (streams : List (Watch Output)) : List TaskUpdate :=
  streams.flatMap fun w => w.stream.applied.filterMap updateOf

/-- Each stream is one of a run to the state, not all of the same run. -/
def StreamsOf (config : Config) (capacity : Nat) (s : State Output)
    (streams : List (Watch Output)) : Prop :=
  ∀ w ∈ streams, Steps (watchStep config capacity) anyWatch .init w ∧ w.runtime = s

theorem StreamsOf.message {streams : List (Watch Output)}
    (h : StreamsOf config capacity s streams) (hmem : update ∈ received streams) :
    ∃ w : Watch Output, Steps (watchStep config capacity) anyWatch .init w ∧ w.runtime = s ∧
      ∃ m ∈ w.stream.produced, updateOf m = some update := by
  obtain ⟨w, hw, hupdate⟩ := List.mem_flatMap.mp hmem
  obtain ⟨m, hm, hupdate⟩ := List.mem_filterMap.mp hupdate
  obtain ⟨hsteps, hs⟩ := h w hw
  have happlied := (Steps.watched hsteps).ok.applied.subset hm
  exact ⟨w, hsteps, hs, m, List.mem_append_left _ happlied, hupdate⟩

theorem StreamsOf.submission {streams : List (Watch Output)}
    (h : StreamsOf config capacity s streams) (ha : a ∈ shownIn (received streams)) :
    ∃ first ∈ s.submissions, a.id = Wire.displayId first.id ∧
      a.submittedUnixMillis = Wire.unixMillis first.submitted := by
  obtain ⟨update, hupdate, ha⟩ := List.mem_flatMap.mp ha
  obtain ⟨w, hw, rfl, m, hm, heq⟩ := h.message hupdate
  rw [tasks_updateOf heq] at ha
  obtain ⟨info, hinfo, rfl⟩ := List.mem_map.mp ha
  obtain ⟨first, hfirst, hid, htime⟩ := submission_of_shown hw hm hinfo
  refine ⟨first, hfirst, ?_, ?_⟩
  · rw [id_view, hid]
  · rw [(Wire.view_taskMessage info).1, htime, Wire.unixMillis_eq]

variable {streams : List (Watch Output)}

/-- **The updates of `Watch` streams are about numbered tasks.** -/
theorem StreamsOf.numbered (h : StreamsOf config capacity s streams)
    (hreach : Reaches config anyRun s) (hids : Uuids s) :
    Numbered (placeIn s) (received streams) := by
  have hwf := Reaches.wf hreach
  have hr := Reaches.enrolled hreach
  constructor
  · intro snapshot hmem
    obtain ⟨w, hw, rfl, m, hm, heq⟩ := h.message hmem
    cases m with
    | hello | changed => cases heq
    | snapshot tasks =>
      cases heq
      refine List.pairwise_map.mpr ((snapshot_in_order hw hm).imp_of_mem ?_)
      intro info info' hinfo hinfo' hlt
      obtain ⟨first, hfirst, hid, -⟩ := submission_of_shown hw hm hinfo
      obtain ⟨first', hfirst', hid', -⟩ := submission_of_shown hw hm hinfo'
      rw [id_view, id_view, placeIn_displayId hids (hid ▸ hr.mem_ids hfirst),
        placeIn_displayId hids (hid' ▸ hr.mem_ids hfirst')]
      exact hlt
  · intro a ha b hb heq
    obtain ⟨first, hfirst, hid, -⟩ := h.submission ha
    obtain ⟨first', hfirst', hid', -⟩ := h.submission hb
    rw [hid, hid', placeIn_displayId hids (hr.mem_ids hfirst),
      placeIn_displayId hids (hr.mem_ids hfirst'), List.idxOf_inj (hr.mem_ids hfirst)] at heq
    rw [hid, hid', heq]
  · intro a ha b hb hsame
    obtain ⟨first, hfirst, hid, htime⟩ := h.submission ha
    obtain ⟨first', hfirst', hid', htime'⟩ := h.submission hb
    rw [hid, hid'] at hsame
    have heq := Wire.displayId_inj (hids _ (hr.mem_ids hfirst)) (hids _ (hr.mem_ids hfirst')) hsame
    rw [htime, htime', hr.eq_of_id hwf hfirst hfirst' heq]

/-- **The order of the list, in every run.**  A task's place is the number it got as it was
submitted, and `Runtime::tasks` is in the order of these; the list of a client is, in every
state, exactly if no call puts a task in the wrong place. -/
theorem order_kept_iff (label : String) (ssh : Option String) (calls : List (Instant × Call))
    (hreach : Reaches config anyRun s) (hids : Uuids s)
    (hstreams : StreamsOf config capacity s streams)
    (hcalls : ∀ update ∈ updatesOf calls, update ∈ received streams)
    (hrun : (exec Pane.step (Pane.new label ssh) calls).isSome) :
    (∀ x d, s.drivers x = some d → placeIn s (Wire.displayId x) = d.ticket.seq) ∧
    (s.registry.tasks.Pairwise fun a b =>
      placeIn s (Wire.displayId a.id) < placeIn s (Wire.displayId b.id)) ∧
    ((∀ earlier p, earlier <+: calls → exec Pane.step (Pane.new label ssh) earlier = some p →
      InOrder (placeIn s) p.machine.tasks) ↔
    ∀ earlier p now call, earlier ++ [(now, call)] <+: calls →
      exec Pane.step (Pane.new label ssh) earlier = some p →
      ¬ Misplaces (placeIn s) p.machine now call) := by
  have hwf := Reaches.wf hreach
  have hplace {x : TaskId} {d : Driver Output} (hd : s.drivers x = some d) :
      placeIn s (Wire.displayId x) = s.ids.idxOf x :=
    placeIn_displayId hids ((hwf.mem_ids x).mpr (hd ▸ rfl))
  refine ⟨fun x d hd => (hplace hd).trans (hwf.idxOf_eq hd), ?_,
    Pane.in_order_iff label ssh calls (hstreams.numbered hreach hids) hcalls hrun⟩
  refine hwf.tasks_in_order.imp_of_mem fun {a b} ha hb hlt => ?_
  have hdriver {a : TaskInfo} (ha : a ∈ s.registry.tasks) : ∃ d, s.drivers a.id = some d := by
    obtain ⟨y, hy⟩ := Registry.mem_tasks.mp ha
    rw [hwf.id_of_task hy]
    obtain ⟨e, he, -⟩ := Option.map_eq_some_iff.mp hy
    obtain ⟨d, hd, -⟩ := hwf.entry y e he
    exact ⟨d, hd⟩
  obtain ⟨d, hd⟩ := hdriver ha
  obtain ⟨d', hd'⟩ := hdriver hb
  rw [hplace hd, hplace hd']
  exact hlt

/-- Two tasks are submitted, and the client is sent both. -/
def twoTasks (first second : SystemTime) : Watch Nat :=
  Watch.init.run .default 1024
    [.runtime (.submit ⟨1⟩ ⟨⟨"list", [], .interactive⟩, []⟩ first),
      .runtime (.submit ⟨2⟩ ⟨⟨"list", [], .interactive⟩, []⟩ second), .stream .forward,
      .stream .forward, .stream .forward, .stream .receive, .stream .receive]

def twoShown (first second : SystemTime) : List TaskView :=
  [startInfo ⟨1⟩ none ⟨"list", [], .interactive⟩ first,
    startInfo ⟨2⟩ none ⟨"list", [], .interactive⟩ second].map
    fun info => Wire.viewFrom (Wire.taskMessage info)

theorem twoTasks_received (first second : SystemTime) :
    received [twoTasks first second] = [.snapshot (twoShown first second)] := rfl

theorem twoTasks_streams (first second : SystemTime) :
    StreamsOf .default 1024 (twoTasks first second).runtime [twoTasks first second] := by
  intro w hw
  rw [List.mem_singleton.mp hw]
  exact ⟨Watch.steps_run .., rfl⟩

theorem twoTasks_reaches (first second : SystemTime) :
    Reaches .default anyRun (twoTasks first second).runtime :=
  (Steps.watched (Watch.steps_run ..)).reaches

theorem twoTasks_uuids (first second : SystemTime) : Uuids (twoTasks first second).runtime := by
  show ∀ x ∈ ([⟨1⟩, ⟨2⟩] : List TaskId), x.uuid < 2 ^ 128
  decide

/-- The client applies the snapshot that it is sent. -/
def twoCalls (first second : SystemTime) : List (Instant × Call) :=
  [(0, .apply (.snapshot (twoShown first second)))]

/-- A millisecond lies between the two, and the list has them in order. -/
theorem order_kept_ahead :
    (exec Pane.step (Pane.new "local" none) (twoCalls 0 1000000)).isSome ∧
    ∀ earlier p, earlier <+: twoCalls 0 1000000 →
      exec Pane.step (Pane.new "local" none) earlier = some p →
      InOrder (placeIn (twoTasks 0 1000000).runtime) p.machine.tasks := by
  refine ⟨rfl, (order_kept_iff "local" none (twoCalls 0 1000000) (twoTasks_reaches 0 1000000)
    (twoTasks_uuids 0 1000000) (twoTasks_streams 0 1000000) ?_ rfl).2.2.mpr ?_⟩
  · intro update hmem
    rw [twoTasks_received]
    exact hmem
  · have htimes : (twoShown 0 1000000).Pairwise fun a b =>
        a.submittedUnixMillis ≤ b.submittedUnixMillis := by decide
    intro earlier p now call hpre _ hmis
    cases earlier with
    | nil =>
      obtain ⟨heq, -⟩ := List.cons_prefix_cons.mp hpre
      obtain ⟨rfl, rfl⟩ := Prod.mk.inj heq
      obtain ⟨a, b, hab, -, -, hlt⟩ := hmis
      exact absurd hlt (Int.not_lt_of_ge (htimes.forall_sublist hab))
    | cons first earlier =>
      obtain ⟨-, hpre⟩ := List.cons_prefix_cons.mp hpre
      simp at hpre

/-- **The list is not always in order**: the clock steps back between the two. -/
theorem clock_reorders : ¬ ∀ (w : Watch Nat) (calls : List (Instant × Call)) (p : Pane),
    Steps (watchStep .default 1024) anyWatch .init w →
    updatesOf calls = w.stream.applied.filterMap updateOf →
    exec Pane.step (Pane.new "local" none) calls = some p →
    InOrder (placeIn w.runtime) p.machine.tasks := by
  intro h
  have hstep : (Pane.new "local" none).step (0, .apply (.snapshot (twoShown 1000000 0))) =
      some _ := Pane.step_eq_some.mpr ⟨Nat.le_refl 0, rfl⟩
  have hin := h (twoTasks 1000000 0) (twoCalls 1000000 0) _ (Watch.steps_run ..) rfl (by
    rw [twoCalls, exec, hstep]
    rfl)
  have hnum := (twoTasks_streams 1000000 0).numbered (twoTasks_reaches 1000000 0)
    (twoTasks_uuids 1000000 0)
  refine ((Ordered.new _ "local" none).inOrder_run hnum (fun update hmem => ?_) .nil).mp hin ?_
  · rw [twoTasks_received]
    exact hmem
  · exact ⟨_, _, List.Sublist.refl _, rfl, rfl, by decide⟩

/-- Where every task was submitted in a later millisecond than those before it the list is
in order, whatever the calls. -/
theorem in_order_of_clock (label : String) (ssh : Option String)
    {calls : List (Instant × Call)} {p : Pane} (hreach : Reaches config anyRun s)
    (hids : Uuids s) (hstreams : StreamsOf config capacity s streams)
    (hcalls : ∀ update ∈ updatesOf calls, update ∈ received streams)
    (hclock : s.submissions.Pairwise fun first second =>
      Wire.unixMillis first.submitted < Wire.unixMillis second.submitted)
    (hrun : exec Pane.step (Pane.new label ssh) calls = some p) :
    InOrder (placeIn s) p.machine.tasks := by
  have hr := Reaches.enrolled hreach
  have hnum := hstreams.numbered hreach hids
  have hkept := Pane.in_order_iff label ssh calls hnum hcalls (hrun ▸ rfl)
  refine hkept.mpr (fun earlier q now call hpre hq => ?_) calls p List.prefix_rfl hrun
  have hpart : ∀ update ∈ updatesOf (earlier ++ [(now, call)]), update ∈ received streams := by
    obtain ⟨rest, rfl⟩ := hpre
    rw [updatesOf_append] at hcalls
    exact fun update hmem => hcalls update (List.mem_append_left _ hmem)
  rw [updatesOf_concat] at hpart
  refine (Pane.ordered_of_run label ssh hnum
    (fun update hmem => hpart update (List.mem_append_left _ hmem)) hq).not_misplaces hnum
    (fun a ha b hb hlt => ?_) fun update hmem => hpart update (List.mem_append_right _ hmem)
  obtain ⟨first, hfirst, hid, htime⟩ := hstreams.submission ha
  obtain ⟨second, hsecond, hid', htime'⟩ := hstreams.submission hb
  rw [hid, hid', placeIn_displayId hids (hr.mem_ids hfirst),
    placeIn_displayId hids (hr.mem_ids hsecond)] at hlt
  rw [htime, htime']
  exact hr.pairwise_of_idxOf (Reaches.wf hreach) hclock hfirst hsecond hlt

end Watch

end FilePeeker.Tui
