import FilePeeker.Lib.Steps
import FilePeeker.Tui.App

/-!
# How long a settled task stays

A machine's list of tasks under any calls of `apply` and `expire`, at times that do not
go back.  `Pane` is the machine with the history of these calls: since when each task
has been held as settled without a break, when it was first held as settled, and
whether `expire` has dropped it.

`Agrees` is what the two collections of a machine have to do with each other, and
`Lingers` what they have to do with the history.  `Lingers.goes` says how a task can
go.
-/

namespace FilePeeker.Tui

open Table

variable {m : Machine} {now since : Instant} {id : String} {task : TaskView}
  {tasks snapshot : List TaskView} {update : TaskUpdate}

/-- No task of a snapshot comes twice. -/
def TaskUpdate.Distinct : TaskUpdate → Prop
  | .snapshot snapshot => (snapshot.map TaskView.id).Nodup
  | .changed _ => True

/-! ### What a machine holds -/

namespace Machine

def holds (m : Machine) (id : String) : Bool := m.tasks.any fun task => task.id = id

/-- Holds the task, as one that has settled. -/
def showsSettled (m : Machine) (id : String) : Bool :=
  m.tasks.any fun task => task.id = id ∧ task.status.isTerminal

theorem holds_iff : m.holds id ↔ ∃ task ∈ m.tasks, task.id = id := by
  simp [holds]

theorem showsSettled_iff :
    m.showsSettled id ↔ ∃ task ∈ m.tasks, task.id = id ∧ task.status.isTerminal := by
  simp [showsSettled]

theorem holds_of_showsSettled (h : m.showsSettled id) : m.holds id := by
  obtain ⟨task, htask, hid, -⟩ := showsSettled_iff.mp h
  exact holds_iff.mpr ⟨task, htask, hid⟩

/-! ### Expiry -/

/-- A task `expire` leaves. -/
def stays (m : Machine) (now : Instant) (task : TaskView) : Bool :=
  match m.settledAt.lookup task.id with
  | none => true
  | some since => now - since < settledLinger

theorem expire_tasks (m : Machine) (now : Instant) :
    (m.expire now).tasks = m.tasks.filter (m.stays now) := rfl

theorem mem_expire : task ∈ (m.expire now).tasks ↔ task ∈ m.tasks ∧
    ∀ since, m.settledAt.lookup task.id = some since → now - since < settledLinger := by
  rw [expire_tasks, List.mem_filter, stays]
  cases m.settledAt.lookup task.id <;> simp

theorem lookup_expire (m : Machine) (now : Instant) (id : String) :
    (m.expire now).settledAt.lookup id =
      if (m.expire now).holds id then m.settledAt.lookup id else none :=
  lookup_retain ..

/-! ### Changes -/

theorem mem_replaceTask (h : (tasks.map TaskView.id).Nodup) {held : TaskView} :
    held ∈ replaceTask task tasks ↔ held = task ∨ held ∈ tasks ∧ held.id ≠ task.id := by
  induction tasks with
  | nil => simp [replaceTask]
  | cons first tasks ih =>
    rw [List.map_cons, List.nodup_cons] at h
    rw [replaceTask]
    split
    · next hid =>
      have hother : held ∈ tasks → held.id ≠ task.id := by
        rintro hmem heq
        exact h.1 (hid ▸ heq ▸ List.mem_map_of_mem hmem)
      constructor
      · intro hmem
        rcases List.mem_cons.mp hmem with rfl | hmem
        · exact .inl rfl
        · exact .inr ⟨List.mem_cons_of_mem _ hmem, hother hmem⟩
      · rintro (rfl | ⟨hmem, hne⟩)
        · exact List.mem_cons_self
        · rcases List.mem_cons.mp hmem with rfl | hmem
          · exact absurd hid hne
          · exact List.mem_cons_of_mem _ hmem
    · next hid =>
      rw [List.mem_cons, ih h.2, List.mem_cons]
      constructor
      · rintro (rfl | rfl | ⟨hmem, hne⟩)
        · exact .inr ⟨.inl rfl, hid⟩
        · exact .inl rfl
        · exact .inr ⟨.inr hmem, hne⟩
      · rintro (rfl | ⟨rfl | hmem, hne⟩)
        · exact .inr (.inl rfl)
        · exact .inl rfl
        · exact .inr (.inr ⟨hmem, hne⟩)

theorem nodup_replaceTask (h : (tasks.map TaskView.id).Nodup) :
    ((replaceTask task tasks).map TaskView.id).Nodup := by
  induction tasks with
  | nil => simp [replaceTask]
  | cons first tasks ih =>
    have h' := h
    rw [List.map_cons, List.nodup_cons] at h
    rw [replaceTask]
    split
    · next hid =>
      rw [List.map_cons, ← hid]
      exact h'
    · next hid =>
      rw [List.map_cons, List.nodup_cons]
      refine ⟨fun hmem => ?_, ih h.2⟩
      obtain ⟨held, hheld, heq⟩ := List.mem_map.mp hmem
      rcases (mem_replaceTask h.2).mp hheld with rfl | ⟨hold, -⟩
      · exact hid heq.symm
      · exact h.1 (heq ▸ List.mem_map_of_mem hold)

/-! ### Snapshots -/

/-- A task of a snapshot that is shown. -/
def takes (m : Machine) (task : TaskView) : Bool :=
  if task.status.isTerminal then
    match m.tasks.find? (·.id = task.id) with
    | none => false
    | some known => (m.settledAt.lookup task.id).isSome || !known.status.isTerminal
  else true

/-- When a task that is shown as settled from now on was seen to settle. -/
def settling (m : Machine) (now : Instant) (id : String) : Instant :=
  (m.settledAt.lookup id).getD now

theorem applySnapshot_spec (m : Machine) (now : Instant) :
    ∀ (snapshot tasks : List TaskView) (settledAt : Table String Instant),
      (m.applySnapshot now snapshot (tasks, settledAt)).1 = tasks ++ snapshot.filter m.takes ∧
      ∀ id, (m.applySnapshot now snapshot (tasks, settledAt)).2.lookup id =
        if (snapshot.filter m.takes).any (fun task => task.id = id ∧ task.status.isTerminal)
        then some (m.settling now id) else settledAt.lookup id := by
  intro snapshot
  induction snapshot with
  | nil => intro tasks settledAt; simp [applySnapshot]
  | cons task snapshot ih =>
    intro tasks settledAt
    -- A task that is taken goes to the end; one that has settled gets its time.
    have htaken (htakes : m.takes task) (settledAt' : Table String Instant)
        (hlookup : ∀ id, settledAt'.lookup id = if task.id = id ∧ task.status.isTerminal
          then some (m.settling now id) else settledAt.lookup id) :
        (m.applySnapshot now snapshot (tasks ++ [task], settledAt')).1 =
          tasks ++ (task :: snapshot).filter m.takes ∧
        ∀ id, (m.applySnapshot now snapshot (tasks ++ [task], settledAt')).2.lookup id =
          if ((task :: snapshot).filter m.takes).any
            (fun task => task.id = id ∧ task.status.isTerminal)
          then some (m.settling now id) else settledAt.lookup id := by
      obtain ⟨h₁, h₂⟩ := ih (tasks ++ [task]) settledAt'
      refine ⟨by rw [h₁, List.filter_cons_of_pos htakes, List.append_assoc]; rfl, fun id => ?_⟩
      rw [h₂, hlookup, List.filter_cons_of_pos htakes, List.any_cons]
      by_cases hid : task.id = id ∧ task.status.isTerminal <;> simp [hid]
    have hskipped (htakes : ¬ m.takes task) :
        (m.applySnapshot now snapshot (tasks, settledAt)).1 =
          tasks ++ (task :: snapshot).filter m.takes ∧
        ∀ id, (m.applySnapshot now snapshot (tasks, settledAt)).2.lookup id =
          if ((task :: snapshot).filter m.takes).any
            (fun task => task.id = id ∧ task.status.isTerminal)
          then some (m.settling now id) else settledAt.lookup id := by
      rw [List.filter_cons_of_neg htakes]
      exact ih tasks settledAt
    have hinsert (hend : task.status.isTerminal) {time : Instant}
        (htime : time = m.settling now task.id) (id : String) :
        (settledAt.insert task.id time).lookup id = if task.id = id ∧ task.status.isTerminal
          then some (m.settling now id) else settledAt.lookup id := by
      rw [lookup_insert_if]
      by_cases hid : id = task.id
      · simp [hid, hend, htime]
      · simp [hid, Ne.symm hid]
    rw [applySnapshot.eq_def]
    simp only
    split
    · next hend =>
      split
      · next known since hknown hsince =>
        exact htaken (by simp [takes, hend, hknown, hsince]) _
          (hinsert hend (by simp [settling, hsince]))
      · next known hknown hsince =>
        split
        · next hover => exact hskipped (by simp [takes, hend, hknown, hsince, hover])
        · next hlive =>
          exact htaken (by simp [takes, hend, hknown, hsince, hlive]) _
            (hinsert hend (by simp [settling, hsince]))
      · next hknown => exact hskipped (by simp [takes, hend, hknown])
    · next hlive => exact htaken (by simp [takes, hlive]) _ fun id => by simp [hlive]

/-! ### The two collections -/

/-- `apply` before it sorts and expires. -/
def updated (m : Machine) (update : TaskUpdate) (now : Instant) : Machine :=
  match update with
  | .snapshot snapshot =>
    let (tasks, settledAt) := m.applySnapshot now snapshot ([], ∅)
    { m with tasks, settledAt }
  | .changed task =>
    let settledAt :=
      if task.status.isTerminal then
        match m.settledAt.lookup task.id with
        | none => m.settledAt.insert task.id now
        | some _ => m.settledAt
      else m.settledAt.erase task.id
    { m with tasks := replaceTask task m.tasks, settledAt }

theorem updated_snapshot_tasks (m : Machine) (snapshot : List TaskView) (now : Instant) :
    (m.updated (.snapshot snapshot) now).tasks = snapshot.filter m.takes :=
  (applySnapshot_spec m now snapshot [] ∅).1

def sorted (m : Machine) : Machine :=
  { m with tasks := m.tasks.mergeSort fun a b => a.submittedUnixMillis ≤ b.submittedUnixMillis }

theorem apply_eq (m : Machine) (update : TaskUpdate) (now : Instant) :
    m.apply update now = ((m.updated update now).sorted).expire now := rfl

theorem mem_sorted : task ∈ m.sorted.tasks ↔ task ∈ m.tasks :=
  (List.mergeSort_perm ..).mem_iff

/-- The tasks are told apart by their ids, and those that have settled have a time. -/
structure Agrees (m : Machine) : Prop where
  ids : (m.tasks.map TaskView.id).Nodup
  keys : ∀ id, (m.settledAt.lookup id).isSome = m.showsSettled id

theorem Agrees.eq_of_id (h : m.Agrees) {a b : TaskView} (ha : a ∈ m.tasks) (hb : b ∈ m.tasks)
    (hid : a.id = b.id) : a = b :=
  List.inj_on_of_nodup_map h.ids ha hb hid

theorem Agrees.isTerminal (h : m.Agrees) (htask : task ∈ m.tasks) :
    task.status.isTerminal = (m.settledAt.lookup task.id).isSome := by
  rw [h.keys, Bool.eq_iff_iff, showsSettled_iff]
  constructor
  · intro hend
    exact ⟨task, htask, rfl, hend⟩
  · rintro ⟨task', htask', hid, hend⟩
    rwa [h.eq_of_id htask htask' hid.symm]

/-- A task that has settled is taken where it is held. -/
theorem Agrees.takes_iff (h : m.Agrees) (hend : task.status.isTerminal) :
    m.takes task ↔ m.holds task.id := by
  rw [takes, if_pos hend]
  cases hknown : m.tasks.find? (·.id = task.id) with
  | none =>
    refine iff_of_false Bool.false_ne_true fun hholds => ?_
    obtain ⟨held, hmem, hid⟩ := holds_iff.mp hholds
    exact List.find?_eq_none.mp hknown held hmem (decide_eq_true hid)
  | some known =>
    have hmem := List.mem_of_find?_eq_some hknown
    have hid : known.id = task.id := by simpa using List.find?_some hknown
    have hholds : m.holds task.id := holds_iff.mpr ⟨known, hmem, hid⟩
    have hknown := h.isTerminal hmem
    rw [hid] at hknown
    simp only [hknown, hholds, iff_true]
    cases (m.settledAt.lookup task.id).isSome <;> rfl

theorem Agrees.sorted (h : m.Agrees) : m.sorted.Agrees where
  ids := ((List.mergeSort_perm ..).map _).nodup_iff.mpr h.ids
  keys id := by
    rw [show m.sorted.settledAt = m.settledAt from rfl, h.keys, Bool.eq_iff_iff,
      showsSettled_iff, showsSettled_iff]
    simp only [mem_sorted]

theorem Agrees.expire (h : m.Agrees) (now : Instant) : (m.expire now).Agrees where
  ids := h.ids.sublist (List.filter_sublist.map _)
  keys id := by
    rw [lookup_expire, Bool.eq_iff_iff, showsSettled_iff]
    split
    · next hholds =>
      rw [h.keys, showsSettled_iff]
      obtain ⟨task, htask, rfl⟩ := holds_iff.mp hholds
      have hmem := (mem_expire.mp htask).1
      constructor
      · rintro ⟨task', htask', hid, hend⟩
        exact ⟨task, htask, rfl, h.eq_of_id htask' hmem hid ▸ hend⟩
      · rintro ⟨task', htask', hid, hend⟩
        exact ⟨task', (mem_expire.mp htask').1, hid, hend⟩
    · next hholds =>
      constructor
      · intro h
        cases h
      · rintro ⟨task, htask, hid, -⟩
        exact absurd (holds_iff.mpr ⟨task, htask, hid⟩) hholds

theorem Agrees.showsSettled_changed (h : m.Agrees) (task : TaskView) (now : Instant)
    (id : String) : (m.updated (.changed task) now).showsSettled id =
      if id = task.id then task.status.isTerminal else m.showsSettled id := by
  rw [Bool.eq_iff_iff, showsSettled_iff]
  simp only [updated, mem_replaceTask h.ids]
  split
  · next hid =>
    constructor
    · rintro ⟨held, rfl | ⟨-, hne⟩, hheld, hend⟩
      · exact hend
      · exact absurd (hheld.trans hid) hne
    · intro hend
      exact ⟨task, .inl rfl, hid.symm, hend⟩
  · next hid =>
    rw [showsSettled_iff]
    constructor
    · rintro ⟨held, rfl | ⟨hmem, -⟩, hheld, hend⟩
      · exact absurd hheld.symm hid
      · exact ⟨held, hmem, hheld, hend⟩
    · rintro ⟨held, hmem, hheld, hend⟩
      exact ⟨held, .inr ⟨hmem, fun heq => hid (hheld.symm.trans heq)⟩, hheld, hend⟩

/-- The times after an update: those there were, and now. -/
theorem Agrees.lookup_updated (h : m.Agrees) (update : TaskUpdate) (now : Instant)
    (id : String) : (m.updated update now).settledAt.lookup id =
      if (m.updated update now).showsSettled id then some (m.settling now id) else none := by
  cases update with
  | snapshot snapshot =>
    obtain ⟨htasks, hlookup⟩ := applySnapshot_spec m now snapshot [] ∅
    rw [List.nil_append] at htasks
    simp only [updated, showsSettled, htasks, hlookup]
    rfl
  | changed task =>
    rw [h.showsSettled_changed]
    simp only [updated]
    have hkeep : m.settledAt.lookup id =
        if m.showsSettled id then some (m.settling now id) else none := by
      rw [← h.keys, settling]
      cases m.settledAt.lookup id <;> rfl
    by_cases hid : id = task.id
    · subst hid
      rw [if_pos rfl, settling]
      cases task.status.isTerminal with
      | false => simp [AList.lookup_erase]
      | true =>
        cases hsince : m.settledAt.lookup task.id with
        | none => simp [AList.lookup_insert]
        | some since => simp [hsince]
    · rw [if_neg hid, ← hkeep]
      cases task.status.isTerminal with
      | false => simp [hid]
      | true => cases m.settledAt.lookup task.id <;> simp [hid]

theorem Agrees.updated (h : m.Agrees) (hdistinct : update.Distinct) (now : Instant) :
    (m.updated update now).Agrees where
  ids := by
    cases update with
    | snapshot snapshot =>
      rw [updated_snapshot_tasks]
      exact hdistinct.sublist (List.filter_sublist.map _)
    | changed task => exact nodup_replaceTask h.ids
  keys id := by
    rw [h.lookup_updated]
    cases (m.updated update now).showsSettled id <;> rfl

theorem Agrees.apply (h : m.Agrees) (hdistinct : update.Distinct) (now : Instant) :
    (m.apply update now).Agrees := by
  rw [apply_eq]
  exact ((h.updated hdistinct now).sorted).expire now

/-- The times after `apply`. -/
theorem Agrees.lookup_apply (h : m.Agrees) (hdistinct : update.Distinct) (now : Instant)
    (id : String) : (m.apply update now).settledAt.lookup id =
      if (m.apply update now).showsSettled id then some (m.settling now id) else none := by
  have hkeys := (h.apply hdistinct now).keys id
  split
  · next hshows =>
    rw [hshows, apply_eq, lookup_expire] at hkeys
    rw [apply_eq, lookup_expire]
    split at hkeys
    · next hholds =>
      rw [if_pos hholds]
      rw [show (m.updated update now).sorted.settledAt = (m.updated update now).settledAt from rfl,
        h.lookup_updated] at hkeys ⊢
      split at hkeys
      · next hsettled => rw [if_pos hsettled]
      · cases hkeys
    · cases hkeys
  · next hshows =>
    rw [Bool.not_eq_true] at hshows
    rwa [hshows, Option.isSome_eq_false_iff, Option.isNone_iff_eq_none] at hkeys

/-! ### How a task goes -/

theorem goes_expire (hholds : m.holds id) (hgone : ¬ (m.expire now).holds id) :
    ∃ since, m.settledAt.lookup id = some since ∧ settledLinger ≤ now - since := by
  obtain ⟨task, htask, rfl⟩ := holds_iff.mp hholds
  by_contra hnone
  refine hgone (holds_iff.mpr ⟨task, mem_expire.mpr ⟨htask, fun since hsince => ?_⟩, rfl⟩)
  by_contra hle
  exact hnone ⟨since, hsince, Nat.le_of_not_lt hle⟩

theorem lingers_expire (h : (m.expire now).settledAt.lookup id = some since) :
    now - since < settledLinger := by
  rw [lookup_expire] at h
  split at h
  · next hholds =>
    obtain ⟨task, htask, rfl⟩ := holds_iff.mp hholds
    exact (mem_expire.mp htask).2 since h
  · cases h

/-- An update leaves out no task but the ones a snapshot omits. -/
theorem Agrees.holds_updated (h : m.Agrees) (update : TaskUpdate) (hholds : m.holds id)
    (now : Instant) :
    (m.updated update now).holds id ∨
      ∃ snapshot, update = .snapshot snapshot ∧ id ∉ snapshot.map TaskView.id := by
  obtain ⟨held, hheld, rfl⟩ := holds_iff.mp hholds
  cases update with
  | changed task =>
    left
    refine holds_iff.mpr ?_
    by_cases hid : held.id = task.id
    · exact ⟨task, (mem_replaceTask h.ids).mpr (.inl rfl), hid.symm⟩
    · exact ⟨held, (mem_replaceTask h.ids).mpr (.inr ⟨hheld, hid⟩), rfl⟩
  | snapshot snapshot =>
    by_cases hin : held.id ∈ snapshot.map TaskView.id
    · left
      obtain ⟨task, htask, hid⟩ := List.mem_map.mp hin
      have htakes : m.takes task := by
        by_cases hend : task.status.isTerminal
        · exact (h.takes_iff hend).mpr (holds_iff.mpr ⟨held, hheld, hid.symm⟩)
        · rw [takes, if_neg hend]
      refine holds_iff.mpr ⟨task, ?_, hid⟩
      rw [updated_snapshot_tasks]
      exact List.mem_filter.mpr ⟨htask, htakes⟩
    · exact .inr ⟨snapshot, rfl, hin⟩

theorem Agrees.goes_apply (h : m.Agrees) (hholds : m.holds id)
    (hgone : ¬ (m.apply update now).holds id) :
    (∃ snapshot, update = .snapshot snapshot ∧ id ∉ snapshot.map TaskView.id) ∨
      ∃ since, m.settledAt.lookup id = some since ∧ settledLinger ≤ now - since := by
  rcases h.holds_updated update hholds now with hheld | homitted
  · right
    have hsorted : (m.updated update now).sorted.holds id := by
      obtain ⟨task, htask, hid⟩ := holds_iff.mp hheld
      exact holds_iff.mpr ⟨task, mem_sorted.mpr htask, hid⟩
    rw [apply_eq] at hgone
    obtain ⟨since, hsince, hle⟩ := goes_expire hsorted hgone
    rw [show (m.updated update now).sorted.settledAt = (m.updated update now).settledAt from rfl,
      h.lookup_updated] at hsince
    split at hsince
    · refine ⟨since, ?_, hle⟩
      -- A task that settles now does not go now.
      rw [settling] at hsince
      cases hlookup : m.settledAt.lookup id with
      | some since' => rwa [hlookup] at hsince
      | none =>
        rw [hlookup] at hsince
        obtain rfl : now = since := Option.some.inj hsince
        rw [Nat.sub_self] at hle
        exact absurd hle (by decide)
    · cases hsince
  · exact .inl homitted

end Machine

/-! ### The history of a machine's calls -/

inductive Call
  | apply (update : TaskUpdate)
  | expire
deriving DecidableEq, Repr

namespace Call

def run (m : Machine) (now : Instant) : Call → Machine
  | apply update => m.apply update now
  | expire => m.expire now

def Distinct : Call → Prop
  | apply update => update.Distinct
  | expire => True

/-- The call is a snapshot that leaves the task out. -/
def omits : Call → String → Bool
  | apply (.snapshot snapshot), id => id ∉ snapshot.map TaskView.id
  | apply (.changed _), _ | expire, _ => false

end Call

/-- A machine, and what its calls came to. -/
structure Pane where
  machine : Machine
  /-- When the last call was. -/
  now : Instant
  /-- Since when each task has been held as settled without a break. -/
  since : String → Option Instant
  /-- When each task was first held as settled. -/
  first : String → Option Instant
  /-- Whether each task was held as settled, and then dropped as one that has lingered. -/
  dropped : String → Bool

namespace Pane

def new (label : String) (ssh : Option String) : Pane :=
  ⟨App.machineOf label ssh, 0, fun _ => none, fun _ => none, fun _ => false⟩

/-- One call, not before the last. -/
def step (p : Pane) : Instant × Call → Option Pane
  | (now, call) =>
    if now < p.now then none
    else
      let machine := call.run p.machine now
      some
        { machine
          now
          since id :=
            if machine.showsSettled id then
              if p.machine.showsSettled id then p.since id else some now
            else none
          first id := (p.first id).or (if machine.showsSettled id then some now else none)
          dropped id :=
            p.dropped id || p.machine.showsSettled id && !machine.holds id && !call.omits id }

/-- The calls a statement is about. -/
def Distinct (_ : Pane) (a : Instant × Call) : Prop := a.2.Distinct

structure Lingers (p : Pane) : Prop where
  agrees : p.machine.Agrees
  times : ∀ id, p.machine.settledAt.lookup id = p.since id
  recent : ∀ id t, p.since id = some t → p.now - t < settledLinger
  started : ∀ id t, p.since id = some t → ∃ t₀ ≤ t, p.first id = some t₀
  past : ∀ id t₀, p.first id = some t₀ → t₀ ≤ p.now
  gone : ∀ id, p.dropped id → ∃ t₀, p.first id = some t₀ ∧ t₀ + settledLinger ≤ p.now

variable {p p' : Pane} {call : Call} {label : String} {ssh : Option String}

theorem Lingers.new (label : String) (ssh : Option String) : (new label ssh).Lingers where
  agrees := ⟨List.nodup_nil, fun _ => rfl⟩
  times _ := rfl
  recent _ _ h := by cases h
  started _ _ h := by cases h
  past _ _ h := by cases h
  gone _ h := by cases h

theorem step_eq_some : p.step (now, call) = some p' ↔ p.now ≤ now ∧
    p' =
      { machine := call.run p.machine now
        now
        since id :=
          if (call.run p.machine now).showsSettled id then
            if p.machine.showsSettled id then p.since id else some now
          else none
        first id :=
          (p.first id).or (if (call.run p.machine now).showsSettled id then some now else none)
        dropped id :=
          p.dropped id || p.machine.showsSettled id && !(call.run p.machine now).holds id &&
            !call.omits id } := by
  rw [step]
  split
  · next hlt =>
    constructor
    · intro h
      cases h
    · rintro ⟨hle, -⟩
      exact absurd hlt (Nat.not_lt.mpr hle)
  · next hle => rw [Option.some.injEq, eq_comm, and_iff_right (Nat.le_of_not_lt hle)]

/-- How a task goes with a call. -/
theorem Lingers.goes (h : p.Lingers) (hstep : p.step (now, call) = some p')
    (hholds : p.machine.holds id) (hgone : ¬ p'.machine.holds id) :
    call.omits id ∨ ∃ t, p.since id = some t ∧ settledLinger ≤ now - t := by
  obtain ⟨-, rfl⟩ := step_eq_some.mp hstep
  simp only [← h.times]
  cases call with
  | expire => exact .inr (Machine.goes_expire hholds hgone)
  | apply update =>
    refine (h.agrees.goes_apply hholds hgone).imp_left ?_
    rintro ⟨snapshot, rfl, hnot⟩
    exact decide_eq_true hnot

theorem Lingers.agrees_step (h : p.Lingers) (hdistinct : call.Distinct) (now : Instant) :
    (call.run p.machine now).Agrees := by
  cases call with
  | expire => exact h.agrees.expire now
  | apply update => exact h.agrees.apply hdistinct now

theorem Lingers.times_step (h : p.Lingers) (hdistinct : call.Distinct) (now : Instant)
    (id : String) : (call.run p.machine now).settledAt.lookup id =
      if (call.run p.machine now).showsSettled id then
        if p.machine.showsSettled id then p.since id else some now
      else none := by
  have hkeys := h.agrees.keys id
  cases call with
  | expire =>
    have hkeys' := (h.agrees.expire now).keys id
    by_cases hshows : (p.machine.expire now).showsSettled id
    · have hbefore : p.machine.showsSettled id := by
        obtain ⟨task, htask, hid, hend⟩ := Machine.showsSettled_iff.mp hshows
        exact Machine.showsSettled_iff.mpr ⟨task, (Machine.mem_expire.mp htask).1, hid, hend⟩
      rw [Call.run, if_pos hshows, if_pos hbefore, Machine.lookup_expire,
        if_pos (Machine.holds_of_showsSettled hshows), h.times]
    · rw [Call.run, if_neg hshows]
      rw [Bool.not_eq_true] at hshows
      rwa [hshows, Option.isSome_eq_false_iff, Option.isNone_iff_eq_none] at hkeys'
  | apply update =>
    rw [Call.run, h.agrees.lookup_apply hdistinct, ← hkeys, Machine.settling, h.times]
    cases p.since id <;> rfl

theorem recent_run (m : Machine) (now : Instant) (call : Call) {t : Instant}
    (h : (call.run m now).settledAt.lookup id = some t) : now - t < settledLinger := by
  cases call with
  | expire => exact Machine.lingers_expire h
  | apply update =>
    rw [Call.run, Machine.apply_eq] at h
    exact Machine.lingers_expire h

theorem Lingers.step (h : p.Lingers) (hdistinct : call.Distinct)
    (hstep : p.step (now, call) = some p') : p'.Lingers := by
  have hgoes (id : String) (hholds : p.machine.holds id) := h.goes hstep hholds
  obtain ⟨hle, rfl⟩ := step_eq_some.mp hstep
  have htimes := h.times_step hdistinct now
  refine ⟨h.agrees_step hdistinct now, htimes, ?_, ?_, ?_, ?_⟩
  · intro id t ht
    exact recent_run p.machine now call ((htimes id).trans ht)
  · intro id t ht
    simp only at ht ⊢
    split at ht
    · next hshows =>
      split at ht
      · obtain ⟨t₀, hle₀, hfirst⟩ := h.started id t ht
        exact ⟨t₀, hle₀, by simp [hfirst]⟩
      · obtain rfl : now = t := Option.some.inj ht
        cases hfirst : p.first id with
        | none => exact ⟨now, Nat.le_refl _, by simp [hshows]⟩
        | some t₀ => exact ⟨t₀, Nat.le_trans (h.past id t₀ hfirst) hle, by simp⟩
    · cases ht
  · intro id t₀ ht₀
    simp only at ht₀ ⊢
    cases hfirst : p.first id with
    | some t₁ =>
      rw [hfirst, Option.some_or, Option.some.injEq] at ht₀
      exact ht₀ ▸ Nat.le_trans (h.past id t₁ hfirst) hle
    | none =>
      rw [hfirst, Option.none_or] at ht₀
      split at ht₀
      · exact Nat.le_of_eq (Option.some.inj ht₀).symm
      · cases ht₀
  · intro id hdropped
    simp only [Bool.or_eq_true, Bool.and_eq_true, Bool.not_eq_true'] at hdropped
    rcases hdropped with hold | ⟨⟨hshows, hgone⟩, homits⟩
    · obtain ⟨t₀, hfirst, hover⟩ := h.gone id hold
      exact ⟨t₀, by simp [hfirst], Nat.le_trans hover hle⟩
    · rcases hgoes id (Machine.holds_of_showsSettled hshows) (by simp [hgone]) with homit | hover
      · rw [homits] at homit
        cases homit
      · obtain ⟨t, hsince, hlinger⟩ := hover
        obtain ⟨t₀, hle₀, hfirst⟩ := h.started id t hsince
        have hpos : 0 < settledLinger := by decide
        have hover : settledLinger + t ≤ now := (Nat.le_sub_iff_add_le
          (Nat.le_of_lt (Nat.lt_of_sub_pos (Nat.lt_of_lt_of_le hpos hlinger)))).mp hlinger
        refine ⟨t₀, by simp [hfirst], ?_⟩
        rw [Nat.add_comm]
        exact Nat.le_trans (Nat.add_le_add_left hle₀ _) hover

theorem Lingers.reached (h : Steps Pane.step Distinct (Pane.new label ssh) p) : p.Lingers :=
  h.invariant (fun _ ⟨_, _⟩ _ hp hdistinct hstep => hp.step hdistinct hstep)
    (.new label ssh)

/-- **A settled task lingers its while and no longer.**  After each call: the tasks are
told apart by their ids; those that have settled are those with a time; each of them has
been held as settled for less than its while; and a task goes only with a snapshot that
omits it, or once it has been held as settled for its while. -/
theorem settled_tasks_linger (h : Steps step Distinct (new label ssh) p) :
    (p.machine.tasks.map TaskView.id).Nodup ∧
    (∀ id, (p.machine.settledAt.lookup id).isSome = p.machine.showsSettled id) ∧
    (∀ task ∈ p.machine.tasks, task.status.isTerminal →
      ∃ t, p.since task.id = some t ∧ p.now - t < settledLinger) ∧
    ∀ now call p', call.Distinct → p.step (now, call) = some p' →
      ∀ task ∈ p.machine.tasks, ¬ p'.machine.holds task.id →
        call.omits task.id ∨ task.status.isTerminal ∧
          ∃ t, p.since task.id = some t ∧ settledLinger ≤ now - t := by
  have hp := Lingers.reached h
  have hterminal {task : TaskView} (htask : task ∈ p.machine.tasks) :
      task.status.isTerminal = (p.since task.id).isSome := by
    rw [← hp.times]
    exact hp.agrees.isTerminal htask
  refine ⟨hp.agrees.ids, hp.agrees.keys, fun task htask hend => ?_, ?_⟩
  · rw [hterminal htask, Option.isSome_iff_exists] at hend
    obtain ⟨t, hsince⟩ := hend
    exact ⟨t, hsince, hp.recent task.id t hsince⟩
  · intro now call p' _ hstep task htask hgone
    have hholds := Machine.holds_iff.mpr ⟨task, htask, rfl⟩
    refine (hp.goes hstep hholds hgone).imp_right fun ⟨t, hsince, hover⟩ => ⟨?_, t, hsince, hover⟩
    rw [hterminal htask, hsince]
    rfl

/-! ### A task that is shown settled -/

/-- A task shown settled by a change, and not held so, is held from now on: whether it
has never been seen, or has been dropped. -/
theorem Lingers.put_back (h : p.Lingers) (task : TaskView) (hend : task.status.isTerminal)
    (hgone : ¬ p.machine.showsSettled task.id) (hle : p.now ≤ now) :
    ∃ p', p.step (now, .apply (.changed task)) = some p' ∧
      p'.machine.showsSettled task.id ∧ p'.since task.id = some now ∧
      p'.first task.id = (p.first task.id).or (some now) := by
  have hnone : p.machine.settledAt.lookup task.id = none := by
    rw [← Option.isNone_iff_eq_none, ← Option.isSome_eq_false_iff, h.agrees.keys]
    simpa using hgone
  have hupdated := h.agrees.showsSettled_changed task now task.id
  rw [if_pos rfl, hend] at hupdated
  have hshows : (p.machine.apply (.changed task) now).showsSettled task.id := by
    obtain ⟨held, hheld, hid, hterm⟩ := Machine.showsSettled_iff.mp hupdated
    rw [Machine.apply_eq]
    refine Machine.showsSettled_iff.mpr
      ⟨held, Machine.mem_expire.mpr ⟨Machine.mem_sorted.mpr hheld, fun since hsince => ?_⟩,
        hid, hterm⟩
    rw [show (p.machine.updated (.changed task) now).sorted.settledAt =
      (p.machine.updated (.changed task) now).settledAt from rfl, hid,
      h.agrees.lookup_updated, if_pos hupdated, Machine.settling, hnone] at hsince
    obtain rfl : now = since := Option.some.inj hsince
    rw [Nat.sub_self]
    decide
  refine ⟨_, step_eq_some.mpr ⟨hle, rfl⟩, hshows, ?_, ?_⟩
  · show (if _ then if _ then _ else some now else none) = some now
    rw [Call.run, if_pos hshows, if_neg hgone]
  · show (p.first task.id).or (if _ then some now else none) = _
    rw [Call.run, if_pos hshows]

/-- A task that has lingered its while goes. -/
theorem Lingers.drops (h : p.Lingers) {t : Instant} (hsince : p.since id = some t)
    (hover : settledLinger ≤ now - t) : ¬ (p.machine.expire now).holds id := by
  intro hholds
  obtain ⟨task, htask, rfl⟩ := Machine.holds_iff.mp hholds
  have hstays := (Machine.mem_expire.mp htask).2 t ((h.times task.id).trans hsince)
  exact absurd hover (Nat.not_le_of_lt hstays)

theorem distinct_changed (p : Pane) (now : Instant) (task : TaskView) :
    Distinct p (now, .apply (.changed task)) := trivial

theorem distinct_expire (p : Pane) (now : Instant) : Distinct p (now, .expire) := trivial

/-- A task of that name, in that status. -/
def taskNamed (id : String) (status : TaskStatus) : TaskView where
  id := id
  parent := none
  kind := "demo.count"
  subject := []
  status := status
  phase := none
  measure := .indeterminate
  submittedUnixMillis := 0

/-- A task settles at once, and lingers its while. -/
theorem settled_at_once : ∃ p, Steps step Distinct (new "local" none) p ∧ p.now = 0 ∧
    p.machine.showsSettled "a" ∧ p.since "a" = some 0 ∧ p.first "a" = some 0 := by
  obtain ⟨p, hstep, hshows, hsince, hfirst⟩ := (Lingers.new "local" none).put_back
    (taskNamed "a" .succeeded) rfl (by decide) (Nat.le_refl 0)
  refine ⟨p, .single (distinct_changed ..) hstep, ?_, hshows, hsince, hfirst⟩
  obtain ⟨-, rfl⟩ := step_eq_some.mp hstep
  rfl

/-- It goes at the end of its while, and no earlier. -/
theorem settled_at_once_lingers : ∃ p p', Steps step Distinct (new "local" none) p ∧
    p.step (settledLinger, .expire) = some p' ∧ p.machine.showsSettled "a" ∧
    ¬ p'.machine.holds "a" ∧ (p.machine.tasks.map TaskView.id).Nodup := by
  obtain ⟨p, hsteps, hnow, hshows, hsince, -⟩ := settled_at_once
  have hstep : p.step (settledLinger, .expire) = some _ :=
    step_eq_some.mpr ⟨hnow ▸ Nat.zero_le _, rfl⟩
  exact ⟨p, _, hsteps, hstep, hshows, (Lingers.reached hsteps).drops hsince (Nat.le_refl _),
    (settled_tasks_linger hsteps).1⟩

/-- A task shown live is not held as settled. -/
theorem Lingers.shown_live (h : p.Lingers) (task : TaskView)
    (hlive : task.status.isTerminal = false) :
    ¬ (p.machine.apply (.changed task) now).showsSettled task.id := by
  intro hshows
  have hupdated := h.agrees.showsSettled_changed task now task.id
  rw [if_pos rfl, hlive] at hupdated
  rw [Machine.apply_eq] at hshows
  obtain ⟨held, hheld, hid, hend⟩ := Machine.showsSettled_iff.mp hshows
  have hmem := Machine.mem_sorted.mp (Machine.mem_expire.mp hheld).1
  have hsettled := Machine.showsSettled_iff.mpr ⟨held, hmem, hid, hend⟩
  rw [hupdated] at hsettled
  cases hsettled

/-- A task that is shown live has its time cleared: settled once more, it is held though
it was first held as settled its while ago. -/
theorem settled_again_lingers : ∃ p t, Steps step Distinct (new "local" none) p ∧
    p.machine.showsSettled "a" ∧ p.first "a" = some t ∧ settledLinger ≤ p.now - t := by
  obtain ⟨p, hsteps, hnow, hshows, hsince, hfirst⟩ := settled_at_once
  have hp := Lingers.reached hsteps
  have hstep : p.step (0, .apply (.changed (taskNamed "a" .running))) = some _ :=
    step_eq_some.mpr ⟨hnow ▸ Nat.le_refl 0, rfl⟩
  have hp' := hp.step (distinct_changed p 0 (taskNamed "a" .running)) hstep
  obtain ⟨q, hback, hshows', -, hfirst'⟩ := hp'.put_back (taskNamed "a" .succeeded) rfl
    (hp.shown_live (taskNamed "a" .running) rfl) (Nat.zero_le settledLinger)
  refine ⟨q, 0, .tail (.tail hsteps (distinct_changed ..) hstep) (distinct_changed ..) hback,
    hshows', ?_, ?_⟩
  · refine hfirst'.trans ?_
    show ((p.first "a").or _).or _ = some 0
    rw [hfirst]
    rfl
  · obtain ⟨-, rfl⟩ := step_eq_some.mp hback
    exact Nat.le_refl _

end Pane

end FilePeeker.Tui
