import FilePeeker.Task.Events

/-!
# The pace of a task's progress

`Pace` is what the registry keeps to send the progress of a task that has not settled:
the latest progress, and the throttle.  `Paced` lists what one step can do about the
pace of one task, the flushes that are to run for it, and the events that tell of its
progress or its end.  `Stepped.paces` says that every step of the runtime is one of these
for every task.
-/

namespace FilePeeker

variable {Output : Type} {config : Config} {s s' : State Output} {id x : TaskId}
  {d d' : Driver Output} {op : Op} {a : Action Output}

/-- The latest progress of a task, and how much of it has been sent. -/
structure Pace where
  progress : Progress
  throttle : Throttle
deriving DecidableEq, Repr

def Entry.pace (e : Entry) : Option Pace :=
  if e.live then some ⟨e.info.progress, e.throttle⟩ else none

/-- The pace of a task that is registered and has not settled. -/
def State.pace (s : State Output) (x : TaskId) : Option Pace :=
  (s.registry.entry x).bind Entry.pace

/-- When the flushes of a task are to run. -/
def State.timersOf (s : State Output) (x : TaskId) : List Instant :=
  (s.timers.filter fun t => t.1 = x).map Prod.snd

/-- Tells neither of progress nor of an end. -/
def TaskEvent.quiet : TaskEvent → Bool
  | submitted _ => true
  | stateChanged _ state => !state.isTerminal
  | progressed _ _ => false

/-- `report_progress` or `flush_progress` of the task. -/
def Action.paces (x : TaskId) : Action Output → Bool
  | progress id _ | flush id => id = x
  | _ => false

/-! ### Small facts -/

theorem Entry.pace_of_live {e : Entry} (h : e.live = true) :
    e.pace = some ⟨e.info.progress, e.throttle⟩ := if_pos h

theorem Entry.pace_of_settled {e : Entry} (h : e.live = false) : e.pace = none := by
  simp [Entry.pace, h]

theorem State.pace_of_entry (h : s'.registry.entry x = s.registry.entry x) :
    s'.pace x = s.pace x := by
  rw [State.pace, State.pace, h]

theorem State.pace_eq_some {q : Pace} : s.pace x = some q ↔
    ∃ e, s.registry.entry x = some e ∧ e.live = true ∧ q = ⟨e.info.progress, e.throttle⟩ := by
  rw [State.pace, Option.bind_eq_some_iff]
  constructor
  · rintro ⟨e, he, hpace⟩
    rw [Entry.pace] at hpace
    split at hpace
    · exact ⟨e, he, ‹_›, (Option.some.inj hpace).symm⟩
    · cases hpace
  · rintro ⟨e, he, hl, rfl⟩
    exact ⟨e, he, e.pace_of_live hl⟩

theorem State.live_of_pace_eq_none {e : Entry} (h : s.pace x = none)
    (he : s.registry.entry x = some e) : e.live = false := by
  rw [State.pace, he, Option.bind_some, Entry.pace] at h
  split at h
  · cases h
  · simpa using ‹¬ e.live = true›

theorem State.mem_timersOf {due : Instant} : due ∈ s.timersOf x ↔ (x, due) ∈ s.timers := by
  simp [State.timersOf]

theorem timersOf_erase_self {timers : List (TaskId × Instant)} {due : Instant} :
    ((timers.erase (x, due)).filter fun t => t.1 = x).map Prod.snd =
      ((timers.filter fun t => t.1 = x).map Prod.snd).erase due := by
  induction timers with
  | nil => rfl
  | cons t timers ih =>
    obtain ⟨y, time⟩ := t
    by_cases hx : y = x
    · subst hx
      by_cases ht : time = due
      · subst ht
        simp
      · rw [List.erase_cons_tail (by simpa using ht)]
        simp only [List.filter_cons, decide_true, if_true, List.map_cons]
        rw [List.erase_cons_tail (by simpa using ht), ih]
    · rw [List.erase_cons_tail (by simp [hx])]
      simpa [List.filter_cons, hx] using ih

theorem timersOf_erase_other {timers : List (TaskId × Instant)} {due : Instant} (hx : x ≠ id) :
    (timers.erase (id, due)).filter (fun t => t.1 = x) = timers.filter fun t => t.1 = x := by
  induction timers with
  | nil => rfl
  | cons t timers ih =>
    by_cases ht : t = (id, due)
    · subst ht
      rw [List.erase_cons_head, List.filter_cons_of_neg (by simpa using Ne.symm hx)]
    · rw [List.erase_cons_tail (by simpa using ht), List.filter_cons, List.filter_cons, ih]

/-! ### What a step does about one task's progress -/

/-- What a step does about the progress of one task, given the events it sends about
it. -/
inductive Paced (config : Config) (s : State Output) (a : Action Output) (s' : State Output)
    (x : TaskId) (events : List TaskEvent) : Prop
  | kept (hpace : s'.pace x = s.pace x) (hquiet : ∀ ev ∈ events, ev.quiet)
      (htimers : s'.timersOf x = s.timersOf x) (hother : a.paces x = false)
  /-- The task is not registered, or has settled, or is evicted. -/
  | gone (hpace' : s'.pace x = none) (hquiet : ∀ ev ∈ events, ev.quiet)
      (htimers : s'.timersOf x ⊆ s.timersOf x)
      (hother : s.pace x = none ∨ a.paces x = false)
  | started (hfresh : s.drivers x = none) (hpace' : s'.pace x = some ⟨.none, .default⟩)
      (hquiet : ∀ ev ∈ events, ev.quiet) (htimers : s'.timersOf x = s.timersOf x)
      (hother : a.paces x = false)
  | sent {q : Pace} {p : Progress} (ha : a = .progress x p) (hpace : s.pace x = some q)
      (hdue : q.throttle.due config.progressInterval s.now = true)
      (hpace' : s'.pace x =
        some ⟨p, { q.throttle with lastSent := some s.now, pending := false }⟩)
      (hevents : events = [.progressed x p]) (htimers : s'.timersOf x = s.timersOf x)
      (hsettles : s'.settles = s.settles)
  | held {q : Pace} {p : Progress} (ha : a = .progress x p) (hpace : s.pace x = some q)
      (hdue : q.throttle.due config.progressInterval s.now = false)
      (hpace' : s'.pace x = some ⟨p, { q.throttle with pending := true, flushScheduled := true }⟩)
      (hevents : events = [])
      (htimers : s'.timersOf x = s.timersOf x ++ if q.throttle.flushScheduled then []
        else [s.now + q.throttle.wait config.progressInterval s.now])
  | flushed {q : Pace} {due : Instant} (ha : a = .flush x) (hpace : s.pace x = some q)
      (htimer : due ∈ s.timersOf x) (hover : due ≤ s.now)
      (htimers : s'.timersOf x = (s.timersOf x).erase due)
      (hpace' : s'.pace x = some ⟨q.progress, if q.throttle.pending then ⟨some s.now, false, false⟩
        else { q.throttle with flushScheduled := false }⟩)
      (hevents : events = if q.throttle.pending then [.progressed x q.progress] else [])
      (hsettles : s'.settles = s.settles)
  | settled {q : Pace} {st : TaskState} (ha : a = .drive x) (hpace : s.pace x = some q)
      (hst : st.isTerminal = true) (hpace' : s'.pace x = none)
      (hevents : events =
        (if q.throttle.pending then [.progressed x q.progress] else []) ++ [.stateChanged x st])
      (hsettles : s'.settles = s.settles ++ [x])

/-- A lock section that writes a state into its task's entry leaves every pace alone. -/
theorem pace_setState {state : TaskState} (hstate : state.isTerminal = false)
    (hentry : ∀ x, s'.registry.entry x =
      if x = id then (s.registry.entry id).map (·.setState state) else s.registry.entry x)
    (hlive : ∀ e, s.registry.entry id = some e → e.live = true) (x : TaskId) :
    s'.pace x = s.pace x := by
  rw [State.pace, State.pace, hentry]
  split
  · next hx =>
    subst hx
    cases he : s.registry.entry x with
    | none => rfl
    | some e =>
      have hl : (e.setState state).live = true := by simp [Entry.live, Entry.setState, hstate]
      simp only [Option.map_some, Option.bind_some]
      rw [Entry.pace_of_live hl, Entry.pace_of_live (hlive e he)]
      rfl
  · rfl

theorem settle_pace {e : Entry} {state : TaskState} {now : SystemTime}
    (he : s.registry.entry id = some e) (hstate : state.isTerminal = true)
    (hreg : s'.registry = (s.registry.settle config id state now).1) (x : TaskId) :
    s'.pace x = none ∨ x ≠ id ∧ s'.pace x = s.pace x := by
  rcases s.registry.settle_shrinks config id he state now x with hgone | hmark
  · left
    rw [State.pace, hreg, Registry.entry, hgone]
    rfl
  · rw [Registry.mark_lookup] at hmark
    have hentry : s'.registry.entry x = _ := hreg ▸ hmark
    by_cases hx : x = id
    · left
      have hl : (e.settle state now).live = false := by simp [Entry.live, Entry.settle, hstate]
      rw [State.pace, hentry, if_pos hx]
      split
      · exact Entry.pace_of_settled (e := (e.settle state now).loseChild) hl
      · exact Entry.pace_of_settled hl
    · right
      refine ⟨hx, ?_⟩
      rw [State.pace, State.pace, hentry, if_neg hx]
      split
      · cases s.registry.entry x <;> rfl
      · rfl

/-- What a step says about the progress of each task. -/
def Paces (config : Config) (s : State Output) (a : Action Output) (s' : State Output) : Prop :=
  ∃ events, s'.events = s.events ++ events.map (Sent.mk s.now) ∧
    ∀ x, Paced config s a s' x (eventsOf x events)

/-- A step that touches no entry, sends nothing and spawns no flush. -/
theorem paces_quiet (hent : ∀ x, s'.registry.entry x = s.registry.entry x)
    (hev : s'.events = s.events) (htimers : s'.timers = s.timers)
    (hother : ∀ x, a.paces x = false) : Paces config s a s' := by
  refine ⟨[], by simpa using hev, fun x => .kept (State.pace_of_entry (hent x))
    (List.forall_mem_nil _) ?_ (hother x)⟩
  rw [State.timersOf, State.timersOf, htimers]

/-- A lock section that writes a state into the entry of its task, which has not
settled. -/
theorem paces_write (state : TaskState) {r : Registry × List TaskEvent}
    (hreg : s'.registry = r.1) (hev : s'.events = s.events ++ r.2.map (Sent.mk s.now))
    (htimers : s'.timers = s.timers) (hstate : state.isTerminal = false)
    (hentry : ∀ x, r.1.entry x =
      if x = id then (s.registry.entry id).map (·.setState state) else s.registry.entry x)
    (hlive : ∀ e, s.registry.entry id = some e → e.live = true)
    (hquiet : ∀ ev ∈ r.2, ev.quiet) (hother : ∀ x, a.paces x = false) :
    Paces config s a s' := by
  refine ⟨r.2, hev, fun x => .kept ?_ (fun ev hmem => hquiet ev (List.mem_of_mem_filter hmem)) ?_
    (hother x)⟩
  · exact pace_setState hstate (by rw [hreg]; exact hentry) hlive x
  · rw [State.timersOf, State.timersOf, htimers]

theorem quiet_setQueued (reg : Registry) (id : TaskId) (on : Option ResourceId) :
    ∀ ev ∈ (reg.setQueued id on).2, ev.quiet := by
  intro ev hev
  rw [Registry.setQueued] at hev
  split at hev
  · cases hev
  · split at hev
    · cases hev
    · rw [List.mem_singleton.mp hev]
      rfl

theorem quiet_setState (reg : Registry) (id : TaskId) {state : TaskState}
    (hstate : state.isTerminal = false) : ∀ ev ∈ (reg.setState id state).2, ev.quiet := by
  intro ev hev
  rw [Registry.setState] at hev
  split at hev
  · cases hev
  · rw [List.mem_singleton.mp hev]
    simp [TaskEvent.quiet, hstate]

theorem about_settle (config : Config) {reg : Registry} {e : Entry}
    (he : reg.entry id = some e) (state : TaskState) (now : SystemTime) :
    ∀ ev ∈ (reg.settle config id state now).2, taskOf ev = id := by
  rw [reg.settle_events config id he]
  intro ev hev
  rcases List.mem_append.mp hev with hev | hev
  · split at hev
    · rw [List.mem_singleton.mp hev]
      rfl
    · cases hev
  · rw [List.mem_singleton.mp hev]
    rfl

/-- The lock section of `settle`, run for a task that has not settled. -/
theorem paces_settle {state : TaskState} {now : SystemTime}
    (hreg : s'.registry = (s.registry.settle config id state now).1)
    (hev : s'.events =
      s.events ++ (s.registry.settle config id state now).2.map (Sent.mk s.now))
    (htimers : s'.timers = s.timers) (hsettles : s'.settles = s.settles ++ [id])
    (hstate : state.isTerminal = true)
    (hlive : ∀ e, s.registry.entry id = some e → e.live = true) :
    Paces config s (.drive id) s' := by
  have htimersOf (x : TaskId) : s'.timersOf x = s.timersOf x := by
    rw [State.timersOf, State.timersOf, htimers]
  cases he : s.registry.entry id with
  | none =>
    rw [Registry.settle_none _ _ _ he] at hreg hev
    refine ⟨[], hev, fun x => .kept (State.pace_of_entry ?_) (List.forall_mem_nil _)
      (htimersOf x) rfl⟩
    rw [hreg]
  | some e =>
    have hpaces := settle_pace he hstate hreg
    have habout := about_settle config he state now
    refine ⟨_, hev, fun x => ?_⟩
    by_cases hx : x = id
    · subst hx
      have hgone : s'.pace x = none := (hpaces x).resolve_right fun h => h.1 rfl
      have hpace : s.pace x = some ⟨e.info.progress, e.throttle⟩ :=
        State.pace_eq_some.mpr ⟨e, he, hlive e he, rfl⟩
      have hevents := s.registry.settle_events config x he state now
      rw [eventsOf_self habout]
      exact .settled rfl hpace hstate hgone hevents hsettles
    · rw [eventsOf_other hx habout]
      rcases hpaces x with hgone | ⟨-, hsame⟩
      · exact .gone hgone (List.forall_mem_nil _) (htimersOf x ▸ List.Subset.refl _)
          (.inr rfl)
      · exact .kept hsame (List.forall_mem_nil _) (htimersOf x) rfl

/-- **A driver's move leaves the pace of every task alone, or settles its own.** -/
theorem Turn.paces (h : Turn config s id d op d') (hwf : Wf config s)
    (hd : s.drivers id = some d) :
    Paces config s (.drive id) ((s.perform config id d op).setDriver id d') := by
  have hlive (hpc : d.pc.settled = none) : ∀ e, s.registry.entry id = some e → e.live = true := by
    intro e he
    rw [(hwf.entryOf he hd).live, hpc]
    rfl
  cases h with
  | @admitQueue on hpc =>
    exact paces_write (.queued on) (r := s.registry.setQueued id on) rfl rfl rfl rfl
      (fun x => s.registry.setQueued_entry id x on) (hlive (by rw [hpc]; rfl))
      (quiet_setQueued _ _ _) fun _ => rfl
  | setRunning hpc =>
    exact paces_write .running (r := s.registry.setState id .running) rfl rfl rfl rfl
      (fun x => s.registry.setState_entry id x .running) (hlive (by rw [hpc]; rfl))
      (quiet_setState _ _ rfl) fun _ => rfl
  | setCancelling hpc =>
    exact paces_write .cancelling (r := s.registry.setState id .cancelling) rfl rfl rfl
      rfl (fun x => s.registry.setState_entry id x .cancelling) (hlive (by rw [hpc]; rfl))
      (quiet_setState _ _ rfl) fun _ => rfl
  | @settle outcome e hpc he =>
    exact paces_settle rfl rfl rfl rfl (stateOfOutcome_isTerminal outcome)
      (hlive (by rw [hpc]; rfl))
  | @settleGone outcome hpc he =>
    exact paces_settle rfl rfl rfl rfl (stateOfOutcome_isTerminal outcome)
      (hlive (by rw [hpc]; rfl))
  | _ => exact paces_quiet (fun _ => rfl) rfl rfl fun _ => rfl

/-- A task that is started has reported nothing; the others are as they were. -/
theorem paces_start {kind : TaskKind} {parent : Option TaskId} {token : CancelToken TaskId}
    {submitted : SystemTime} (hfresh : s.drivers id = none)
    (hother : ∀ x, a.paces x = false) :
    Paces config s a (s.started config id kind parent token submitted) := by
  refine ⟨[.submitted (startInfo id parent kind.descriptor submitted)], rfl, fun x => ?_⟩
  have hquiet : ∀ ev ∈ eventsOf x [.submitted (startInfo id parent kind.descriptor submitted)],
      ev.quiet := by
    intro ev hev
    rw [List.mem_singleton.mp (List.mem_of_mem_filter hev)]
    rfl
  have hentry : (s.started config id kind parent token submitted).registry.entry x = _ :=
    s.registry.start_entry config id x kind parent token submitted
  by_cases hx : x = id
  · subst hx
    rw [if_pos rfl] at hentry
    refine .started hfresh ?_ hquiet rfl (hother x)
    rw [State.pace, hentry]
    rfl
  · rw [if_neg hx] at hentry
    refine .kept ?_ hquiet rfl (hother x)
    rw [State.pace, State.pace, hentry]
    split
    · cases s.registry.entry x <;> rfl
    · rfl

/-- What the lock section of `report_progress` does for a task that has not settled. -/
theorem reportProgress_live {e : Entry} {now : Instant} (he : s.registry.entry id = some e)
    (hlive : e.live = true) (p : Progress) :
    (s.registry.reportProgress config now id p).2 =
      if e.throttle.due config.progressInterval now then ([.progressed id p], none)
      else ([], if e.throttle.flushScheduled then none
        else some (now + e.throttle.wait config.progressInterval now)) := by
  have hstate : e.info.state.isTerminal = false := by simpa [Entry.live] using hlive
  simp only [Registry.reportProgress, he, hstate, Bool.false_eq_true, if_false]
  split
  · rfl
  · split <;> rfl

/-- And for one that has, or is not registered. -/
theorem reportProgress_over {now : Instant} (hpace : s.pace id = none) (p : Progress) :
    s.registry.reportProgress config now id p = (s.registry, [], none) := by
  rw [Registry.reportProgress]
  cases he : s.registry.entry id with
  | none => rfl
  | some e =>
    have hstate : e.info.state.isTerminal = true := by
      simpa [Entry.live] using State.live_of_pace_eq_none hpace he
    simp only [hstate, if_true]

/-- The lock section of `report_progress`. -/
theorem paces_report {p : Progress} {events : List TaskEvent} {timer : Option Instant}
    (hsection : (s.registry.reportProgress config s.now id p).2 = (events, timer))
    (hreg : s'.registry = (s.registry.reportProgress config s.now id p).1)
    (hev : s'.events = s.events ++ events.map (Sent.mk s.now))
    (htimers : s'.timers = s.timers ++ (timer.map (id, ·)).toList)
    (hsettles : s'.settles = s.settles) : Paces config s (.progress id p) s' := by
  have hentry (x : TaskId) : s'.registry.entry x = _ :=
    hreg ▸ s.registry.reportProgress_entry config id x s.now p
  refine ⟨events, hev, fun x => ?_⟩
  cases hpace : s.pace id with
  | none =>
    rw [reportProgress_over hpace] at hsection hreg
    obtain ⟨rfl, rfl⟩ := Prod.mk.inj hsection
    have hsame : s'.pace x = s.pace x := State.pace_of_entry (by rw [hreg])
    have htimersOf : s'.timersOf x = s.timersOf x := by
      rw [State.timersOf, State.timersOf, htimers]
      simp
    by_cases hx : x = id
    · subst hx
      exact .gone (hsame.trans hpace) (List.forall_mem_nil _) (htimersOf ▸ List.Subset.refl _)
        (.inl hpace)
    · exact .kept hsame (List.forall_mem_nil _) htimersOf
        (decide_eq_false (Ne.symm hx))
  | some q =>
    obtain ⟨e, he, hlive, rfl⟩ := State.pace_eq_some.mp hpace
    rw [reportProgress_live he hlive] at hsection
    by_cases hx : x = id
    · subst hx
      have hpace' : s'.pace x = (e.report config.progressInterval s.now p).pace := by
        rw [State.pace, hentry, if_pos rfl, he, Option.map_some, if_pos hlive, Option.bind_some]
      rw [Entry.pace_of_live (e := e.report config.progressInterval s.now p) hlive,
        Entry.report] at hpace'
      cases hdue : e.throttle.due config.progressInterval s.now with
      | true =>
        rw [if_pos hdue] at hsection
        obtain ⟨rfl, rfl⟩ := Prod.mk.inj hsection
        rw [if_pos hdue] at hpace'
        refine .sent rfl hpace hdue hpace' (by simp [eventsOf, taskOf]) ?_ hsettles
        rw [State.timersOf, State.timersOf, htimers]
        simp
      | false =>
        rw [if_neg (by simp [hdue])] at hsection
        obtain ⟨rfl, rfl⟩ := Prod.mk.inj hsection
        rw [if_neg (by simp [hdue])] at hpace'
        refine .held rfl hpace hdue hpace' rfl ?_
        rw [State.timersOf, State.timersOf, htimers]
        cases e.throttle.flushScheduled <;> simp
    · have habout : ∀ ev ∈ events, taskOf ev = id := by
        intro ev hmem
        split at hsection
        · obtain ⟨rfl, -⟩ := Prod.mk.inj hsection
          rw [List.mem_singleton.mp hmem]
          rfl
        · obtain ⟨rfl, -⟩ := Prod.mk.inj hsection
          cases hmem
      rw [eventsOf_other hx habout]
      refine .kept (State.pace_of_entry (by rw [hentry, if_neg hx])) (List.forall_mem_nil _) ?_
        (decide_eq_false (Ne.symm hx))
      rw [State.timersOf, State.timersOf, htimers, List.filter_append, List.map_append]
      cases timer with
      | none => simp
      | some due => simp [Ne.symm hx]

/-- The lock section of `flush_progress`. -/
theorem paces_flush {due : Instant} (htimer : (id, due) ∈ s.timers) (hover : due ≤ s.now)
    (hreg : s'.registry = (s.registry.flushProgress s.now id).1)
    (hev : s'.events =
      s.events ++ (s.registry.flushProgress s.now id).2.map (Sent.mk s.now))
    (htimers : s'.timers = s.timers.erase (id, due)) (hsettles : s'.settles = s.settles) :
    Paces config s (.flush id) s' := by
  have hentry (x : TaskId) : s'.registry.entry x = _ :=
    hreg ▸ s.registry.flushProgress_entry id x s.now
  have habout : ∀ ev ∈ (s.registry.flushProgress s.now id).2, taskOf ev = id := by
    intro ev hmem
    rw [Registry.flushProgress] at hmem
    split at hmem
    · cases hmem
    · split at hmem
      · rw [List.mem_singleton.mp hmem]
        rfl
      · cases hmem
  refine ⟨_, hev, fun x => ?_⟩
  by_cases hx : x = id
  · subst hx
    rw [eventsOf_self habout]
    have htimersOf : s'.timersOf x = (s.timersOf x).erase due := by
      rw [State.timersOf, htimers]
      exact timersOf_erase_self
    cases hpace : s.pace x with
    | none =>
      have hfewer : s'.timersOf x ⊆ s.timersOf x := htimersOf ▸ List.erase_subset
      cases he : s.registry.entry x with
      | none =>
        refine .gone (by rw [State.pace, hentry, if_pos rfl, he]; rfl) ?_ hfewer (.inl hpace)
        simp [Registry.flushProgress, he]
      | some e =>
        have hlive := State.live_of_pace_eq_none hpace he
        refine .gone ?_ ?_ hfewer (.inl hpace)
        · rw [State.pace, hentry, if_pos rfl, he]
          exact Entry.pace_of_settled (e := e.flush s.now) hlive
        · simp [Registry.flushProgress, he, Entry.flushes, hlive]
    | some q =>
      obtain ⟨e, he, hlive, rfl⟩ := State.pace_eq_some.mp hpace
      refine .flushed rfl hpace (State.mem_timersOf.mpr htimer) hover htimersOf ?_ ?_ hsettles
      · rw [State.pace, hentry, if_pos rfl, he, Option.map_some, Option.bind_some,
          Entry.pace_of_live (e := e.flush s.now) hlive]
        simp [Entry.flush, Entry.flushes, hlive]
      · simp only [Registry.flushProgress, he, Entry.flushes, hlive, Bool.and_true]
  · rw [eventsOf_other hx habout]
    refine .kept (State.pace_of_entry (by rw [hentry, if_neg hx])) (List.forall_mem_nil _) ?_
      (decide_eq_false (Ne.symm hx))
    rw [State.timersOf, State.timersOf, htimers, timersOf_erase_other hx]

/-- **Every step does one of the listed things** about the progress of each task. -/
theorem Stepped.paces (h : Stepped config s a s') (hwf : Wf config s) :
    Paces config s a s' := by
  cases h with
  | start hfresh hsub hlin =>
    refine paces_start hfresh fun x => ?_
    cases hsub <;> rfl
  | drive hd hturn => exact hturn.paces hwf hd
  | progress => exact paces_report rfl rfl rfl rfl rfl
  | flush ht hdue => exact paces_flush ht hdue rfl rfl rfl rfl
  | nudge hd hn =>
    refine paces_quiet (fun _ => rfl) rfl rfl fun x => ?_
    cases hn <;> rfl
  | resources ha =>
    refine paces_quiet (fun _ => rfl) rfl rfl fun x => ?_
    cases a <;> first | rfl | cases ha
  | _ => exact paces_quiet (fun _ => rfl) rfl rfl fun _ => rfl

end FilePeeker
