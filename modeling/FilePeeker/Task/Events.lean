import FilePeeker.Task.Wf

/-!
# What observers are told

`Shown x v events v'` lists how what the registry shows of one task can change
in one step, and the events about it that go out with the change: it is
submitted, its state moves on, its progress is reported, held back or flushed,
it settles, or it is evicted.  `Stepped.shown` says that every step of the
runtime is one of these for every task, and that it sends nothing else.
-/

namespace FilePeeker

variable {Output : Type} {config : Config} {s s' : State Output} {id x : TaskId}
  {d d' : Driver Output} {op : Op} {a : Action Output}

/-- What is known of a task, and whether its latest progress is held back. -/
structure View where
  info : TaskInfo
  pending : Bool
deriving DecidableEq, Repr

def Entry.view (e : Entry) : View := ⟨e.info, e.throttle.pending⟩

def State.view (s : State Output) (x : TaskId) : Option View :=
  (s.registry.entry x).map Entry.view

/-- The events about one task. -/
def eventsOf (x : TaskId) (events : List TaskEvent) : List TaskEvent :=
  events.filter fun ev => taskOf ev = x

@[simp] theorem eventsOf_nil (x : TaskId) : eventsOf x [] = [] := rfl

theorem eventsOf_append (x : TaskId) (l m : List TaskEvent) :
    eventsOf x (l ++ m) = eventsOf x l ++ eventsOf x m := List.filter_append ..

/-- Past `Queued`, and not terminal: a body can be under way. -/
def TaskState.underWay : TaskState → Bool
  | running | cancelling => true
  | _ => false

/-- What a step is to one task: whether progress is reported from a body under
way, whether it is a step of another task, and the state the task ends in. -/
structure Cause where
  inBody : Prop
  other : Prop
  ends : TaskState → Prop

/-- How what is shown of one task changes, and what is sent about it. -/
inductive Shown (c : Cause) (x : TaskId) :
    Option View → List TaskEvent → Option View → Prop
  | same {v : Option View} : Shown c x v [] v
  | submitted {info : TaskInfo} (hid : info.id = x) (hs : info.state = .queued none) :
      Shown c x none [.submitted info] (some ⟨info, false⟩)
  | queued {info : TaskInfo} {p : Bool} {on on' : Option ResourceId}
      (hs : info.state = .queued on) (hne : on ≠ on') :
      Shown c x (some ⟨info, p⟩) [.stateChanged x (.queued on')]
        (some ⟨{ info with state := .queued on' }, p⟩)
  | running {info : TaskInfo} {p : Bool} {on : Option ResourceId} (hs : info.state = .queued on) :
      Shown c x (some ⟨info, p⟩) [.stateChanged x .running]
        (some ⟨{ info with state := .running }, p⟩)
  | cancelling {info : TaskInfo} {p : Bool} (hs : info.state = .running) :
      Shown c x (some ⟨info, p⟩) [.stateChanged x .cancelling]
        (some ⟨{ info with state := .cancelling }, p⟩)
  | progressed {info : TaskInfo} {p : Bool} {progress : Progress}
      (hl : info.state.isTerminal = false) (hin : c.inBody → info.state.underWay = true) :
      Shown c x (some ⟨info, p⟩) [.progressed x progress]
        (some ⟨{ info with progress := progress }, false⟩)
  | held {info : TaskInfo} {p : Bool} {progress : Progress}
      (hl : info.state.isTerminal = false) (hin : c.inBody → info.state.underWay = true) :
      Shown c x (some ⟨info, p⟩) [] (some ⟨{ info with progress := progress }, true⟩)
  | flushed {info : TaskInfo} (hl : info.state.isTerminal = false) :
      Shown c x (some ⟨info, true⟩) [.progressed x info.progress] (some ⟨info, false⟩)
  | settled {info : TaskInfo} {p : Bool} {st : TaskState} {now : SystemTime} {v' : Option View}
      (hl : info.state.isTerminal = false) (hst : st.isTerminal = true) (hends : c.ends st)
      (hq : info.state.underWay = false → st ≠ .succeeded)
      (hv : v' = none ∨ v' = some ⟨{ info with state := st, settled := some now }, false⟩) :
      Shown c x (some ⟨info, p⟩)
        ((if p then [.progressed x info.progress] else []) ++ [.stateChanged x st]) v'
  | evicted {v : View} (hother : c.other) : Shown c x (some v) [] none

/-- Where nothing is sent about a task that is shown, nothing changed, or
progress was held back. -/
theorem Shown.silent {c : Cause} {v : Option View} {w : View} (h : Shown c x v [] (some w)) :
    ∃ u, v = some u ∧
      (w = u ∨ w.pending = true ∧ { u.info with progress := w.info.progress } = w.info) := by
  generalize hevents : ([] : List TaskEvent) = events at h
  generalize hw : some w = v' at h
  cases h with
  | same => exact ⟨w, hw.symm, .inl rfl⟩
  | held =>
    cases hw
    exact ⟨_, rfl, .inr ⟨rfl, rfl⟩⟩
  | settled => simp at hevents
  | evicted => cases hw
  | _ => cases hevents

/-- No task is shown to go back. -/
theorem Shown.rank_le {c : Cause} {u w : View} {events : List TaskEvent}
    (h : Shown c x (some u) events (some w)) : u.info.state.rank ≤ w.info.state.rank := by
  generalize hw : some w = v' at h
  cases h with
  | same | progressed | held | flushed => cases hw; exact Nat.le_refl _
  | queued hs | running hs | cancelling hs => cases hw; simp [hs, TaskState.rank]
  | settled hl hst hends hq hv =>
    subst hw
    rcases hv with hv | hv
    · cases hv
    · cases hv
      rw [TaskState.isTerminal_iff_rank.mp hst]
      exact TaskState.rank_le _
  | evicted => cases hw

/-- An event about a task is among those sent. -/
theorem exists_sent_about {x : TaskId} {events : List TaskEvent} (now : Instant)
    (h : eventsOf x events ≠ []) :
    ∃ sent ∈ events.map (Sent.mk now), taskOf sent.event = x := by
  obtain ⟨ev, hev⟩ := List.exists_mem_of_ne_nil _ h
  obtain ⟨hmem, hx⟩ := List.mem_filter.mp hev
  exact ⟨_, List.mem_map_of_mem hmem, by simpa using hx⟩

/-- A rewrite of one entry, as the other tasks see it. -/
theorem State.view_of_entry {x : TaskId} (h : s'.registry.entry x = s.registry.entry x) :
    s'.view x = s.view x := by
  rw [State.view, State.view, h]

theorem eventsOf_other {x id : TaskId} {events : List TaskEvent} (hx : x ≠ id)
    (h : ∀ ev ∈ events, taskOf ev = id) : eventsOf x events = [] := by
  refine List.filter_eq_nil_iff.mpr fun ev hev => ?_
  rw [h ev hev]
  simpa using Ne.symm hx

theorem eventsOf_self {id : TaskId} {events : List TaskEvent}
    (h : ∀ ev ∈ events, taskOf ev = id) : eventsOf id events = events :=
  List.filter_eq_self.mpr fun ev hev => by simpa using h ev hev

/-- A lock section about one task: what it sends is about that task, the others
look as before, and that task as `Shown` says. -/
structure Section (c : Cause) (reg : Registry) (id : TaskId)
    (r : Registry × List TaskEvent) : Prop where
  about : ∀ ev ∈ r.2, taskOf ev = id
  others : ∀ x, x ≠ id → (r.1.entry x).map Entry.view = (reg.entry x).map Entry.view ∨
    r.1.entry x = none
  self : Shown c id ((reg.entry id).map Entry.view) r.2 ((r.1.entry id).map Entry.view)

/-- Sending a section's events shows every task what the section says. -/
theorem Section.shown {c : TaskId → Cause} {r : Registry × List TaskEvent}
    (h : Section (c id) s.registry id r) (hreg : s'.registry = r.1) (x : TaskId)
    (hother : x ≠ id → (c x).other) :
    Shown (c x) x (s.view x) (eventsOf x r.2) (s'.view x) := by
  unfold State.view
  rw [hreg]
  by_cases hx : x = id
  · subst hx
    rw [eventsOf_self h.about]
    exact h.self
  · rw [eventsOf_other hx h.about]
    rcases h.others x hx with heq | hgone
    · rw [heq]
      exact .same
    · rw [hgone, Option.map_none]
      cases s.registry.entry x with
      | none => exact .same
      | some e => exact .evicted (hother hx)

namespace Registry

variable (reg : Registry) (config : Config) (id : TaskId) {c : Cause}

/-- A section that does nothing. -/
theorem section_skip : Section c reg id (reg, []) :=
  ⟨by simp, fun _ _ => .inl rfl, .same⟩

/-- A section that rewrites the entry of its own task. -/
theorem section_insert {e e' : Entry} {events : List TaskEvent} (he : reg.entry id = some e)
    (habout : ∀ ev ∈ events, taskOf ev = id)
    (hself : Shown c id (some e.view) events (some e'.view)) :
    Section c reg id ({ reg with entries := reg.entries.insert id e' }, events) where
  about := habout
  others x hx := by
    left
    change (AList.lookup x (reg.entries.insert id e')).map Entry.view = _
    rw [reg.entry_insert id x e', if_neg hx]
  self := by
    change Shown c id _ events ((AList.lookup id (reg.entries.insert id e')).map Entry.view)
    rw [reg.entry_insert id id e', if_pos rfl, he]
    exact hself

theorem section_setQueued {waitingOn : Option ResourceId}
    (hq : ∀ e, reg.entry id = some e → ∃ on, e.info.state = .queued on) :
    Section c reg id (reg.setQueued id waitingOn) := by
  unfold setQueued
  cases he : reg.entry id with
  | none => exact reg.section_skip id
  | some e =>
    obtain ⟨on, hon⟩ := hq e he
    by_cases hs : e.info.state = .queued waitingOn
    · simp only [hs, if_true]
      exact reg.section_skip id
    · simp only [hs, if_false]
      refine reg.section_insert id he (by simp [taskOf]) (.queued hon ?_)
      rintro rfl
      exact hs hon

theorem section_setRunning (hq : ∀ e, reg.entry id = some e → ∃ on, e.info.state = .queued on) :
    Section c reg id (reg.setState id .running) := by
  unfold setState
  cases he : reg.entry id with
  | none => exact reg.section_skip id
  | some e =>
    obtain ⟨on, hon⟩ := hq e he
    exact reg.section_insert id he (by simp [taskOf]) (.running hon)

theorem section_setCancelling (hr : ∀ e, reg.entry id = some e → e.info.state = .running) :
    Section c reg id (reg.setState id .cancelling) := by
  unfold setState
  cases he : reg.entry id with
  | none => exact reg.section_skip id
  | some e => exact reg.section_insert id he (by simp [taskOf]) (.cancelling (hr e he))

theorem section_reportProgress (now : Instant) (progress : Progress)
    (hin : c.inBody → ∀ e, reg.entry id = some e → e.info.state.underWay = true) :
    Section c reg id ((reg.reportProgress config now id progress).1,
      (reg.reportProgress config now id progress).2.1) := by
  unfold reportProgress
  cases he : reg.entry id with
  | none => exact reg.section_skip id
  | some e =>
    cases ht : e.info.state.isTerminal with
    | true =>
      simp only [ht, if_true]
      exact reg.section_skip id
    | false =>
      have hin' : c.inBody → e.info.state.underWay = true := fun h => hin h e he
      cases hdue : e.throttle.due config.progressInterval now with
      | true =>
        simp only [ht, hdue, Bool.false_eq_true, if_false, if_true]
        refine reg.section_insert id he (by simp [taskOf]) ?_
        rw [show (e.report config.progressInterval now progress).view =
          ⟨{ e.info with progress := progress }, false⟩ by simp [Entry.report, Entry.view, hdue]]
        exact .progressed ht hin'
      | false =>
        have hsec : Section c reg id
            ({ reg with
              entries := reg.entries.insert id (e.report config.progressInterval now progress) },
              []) := by
          refine reg.section_insert id he (by simp) ?_
          rw [show (e.report config.progressInterval now progress).view =
            ⟨{ e.info with progress := progress }, true⟩ by simp [Entry.report, Entry.view, hdue]]
          exact .held ht hin'
        simp only [ht, hdue, Bool.false_eq_true, if_false]
        split <;> exact hsec

theorem section_flushProgress (now : Instant) :
    Section c reg id (reg.flushProgress now id) := by
  unfold flushProgress
  cases he : reg.entry id with
  | none => exact reg.section_skip id
  | some e =>
    cases hf : e.flushes with
    | true =>
      simp only [hf, if_true]
      refine reg.section_insert id he (by simp [taskOf]) ?_
      simp only [Entry.flushes, Bool.and_eq_true] at hf
      have h1 : e.view = ⟨e.info, true⟩ := by rw [Entry.view, hf.1]
      have h2 : (e.flush now).view = ⟨e.info, false⟩ := by
        simp [Entry.flush, Entry.flushes, Entry.view, hf.1, hf.2]
      rw [h1, h2]
      exact .flushed (by simpa [Entry.live] using hf.2)
    | false =>
      simp only [hf, Bool.false_eq_true, if_false]
      refine reg.section_insert id he (by simp) ?_
      rw [show (e.flush now).view = e.view by simp [Entry.flush, hf, Entry.view]]
      exact .same

theorem section_start (kind : TaskKind) (parent : Option TaskId) (token : CancelToken TaskId)
    (submitted : SystemTime) (hfresh : reg.entry id = none) :
    Section c reg id (reg.start config id kind parent token submitted) where
  about := by
    intro ev hev
    rw [List.mem_singleton.mp hev]
    rfl
  others x hx := by
    left
    rw [start_entry, if_neg hx]
    split
    · cases reg.entry x <;> rfl
    · rfl
  self := by
    rw [start_entry, if_pos rfl, hfresh]
    exact .submitted rfl rfl

/-- `settle` flushes what was held back, and then tells of the end. -/
theorem settle_events {e : Entry} (he : reg.entry id = some e) (state : TaskState)
    (now : SystemTime) :
    (reg.settle config id state now).2 =
      (if e.throttle.pending then [.progressed id e.info.progress] else []) ++
        [.stateChanged id state] := by
  unfold settle
  simp only [he]
  split <;> rfl

theorem section_settle {state : TaskState} (now : SystemTime) (hst : state.isTerminal = true)
    (hends : c.ends state)
    (hl : ∀ e, reg.entry id = some e → e.info.state.isTerminal = false)
    (hq : ∀ e, reg.entry id = some e → e.info.state.underWay = false → state ≠ .succeeded) :
    Section c reg id (reg.settle config id state now) := by
  cases he : reg.entry id with
  | none =>
    rw [reg.settle_none config id he]
    exact reg.section_skip id
  | some e =>
    have hshr : ∀ x, (reg.settle config id state now).1.entry x = none ∨
        (reg.settle config id state now).1.entry x = (reg.mark id e state now).lookup x :=
      reg.settle_shrinks config id he state now
    have hlook := fun x => reg.mark_lookup id x e state now
    refine ⟨?_, fun x hx => ?_, ?_⟩
    · rw [reg.settle_events config id he]
      intro ev hev
      rcases List.mem_append.mp hev with hev | hev
      · split at hev
        · rw [List.mem_singleton.mp hev]; rfl
        · cases hev
      · rw [List.mem_singleton.mp hev]; rfl
    · rcases hshr x with hgone | hsame
      · exact .inr hgone
      · left
        rw [hsame, hlook, if_neg hx]
        split
        · cases reg.entry x <;> rfl
        · rfl
    · rw [reg.settle_events config id he, he, Option.map_some]
      have hv : ((reg.settle config id state now).1.entry id).map Entry.view = none ∨
          ((reg.settle config id state now).1.entry id).map Entry.view =
            some (View.mk { e.info with state := state, settled := some now } false) := by
        rcases hshr id with hgone | hsame
        · left
          rw [hgone, Option.map_none]
        · right
          rw [hsame, hlook, if_pos rfl]
          split <;> rfl
      exact .settled (hl e he) hst hends (hq e he) hv

end Registry

/-! ### The steps of the runtime -/

/-- A driver's move shows every task what its lock section says. -/
theorem Turn.section_perform {c : Cause} (h : Turn config s id d op d') (hwf : Wf config s)
    (hd : s.drivers id = some d)
    (hends : ∀ o, d.pc = .settle o → c.ends (stateOfOutcome o)) :
    ∃ r, Section c s.registry id r ∧
      (∀ x, (s.perform config id d op).registry.entry x = r.1.entry x) ∧
      (s.perform config id d op).events = s.events ++ r.2.map (Sent.mk s.now) := by
  have hshows : ∀ e, s.registry.entry id = some e → d.pc.shows d.body e.info.state :=
    fun e he => (hwf.entryOf he hd).shows
  have hskip : ∀ {op : Op}, (s.perform config id d op).registry.entries = s.registry.entries →
      (s.perform config id d op).events = s.events →
      ∃ r, Section c s.registry id r ∧
        (∀ x, (s.perform config id d op).registry.entry x = r.1.entry x) ∧
        (s.perform config id d op).events = s.events ++ r.2.map (Sent.mk s.now) := by
    intro op hent hev
    refine ⟨_, s.registry.section_skip id, fun x => ?_, by simpa using hev⟩
    rw [Registry.entry, hent]
    rfl
  have hsettle : ∀ {o : Outcome Output}, d.pc = .settle o →
      Section c s.registry id (s.registry.settle config id (stateOfOutcome o) s.wall) := by
    intro o hpc
    obtain ⟨_, hb⟩ := hwf.ok id d hd
    rw [hpc] at hb
    refine s.registry.section_settle config id s.wall (stateOfOutcome_isTerminal o)
      (hends o hpc) ?_ ?_
    · intro e he
      rw [Pc.shows_isTerminal (hshows e he), hpc]
      rfl
    · intro e he hnot
      have hs := hshows e he
      rw [hpc] at hs
      rcases hb with ⟨_, error, rfl⟩ | ⟨j, c, hb, rfl⟩
      · cases error <;> simp [stateOfOutcome, stateOf]
      · rw [hb] at hs
        rcases hs with hs | hs <;> simp [hs, TaskState.underWay] at hnot
  cases h with
  | admitQueue hpc =>
    refine ⟨_, s.registry.section_setQueued id fun e he => ?_, fun x => rfl, rfl⟩
    have hs := hshows e he
    rw [hpc] at hs
    exact hs
  | setRunning hpc =>
    refine ⟨_, s.registry.section_setRunning id fun e he => ?_, fun x => rfl, rfl⟩
    have hs := hshows e he
    rw [hpc] at hs
    exact hs
  | setCancelling hpc =>
    refine ⟨_, s.registry.section_setCancelling id fun e he => ?_, fun x => rfl, rfl⟩
    have hs := hshows e he
    rw [hpc] at hs
    exact hs
  | settle hpc he => exact ⟨_, hsettle hpc, fun x => rfl, rfl⟩
  | settleGone hpc he => exact ⟨_, hsettle hpc, fun x => rfl, rfl⟩
  | _ => exact hskip rfl rfl

/-- A task whose body is under way shows it. -/
theorem Wf.underWay_of_bodyLive (hwf : Wf config s) {e : Entry} (hd : s.drivers x = some d)
    (he : s.registry.entry x = some e) (hl : d.bodyLive = true) : e.info.state.underWay = true := by
  obtain ⟨_, hb⟩ := hwf.ok x d hd
  have hs := (hwf.entryOf he hd).shows
  unfold Driver.bodyLive at hl
  cases hpc : d.pc <;> cases hbody : d.body <;>
    simp_all [Pc.isCall, Pc.bodyOk, Pc.shows, Body.isRunning, TaskState.underWay]

/-- What a step of the runtime is to a task. -/
def causeOf (s : State Output) (a : Action Output) (s' : State Output) (x : TaskId) : Cause where
  inBody := ContextInBody s a
  other := a ≠ .drive x
  ends st := ∃ d o, s'.drivers x = some d ∧ d.pc.settled = some o ∧ st = stateOfOutcome o

/-- **Every step shows every task one of the listed changes**, and sends nothing
but the events that go with them. -/
theorem Stepped.shown (h : Stepped config s a s') (hwf : Wf config s) :
    ∃ events, s'.events = s.events ++ events.map (Sent.mk s.now) ∧
      ∀ x, Shown (causeOf s a s' x) x (s.view x) (eventsOf x events) (s'.view x) := by
  have hquiet : ∀ {t : State Output}, t.events = s.events →
      (∀ x, t.registry.entry x = s.registry.entry x) →
      ∃ events, t.events = s.events ++ events.map (Sent.mk s.now) ∧
        ∀ x, Shown (causeOf s a t x) x (s.view x) (eventsOf x events) (t.view x) := by
    intro t hev hent
    refine ⟨[], by simpa using hev, fun x => ?_⟩
    rw [State.view_of_entry (hent x)]
    exact .same
  cases h with
  | @start _ id kind parent token submitted hfresh hsub hlin =>
    have hnone : s.registry.entry id = none := by
      cases he : s.registry.entry id with
      | none => rfl
      | some e =>
        obtain ⟨d, hd, _⟩ := hwf.entry id e he
        rw [hfresh] at hd
        cases hd
    refine ⟨_, rfl, fun x => Section.shown (c := causeOf s _ _)
      (s.registry.section_start config id kind parent token submitted hnone) rfl x ?_⟩
    rintro _ rfl
    cases hsub
  | @drive id dm dm' op hdm hturn =>
    have hends : ∀ o, dm.pc = .settle o → (causeOf s (.drive id)
        ((s.perform config id dm op).setDriver id dm') id).ends (stateOfOutcome o) := by
      intro o hpc
      refine ⟨dm', o, by simp, ?_, rfl⟩
      cases hturn <;> simp_all [Pc.settled]
    obtain ⟨r, hsec, hent, hev⟩ := hturn.section_perform hwf hdm hends
    refine ⟨r.2, hev, fun x => ?_⟩
    have hview : ((s.perform config id dm op).setDriver id dm').view x =
        ({ s with registry := r.1 } : State Output).view x := State.view_of_entry (hent x)
    rw [hview]
    refine Section.shown (c := causeOf s (.drive id) _) hsec rfl x fun hx heq => ?_
    cases heq
    exact hx rfl
  | @progress id p dm hdm hcalled =>
    refine ⟨_, rfl, fun x => Section.shown (c := causeOf s _ _)
      (s.registry.section_reportProgress config id s.now p ?_) rfl x fun _ => nofun⟩
    intro hin e he
    exact hwf.underWay_of_bodyLive hdm he (hin dm hdm)
  | flush =>
    exact ⟨_, rfl, fun x => Section.shown (c := causeOf s _ _)
      (s.registry.section_flushProgress _ s.now) rfl x fun _ => nofun⟩
  | resources => exact hquiet rfl fun x => rfl
  | cancel | cancelIdle | cancelAll | notifyWaiters | idle | idleStep | nudge | tick =>
    exact hquiet rfl fun x => rfl

end FilePeeker
