import FilePeeker.Task.Events
import FilePeeker.Task.Retention

/-!
# The life of a task, as its events tell it

`Stage.next` is the automaton the events about one task go through: submitted,
waiting on one thing after another, then the end, or running, perhaps
cancelling, and the end, with progress only while it runs.  In every run whose
bodies report only until they end, the events about each task take the automaton
to `State.stage`, which is where the task stands (`Reaches.lifecycle`).

The second half is about how a task ends.  `GaveUp` and `CancelledAtOutcome`
are the two places where its driver reads the token: in the wait of `admit`, and
in the `match` on how the body ended.
-/

namespace FilePeeker

variable {Output : Type} {config : Config} {s s' t u : State Output} {x : TaskId}
  {d d' : Driver Output} {a : Action Output} {past : List (State Output)}

/-- Bodies use their `TaskContext` only until they end, and `run` returns. -/
abbrev Orderly (s : State Output) (a : Action Output) : Prop := ContextInBody s a ∧ RunReturns s a

/-! ### The automaton -/

/-- How far a task has come. -/
inductive Stage
  | unknown
  | queued (waitingOn : Option ResourceId)
  | running
  | cancelling
  | ended (state : TaskState)
deriving DecidableEq, Repr

/-- What the next event about a task can be, and where it takes the task. -/
def Stage.next : Stage → TaskEvent → Option Stage
  | unknown, .submitted info => if info.state = .queued none then some (queued none) else none
  | queued on, .stateChanged _ (.queued on') => if on = on' then none else some (queued on')
  | queued _, .stateChanged _ .running => some running
  | queued _, .stateChanged _ .cancelled => some (ended .cancelled)
  | queued _, .stateChanged _ (.failed error) => some (ended (.failed error))
  | running, .progressed _ _ => some running
  | running, .stateChanged _ .cancelling => some cancelling
  | running, .stateChanged _ st => if st.isTerminal then some (ended st) else none
  | cancelling, .progressed _ _ => some cancelling
  | cancelling, .stateChanged _ st => if st.isTerminal then some (ended st) else none
  | _, _ => none

/-- Where a list of events about one task takes it, if the automaton has them. -/
def Stage.told (events : List TaskEvent) : Option Stage := events.foldlM Stage.next .unknown

/-- The stage a state belongs to. -/
def Stage.of : TaskState → Stage
  | .queued on => queued on
  | .running => running
  | .cancelling => cancelling
  | st => ended st

theorem Stage.of_terminal {st : TaskState} (h : st.isTerminal = true) : Stage.of st = ended st := by
  cases st <;> simp_all [Stage.of, TaskState.isTerminal]

/-- Where a task stands: settled with its driver's outcome, else as its entry
says. -/
def State.stage (s : State Output) (x : TaskId) : Stage :=
  match s.drivers x with
  | none => .unknown
  | some d =>
    match d.pc.settled with
    | some outcome => .ended (stateOfOutcome outcome)
    | none => ((s.registry.entry x).map fun e => Stage.of e.info.state).getD .unknown

/-- Every event about one task so far, in the order they were sent. -/
def State.eventsAbout (s : State Output) (x : TaskId) : List TaskEvent :=
  eventsOf x (s.events.map Sent.event)

theorem Stage.next_terminal {st st' : TaskState} {x : TaskId} (hl : st.isTerminal = false)
    (ht : st'.isTerminal = true) (hq : st.underWay = false → st' ≠ .succeeded) :
    Stage.next (.of st) (.stateChanged x st') = some (.ended st') := by
  cases st <;> cases st' <;> simp_all [Stage.of, Stage.next, TaskState.isTerminal,
    TaskState.underWay]

theorem Stage.next_progressed {st : TaskState} {x : TaskId} {progress : Progress}
    (h : st.underWay = true) : Stage.next (.of st) (.progressed x progress) = some (.of st) := by
  cases st <;> simp_all [Stage.of, Stage.next, TaskState.underWay]

/-- **What is shown of a task moves as its events say.**  Where it is no longer
shown, it ended in this step, or was evicted in a step of another one. -/
theorem Shown.next {c : Cause} {v : View} {v' : Option View} {events : List TaskEvent}
    (h : Shown c x (some v) events v') (hin : c.inBody)
    (hp : v.pending = true → v.info.state.underWay = true) :
    ∃ stage, events.foldlM Stage.next (.of v.info.state) = some stage ∧
      (∀ w, v' = some w → stage = .of w.info.state) ∧
      (v' = none → c.other ∧ events = [] ∨ ∃ st, c.ends st ∧ stage = .ended st) := by
  cases h with
  | same => exact ⟨.of v.info.state, rfl, by rintro w ⟨⟩; rfl, nofun⟩
  | @queued info p on on' hs hne =>
    refine ⟨.queued on', ?_, by rintro w ⟨⟩; rfl, nofun⟩
    simp [hs, Stage.of, Stage.next, hne]
  | @running info p on hs =>
    refine ⟨.running, ?_, by rintro w ⟨⟩; rfl, nofun⟩
    simp [hs, Stage.of, Stage.next]
  | @cancelling info p hs =>
    refine ⟨.cancelling, ?_, by rintro w ⟨⟩; rfl, nofun⟩
    simp [hs, Stage.of, Stage.next]
  | progressed hl hrun =>
    refine ⟨_, ?_, by rintro w ⟨⟩; rfl, nofun⟩
    simp [Stage.next_progressed (hrun hin)]
  | @held info p progress hl hrun =>
    exact ⟨.of info.state, rfl, by rintro w ⟨⟩; rfl, nofun⟩
  | flushed hl =>
    refine ⟨_, ?_, by rintro w ⟨⟩; rfl, nofun⟩
    simp [Stage.next_progressed (hp rfl)]
  | @settled info p st now v' hl hst hends hq hv =>
    refine ⟨.ended st, ?_, ?_, fun _ => .inr ⟨st, hends, rfl⟩⟩
    · cases p with
      | false => simp [Stage.next_terminal hl hst hq]
      | true => simp [Stage.next_progressed (hp rfl), Stage.next_terminal hl hst hq]
    · rintro w rfl
      rcases hv with hv | hv
      · cases hv
      · cases hv
        exact (Stage.of_terminal hst).symm
  | evicted hother => exact ⟨.of v.info.state, rfl, by rintro w ⟨⟩, fun _ => .inl ⟨hother, rfl⟩⟩

/-- Progress is held back only while a body is under way. -/
theorem Shown.pending {c : Cause} {v v' : Option View} {events : List TaskEvent}
    (h : Shown c x v events v') (hin : c.inBody)
    (hp : ∀ w, v = some w → w.pending = true → w.info.state.underWay = true) :
    ∀ w, v' = some w → w.pending = true → w.info.state.underWay = true := by
  cases h with
  | same => exact hp
  | submitted | progressed | flushed => rintro w ⟨⟩ ⟨⟩
  | queued hs | running hs =>
    rintro w ⟨⟩ hw
    have := hp _ rfl hw
    simp [hs, TaskState.underWay] at this
  | cancelling => rintro w ⟨⟩ _; rfl
  | held _ hrun => rintro w ⟨⟩ _; exact hrun hin
  | settled _ _ _ _ hv =>
    rintro w rfl hw
    rcases hv with hv | hv
    · cases hv
    · cases hv; cases hw
  | evicted => rintro w ⟨⟩

/-- The events about each task so far, and what is held back of them. -/
structure Lifecycle (s : State Output) : Prop where
  told : ∀ x, Stage.told (s.eventsAbout x) = some (s.stage x)
  pending : ∀ x w, s.view x = some w → w.pending = true → w.info.state.underWay = true

theorem Lifecycle.init : Lifecycle (State.init : State Output) :=
  ⟨fun _ => rfl, by simp [State.view, State.init]⟩

theorem State.stage_of_settled {o : Outcome Output} (hd : s.drivers x = some d)
    (ho : d.pc.settled = some o) : s.stage x = .ended (stateOfOutcome o) := by
  simp [stage, hd, ho]

/-- A settled task's entry shows its outcome. -/
theorem Wf.state_of_settled (hwf : Wf config s) {e : Entry} {o : Outcome Output}
    (he : s.registry.entry x = some e) (hd : s.drivers x = some d) (ho : d.pc.settled = some o) :
    e.info.state = stateOfOutcome o := by
  have hs := (hwf.entryOf he hd).shows
  cases hpc : d.pc <;> simp_all [Pc.settled, Pc.shows]

/-- A task that is shown stands where its state says. -/
theorem Wf.stage_of_view (hwf : Wf config s) {v : View} (hv : s.view x = some v) :
    s.stage x = .of v.info.state := by
  obtain ⟨e, he, rfl⟩ := Option.map_eq_some_iff.mp hv
  obtain ⟨d, hd, _⟩ := hwf.entry x e he
  cases ho : d.pc.settled with
  | some o =>
    rw [State.stage_of_settled hd ho,
      show e.view.info.state = stateOfOutcome o from hwf.state_of_settled he hd ho,
      Stage.of_terminal (stateOfOutcome_isTerminal o)]
  | none =>
    simp only [State.stage, hd, ho, he]
    rfl

/-- A task that is not shown has settled, or was never submitted. -/
theorem Family.settled_of_gone (hfam : Family s) (hv : s.view x = none)
    (hd : s.drivers x = some d) : ∃ o, d.pc.settled = some o := by
  cases ho : d.pc.settled with
  | some o => exact ⟨o, rfl⟩
  | none =>
    obtain ⟨e, he⟩ := hfam.retained x d hd ho
    simp [State.view, he] at hv

theorem Stepped.stage_of_settled {o : Outcome Output} (h : Stepped config s a s')
    (hd : s.drivers x = some d) (ho : d.pc.settled = some o) : s'.stage x = s.stage x := by
  obtain ⟨d', hd', hm⟩ := h.driver_forward hd
  rw [State.stage_of_settled hd ho, State.stage_of_settled hd' (hm.settled ho)]

/-- **One step takes every task on as its events say.** -/
theorem Stepped.told (h : Stepped config s a s') (hwf : Wf config s) (hfam : Family s)
    (hwf' : Wf config s') (hfam' : Family s') (hin : ContextInBody s a) (hlife : Lifecycle s)
    {events : List TaskEvent}
    (hshown : Shown (causeOf s a s' x) x (s.view x) (eventsOf x events) (s'.view x)) :
    (eventsOf x events).foldlM Stage.next (s.stage x) = some (s'.stage x) := by
  cases hv : s.view x with
  | some v =>
    rw [hv] at hshown
    obtain ⟨stage, hfold, hsome, hnone⟩ := hshown.next hin (hlife.pending x v hv)
    rw [hwf.stage_of_view hv, hfold]
    cases hv' : s'.view x with
    | some w => rw [hsome w hv', hwf'.stage_of_view hv']
    | none =>
      rcases hnone hv' with ⟨hother, hnil⟩ | ⟨st, ⟨d', o, hd', ho, rfl⟩, rfl⟩
      · -- evicted: another task's step settles nothing here
        obtain ⟨e, he, rfl⟩ := Option.map_eq_some_iff.mp hv
        obtain ⟨d, hd, _⟩ := hwf.entry x e he
        obtain ⟨d', hd', hm⟩ := h.driver_forward hd
        obtain ⟨o, ho⟩ := hfam'.settled_of_gone hv' hd'
        have hset : s.HasSettled x := by
          rcases h.settleStep with ⟨_, hiff⟩ | ⟨id, ha, hsettle⟩
          · exact (hiff x).mp ⟨d', o, hd', ho⟩
          · refine (hsettle.others x ?_).mp ⟨d', o, hd', ho⟩
            rintro rfl
            exact hother ha
        obtain ⟨d₀, o₀, hd₀, ho₀⟩ := hset
        rw [h.stage_of_settled hd₀ ho₀, hwf.stage_of_view hv]
        rw [hnil] at hfold
        exact hfold.symm
      · rw [State.stage_of_settled hd' ho]
  | none =>
    rw [hv] at hshown
    generalize hv' : s'.view x = v' at hshown
    generalize hevs : eventsOf x events = evs at hshown
    cases hshown with
    | same =>
      cases hd : s.drivers x with
      | some d =>
        obtain ⟨o, ho⟩ := hfam.settled_of_gone hv hd
        rw [h.stage_of_settled hd ho]
        rfl
      | none =>
        cases hd' : s'.drivers x with
        | none => simp [State.stage, hd, hd']
        | some d' =>
          obtain ⟨o, ho⟩ := hfam'.settled_of_gone hv' hd'
          rcases h.driver hd' with ⟨_, hstart⟩ | ⟨d, hd₀, _⟩
          · cases hstart
            rw [State.started_driver] at hd'
            cases hd'
            cases ho
          · rw [hd] at hd₀
            cases hd₀
    | submitted hid hs =>
      rw [hwf'.stage_of_view hv']
      cases hd : s.drivers x with
      | none => simp [State.stage, hd, Stage.next, hs, Stage.of]
      | some d =>
        -- a task once settled shows no other state
        obtain ⟨o, ho⟩ := hfam.settled_of_gone hv hd
        obtain ⟨d', hd', hm⟩ := h.driver_forward hd
        obtain ⟨e, he, hev⟩ := Option.map_eq_some_iff.mp hv'
        have hst := hwf'.state_of_settled he hd' (hm.settled ho)
        have hq : e.info.state = .queued none :=
          (congrArg (fun v : View => v.info.state) hev).trans hs
        have hterm := stateOfOutcome_isTerminal o
        rw [← hst, hq] at hterm
        cases hterm

theorem Stepped.lifecycle (h : Stepped config s a s') (hwf : Wf config s) (hfam : Family s)
    (hwf' : Wf config s') (hfam' : Family s') (hin : ContextInBody s a) (hlife : Lifecycle s) :
    Lifecycle s' := by
  obtain ⟨events, hev, hshown⟩ := h.shown hwf
  refine ⟨fun x => ?_, fun x => (hshown x).pending hin (hlife.pending x)⟩
  have happ : s'.eventsAbout x = s.eventsAbout x ++ eventsOf x events := by
    unfold State.eventsAbout
    rw [hev, List.map_append, eventsOf_append, List.map_map,
      show (events.map (Sent.event ∘ Sent.mk s.now)) = events from List.map_id' events]
  have htold : Stage.told (s.eventsAbout x) = some (s.stage x) := hlife.told x
  unfold Stage.told at htold ⊢
  rw [happ, List.foldlM_append, htold]
  exact h.told hwf hfam hwf' hfam' hin hlife (hshown x)

theorem ContextInBody.children (s : State Output) (a : Action Output) (h : ContextInBody s a) :
    ChildrenInBody s a := by
  cases a <;> first | exact h | trivial

theorem Reaches.lifecycle {ok : State Output → Action Output → Prop}
    (hok : ∀ s a, ok s a → ContextInBody s a) (h : Reaches config ok s) : Lifecycle s := by
  have hchild : ∀ s a, ok s a → ChildrenInBody s a := fun s a ha => (hok s a ha).children
  refine h.invariant_from .init fun u a v hu hlife hin hstep => ?_
  have hv : Reaches config ok v := .tail hu hin hstep
  exact (step_cases hstep).lifecycle (Reaches.wf hu) (Reaches.family hchild hu) (Reaches.wf hv)
    (Reaches.family hchild hv) (hok _ _ hin) hlife

/-! ### How a task ends -/

/-- The wait in `admit` ended by the task's token. -/
def GaveUp (config : Config) (past : List (State Output)) (s : State Output) (x : TaskId) : Prop :=
  ∃ u ∈ past, ∃ v, (v ∈ past ∨ v = s) ∧ step config u (.giveUp x) = some v

/-- The task's token was cancelled by the time its driver looked at how the body
ended. -/
def CancelledAtOutcome (past : List (State Output)) (x : TaskId) : Prop :=
  ∃ u ∈ past, ∃ d joined, u.drivers x = some d ∧ d.pc = .outcome joined ∧
    u.isCancelled d.token = true

/-- What `drive` is going to return. -/
def Pc.concluded : Pc Output → Option (Outcome Output)
  | settle o | settleNotify o | deliver o | done o => some o
  | _ => none

theorem Pc.concluded_of_settled {pc : Pc Output} {o : Outcome Output} (h : pc.settled = some o) :
    pc.concluded = some o := by
  cases pc <;> simp_all [Pc.settled, Pc.concluded]

/-- A driver whose body ended concludes in the `match` on how it ended. -/
theorem Turn.concluded {op : Op} {o : Outcome Output} {joined : Joined Output}
    (h : Turn config s x d op d') (hok : d.Ok) (ho : d'.pc.concluded = some o)
    (hb' : d'.body = .ended joined) :
    d.pc.concluded = some o ∨
      d.pc = .outcome joined ∧ o = outcomeOf joined (s.isCancelled d.token) := by
  obtain ⟨_, hb⟩ := hok
  rw [h.body] at hb'
  cases h with
  | admitFail hpc | leaveNotify hpc =>
    rw [hpc, hb'] at hb
    exact absurd hb nofun
  | pollEnded hpc | joinCancelled hpc =>
    unfold Driver.join at ho
    cases hq : d.ticket.queued <;> simp [hq, Pc.concluded] at ho
  | outcome hpc =>
    rw [hpc, hb'] at hb
    cases hb
    exact .inr ⟨hpc, (Option.some.inj ho).symm⟩
  | settle hpc | settleGone hpc | settleNotify hpc | deliver hpc =>
    exact .inl (by rw [hpc]; exact ho)
  | _ => cases ho

theorem Nudge.concluded {o : Outcome Output} {joined : Joined Output} (h : Nudge s x d a d')
    (hok : d.Ok) (ho : d'.pc.concluded = some o) (hb' : d'.body = .ended joined) :
    d.pc.concluded = some o ∧ d.body = .ended joined := by
  obtain ⟨_, hb⟩ := hok
  cases h with
  | giveUp hpc =>
    rw [hpc, show d.body = .ended joined from hb'] at hb
    exact absurd hb nofun
  | runReturns => cases ho
  | runPanics => cases hq : d.ticket.queued <;> simp [hq, Pc.concluded] at ho
  | bodyEnds hrun =>
    rw [hrun] at hb
    cases hpc : d.pc <;> simp_all [Pc.concluded, Pc.bodyOk]

theorem cancelledAtOutcome_push :
    CancelledAtOutcome (past ++ [s]) x ↔ CancelledAtOutcome past x ∨
      ∃ d joined, s.drivers x = some d ∧ d.pc = .outcome joined ∧
        s.isCancelled d.token = true := by
  constructor
  · rintro ⟨u, hu, hat⟩
    rcases List.mem_append.mp hu with hu | hu
    · exact .inl ⟨u, hu, hat⟩
    · obtain rfl := List.mem_singleton.mp hu
      exact .inr hat
  · rintro (⟨u, hu, hat⟩ | hat)
    · exact ⟨u, List.mem_append_left _ hu, hat⟩
    · exact ⟨s, by simp, hat⟩

/-- A task cancelled in one state of a run is cancelled in every later one. -/
theorem Steps.cancelled_kept {ok : State Output → Action Output → Prop}
    (h : Steps (step config) ok u s) (hd : u.drivers x = some d)
    (hc : u.isCancelled d.token = true) :
    ∃ d', s.drivers x = some d' ∧ s.isCancelled d'.token = true := by
  refine h.invariant (I := fun s => ∃ d', s.drivers x = some d' ∧ s.isCancelled d'.token = true)
    ?_ ⟨d, hd, hc⟩
  rintro v a w ⟨dv, hdv, hcv⟩ _ hstep
  obtain ⟨dw, hdw, hm⟩ := (step_cases hstep).driver_forward hdv
  refine ⟨dw, hdw, ?_⟩
  rw [hm.sameStart.token]
  exact (step_cases hstep).isCancelled hcv

/-- **What a body ended with becomes the outcome**, with the token as it was
when the driver looked. -/
theorem Trace.outcome {ok : State Output → Action Output → Prop}
    (h : Trace (step config) ok .init past s) :
    ∀ x d o joined, s.drivers x = some d → d.pc.concluded = some o → d.body = .ended joined →
      ∃ c, (c = true ↔ CancelledAtOutcome past x) ∧ o = outcomeOf joined c := by
  induction h with
  | start => simp [State.init]
  | @next past s s' a prior hok hstep ih =>
    intro x d' o joined hd' ho hb'
    have hst := step_cases hstep
    have hwf : Wf config s := Reaches.wf prior.steps
    -- a driver that had concluded before the step
    have hkept : ∀ d, s.drivers x = some d → d.pc.concluded = some o → d.body = .ended joined →
        ∃ c, (c = true ↔ CancelledAtOutcome (past ++ [s]) x) ∧ o = outcomeOf joined c := by
      intro d hd hdo hdb
      obtain ⟨c, hc, hoc⟩ := ih x d o joined hd hdo hdb
      refine ⟨c, ?_, hoc⟩
      rw [hc, cancelledAtOutcome_push]
      refine ⟨.inl, ?_⟩
      rintro (hat | ⟨d₀, j, hd₀, hpc, _⟩)
      · exact hat
      · rw [hd] at hd₀
        cases hd₀
        rw [hpc] at hdo
        cases hdo
    rcases hst.driver hd' with ⟨_, hstart⟩ | ⟨d, hd, hm⟩
    · cases hstart
      rw [State.started_driver] at hd'
      cases hd'
      cases ho
    · cases hm with
      | same => exact hkept d' hd ho hb'
      | woken => exact hkept d hd ho hb'
      | turn _ hturn =>
        rcases hturn.concluded (hwf.ok x d hd) ho hb' with hdo | ⟨hpc, hoc⟩
        · exact hkept d hd hdo (hturn.body.symm.trans hb')
        · refine ⟨_, ?_, hoc⟩
          rw [cancelledAtOutcome_push]
          refine ⟨fun hc => .inr ⟨d, joined, hd, hpc, hc⟩, ?_⟩
          rintro (⟨u, hu, du, j, hdu, _, hc⟩ | ⟨d₀, j, hd₀, _, hc⟩)
          · obtain ⟨d₀, hd₀, hc₀⟩ := Steps.cancelled_kept (prior.steps_of_mem hu).2 hdu hc
            rw [hd] at hd₀
            cases hd₀
            exact hc₀
          · rw [hd] at hd₀
            cases hd₀
            exact hc
      | nudge hn =>
        obtain ⟨hdo, hdb⟩ := hn.concluded (hwf.ok x d hd) ho hb'
        exact hkept d hd hdo hdb

/-! ### Giving up -/

theorem Stepped.refused_kept {error : TaskError} (h : Stepped config s a s') (hwf : Wf config s)
    (hd : s.drivers x = some d) (hr : d.refused = some error) :
    ∃ d', s'.drivers x = some d' ∧ d'.refused = some error := by
  obtain ⟨d', hd', hm⟩ := h.driver_forward hd
  obtain ⟨hb, hpcs⟩ := Driver.refused_eq_some hr
  refine ⟨d', hd', ?_⟩
  cases hm with
  | same | woken => exact hr
  | turn _ hturn =>
    rcases hturn.refused (hwf.ok x d hd) with heq | ⟨hpc, _⟩
    · rw [heq, hr]
    · simp [hpc, Pc.settled] at hpcs
  | nudge hn =>
    rcases hn.refused (hwf.ok x d hd) with heq | ⟨_, _, hin⟩
    · rw [heq, hr]
    · rcases hpcs with hpc | hpc | hpc | hpc <;> cases hp : d.pc <;>
        simp_all [Pc.inAdmit, Pc.settled]

/-- Giving up refuses the task. -/
theorem Wf.refused_of_giveUp (hwf : Wf config u) (h : step config u (.giveUp x) = some t) :
    ∃ d, t.drivers x = some d ∧ d.refused = some .cancelled := by
  simp only [step, Option.bind_eq_bind, Option.bind_eq_some_iff] at h
  obtain ⟨d, hd, h⟩ := h
  obtain ⟨_, hb⟩ := hwf.ok x d hd
  split at h
  · rename_i on hpc
    rw [hpc] at hb
    split at h
    · cases h
      exact ⟨d.refuse .cancelled, by simp, Driver.refused_refuse hb⟩
    · cases h
  · cases h

theorem GaveUp.push {t : State Output} (h : GaveUp config past s x) :
    GaveUp config (past ++ [s]) t x := by
  obtain ⟨u, hu, v, hv, hstep⟩ := h
  refine ⟨u, List.mem_append_left _ hu, v, .inl ?_, hstep⟩
  rcases hv with hv | rfl
  · exact List.mem_append_left _ hv
  · simp

/-- **The tasks refused as `Cancelled` are those that gave up.** -/
theorem Trace.gaveUp {ok : State Output → Action Output → Prop}
    (h : Trace (step config) ok .init past s) (hd : s.drivers x = some d)
    (hr : d.refused = some .cancelled) : GaveUp config past s x := by
  induction h generalizing d with
  | start => cases hd
  | @next past s s' a prior hok hstep ih =>
    have hwf : Wf config s := Reaches.wf prior.steps
    rcases (step_cases hstep).driver hd with ⟨_, hstart⟩ | ⟨d₀, hd₀, hm⟩
    · cases hstart
      rw [State.started_driver] at hd
      cases hd
      cases hr
    · cases hm with
      | same => exact (ih hd₀ hr).push
      | woken => exact (ih hd₀ hr).push
      | turn _ hturn =>
        rcases hturn.refused (hwf.ok x d₀ hd₀) with heq | ⟨_, e, _, heq⟩
        · exact (ih hd₀ (heq ▸ hr)).push
        · rw [heq] at hr
          cases hr
      | nudge hn =>
        rcases hn.refused (hwf.ok x d₀ hd₀) with heq | ⟨_, _, hin⟩
        · exact (ih hd₀ (heq ▸ hr)).push
        · cases hn with
          | giveUp => exact ⟨s, by simp, s', .inr rfl, hstep⟩
          | runReturns hpc | runPanics hpc => simp [hpc, Pc.inAdmit] at hin
          | bodyEnds hrun =>
            obtain ⟨_, hb⟩ := hwf.ok x d₀ hd₀
            rw [hrun] at hb
            cases hpc : d₀.pc <;> simp_all [Pc.inAdmit, Pc.bodyOk]

theorem GaveUp.refused {ok : State Output → Action Output → Prop}
    (h : Trace (step config) ok .init past s) (hg : GaveUp config past s x) :
    ∃ d, s.drivers x = some d ∧ d.refused = some .cancelled := by
  obtain ⟨u, hu, v, hv, hstep⟩ := hg
  have hv₀ := (Reaches.wf (h.steps_of_mem hu).1).refused_of_giveUp hstep
  rcases hv with hv | rfl
  · obtain ⟨hreach, hrun⟩ := h.steps_of_mem hv
    refine hrun.invariant_from (I := fun w => ∃ d, w.drivers x = some d ∧
      d.refused = some .cancelled) hv₀ ?_
    rintro w a w' hw ⟨d, hd, hr⟩ _ hstep'
    exact (step_cases hstep').refused_kept (Reaches.wf (hreach.trans hw)) hd hr
  · exact hv₀

/-- How a settled task ended, and why. -/
structure Ending (config : Config) (past : List (State Output)) (s : State Output) (x : TaskId)
    (d : Driver Output) (o : Outcome Output) : Prop where
  told : Stage.told (s.eventsAbout x) = some (.ended (stateOfOutcome o))
  shown : ∀ e, s.registry.entry x = some e → e.info.state = stateOfOutcome o
  succeeded : ∀ output, o = .ok output ↔ d.body = .ended (.ok output)
  cancelled : o = .error .cancelled ↔ GaveUp config past s x ∨
    ∃ error, d.body = .ended (.err error) ∧ error.kind = .interrupted ∧
      CancelledAtOutcome past x
  failed : (∃ error, o = .error (.failed error)) ↔
    (∀ output, d.body ≠ .ended (.ok output)) ∧ ¬GaveUp config past s x ∧
      ∀ error, d.body = .ended (.err error) → error.kind = .interrupted →
        ¬CancelledAtOutcome past x

theorem outcomeOf_eq_ok {joined : Joined Output} {c : Bool} {output : Output} :
    outcomeOf joined c = .ok output ↔ joined = .ok output := by
  cases joined with
  | ok output' => simp [outcomeOf]
  | err error => simp only [outcomeOf]; split <;> simp
  | panicked message => simp [outcomeOf]

theorem outcomeOf_eq_cancelled {joined : Joined Output} {c : Bool} :
    outcomeOf joined c = .error .cancelled ↔
      ∃ error, joined = .err error ∧ error.kind = .interrupted ∧ c = true := by
  cases joined with
  | ok output => simp [outcomeOf]
  | err error => cases c <;> by_cases hk : error.kind = .interrupted <;> simp [outcomeOf, hk]
  | panicked message => simp [outcomeOf]

/-- **The life of a task**: in every run whose bodies use their contexts only
until they end, the events about each task are a run of the automaton, and take
it to where the task stands; a settled task's outcome is what the registry
shows and what its body, or its giving up, made of it. -/
theorem task_lifecycle (h : Trace (step config) ContextInBody .init past s) (x : TaskId) :
    Stage.told (s.eventsAbout x) = some (s.stage x) ∧
    ∀ d o, s.drivers x = some d → d.pc.settled = some o → Ending config past s x d o := by
  have hwf : Wf config s := Reaches.wf h.steps
  have hlife : Lifecycle s := Reaches.lifecycle (fun _ _ ha => ha) h.steps
  refine ⟨hlife.told x, fun d o hd ho => ?_⟩
  obtain ⟨_, hb⟩ := hwf.ok x d hd
  have hconc := Pc.concluded_of_settled ho
  have hends : d.body = .unspawned ∧ (∃ error, o = .error error) ∨
      ∃ joined, d.body = .ended joined := by
    cases hpc : d.pc <;> simp only [hpc, Pc.settled, reduceCtorEq, Option.some.injEq] at ho
    all_goals
      subst ho
      rw [hpc] at hb
      rcases hb with hb | ⟨joined, _, hb, _⟩
      · exact .inl hb
      · exact .inr ⟨joined, hb⟩
  have hgave : GaveUp config past s x ↔ d.refused = some .cancelled := by
    refine ⟨fun hg => ?_, h.gaveUp hd⟩
    obtain ⟨d₀, hd₀, hr⟩ := hg.refused h
    rw [hd] at hd₀
    cases hd₀
    exact hr
  have hsucceeded : ∀ output, o = .ok output ↔ d.body = .ended (.ok output) := by
    intro output
    rcases hends with ⟨hb, error, rfl⟩ | ⟨joined, hb⟩
    · simp [hb]
    · obtain ⟨c, _, rfl⟩ := h.outcome x d o joined hd hconc hb
      rw [outcomeOf_eq_ok, hb, Body.ended.injEq]
  have hcancelled : o = .error .cancelled ↔ GaveUp config past s x ∨
      ∃ error, d.body = .ended (.err error) ∧ error.kind = .interrupted ∧
        CancelledAtOutcome past x := by
    rw [hgave]
    rcases hends with ⟨hb, error, rfl⟩ | ⟨joined, hb⟩
    · have hr : d.refused = some error := by
        unfold Driver.refused
        rw [hb]
        cases hpc : d.pc <;> simp_all [Pc.settled, Pc.refusing, errorOf]
      simp [hr, hb]
    · have hr : d.refused = none := by simp [Driver.refused, hb]
      obtain ⟨c, hc, rfl⟩ := h.outcome x d o joined hd hconc hb
      rw [outcomeOf_eq_cancelled, hc, hr]
      simp [hb]
  refine ⟨?_, fun e he => hwf.state_of_settled he hd ho, hsucceeded, hcancelled, ?_⟩
  · rw [hlife.told x, State.stage_of_settled hd ho]
  · cases o with
    | ok output =>
      simp only [reduceCtorEq, exists_false, false_iff, not_and]
      intro hne
      exact absurd ((hsucceeded output).mp rfl) (hne output)
    | error error =>
      cases error with
      | failed error =>
        obtain ⟨hng, hni⟩ := not_or.mp ((not_congr hcancelled).mp (by simp))
        refine iff_of_true ⟨error, rfl⟩ ⟨fun output hout => ?_, hng, ?_⟩
        · exact absurd ((hsucceeded output).mpr hout) (by simp)
        · exact fun error hb hk hat => hni ⟨error, hb, hk, hat⟩
      | cancelled =>
        simp only [reduceCtorEq, Except.error.injEq, exists_false, false_iff, not_and]
        rintro - hng hni
        rcases hcancelled.mp rfl with hg | ⟨error, hb, hk, hat⟩
        · exact hng hg
        · exact hni error hb hk hat

/-- A root whose body stopped with an `Interrupted` error, up to its `settle`. -/
def interruptedRoot : State Nat :=
  State.init.run .default Orderly
    [.submit ⟨1⟩ ⟨⟨"list", [], .interactive⟩, []⟩ 0, .drive ⟨1⟩, .drive ⟨1⟩, .drive ⟨1⟩,
      .runReturns ⟨1⟩, .progress ⟨1⟩ .none, .bodyEnds ⟨1⟩ (.err ⟨.interrupted, "stopped"⟩),
      .drive ⟨1⟩, .drive ⟨1⟩, .drive ⟨1⟩, .drive ⟨1⟩]

/-- The same root settled, its token cancelled just before. -/
def cancelledLate : State Nat :=
  interruptedRoot.run .default Orderly [.cancel ⟨1⟩, .drive ⟨1⟩]

theorem reaches_cancelledLate :
    Steps (step .default) ContextInBody (State.init : State Nat) cancelledLate :=
  Steps.mono (fun _ _ ha => ha.1)
    ((State.steps_run _ .default Orderly _).trans (State.steps_run _ .default Orderly _))

theorem late_cancel_settles_failed :
    ∃ past, Ending .default past cancelledLate ⟨1⟩ ((cancelledLate.drivers ⟨1⟩).get (by decide))
      (.error (.failed ⟨.interrupted, "stopped"⟩)) := by
  obtain ⟨past, h⟩ := reaches_cancelledLate.trace
  exact ⟨past, (task_lifecycle h ⟨1⟩).2 _ _ (by simp) (by decide)⟩

/-- **A token cancelled before `settle` need not count**: the driver has looked
at it already. -/
theorem cancelled_by_settle_can_fail :
    ¬ ∀ (s t : State Nat) (x : TaskId) (d d' : Driver Nat) (o : Outcome Nat) (error : IoError),
      Reaches .default Orderly s → s.drivers x = some d → d.pc.settled = none →
      d.body = .ended (.err error) → error.kind = .interrupted →
      s.isCancelled d.token = true → step .default s (.drive x) = some t →
      t.drivers x = some d' → d'.pc.settled = some o → o = .error .cancelled := by
  intro h
  have hlate := h (interruptedRoot.run .default Orderly [.cancel ⟨1⟩]) cancelledLate ⟨1⟩
    (((interruptedRoot.run .default Orderly [.cancel ⟨1⟩]).drivers ⟨1⟩).get (by decide))
    ((cancelledLate.drivers ⟨1⟩).get (by decide)) (.error (.failed ⟨.interrupted, "stopped"⟩))
    ⟨.interrupted, "stopped"⟩
    ((State.steps_run _ .default Orderly _).trans (State.steps_run _ .default Orderly _))
    (by simp) (by decide) (by decide) rfl (by decide) rfl (by simp) (by decide)
  cases hlate

end FilePeeker
