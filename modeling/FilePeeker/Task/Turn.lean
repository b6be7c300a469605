import FilePeeker.Task.Runtime

/-!
# What one move of a driver can be

`Turn config s id d op d'` lists the moves of a driver one by one, guards
included, and `turn_cases` says the program `turn` makes no others.  Every
result about drivers is a case analysis over this list, or over one of the
summaries after it, which say of one property of where a driver stands
(`Pc.inQueue`, `Pc.holdsSlot`, `Pc.isNotifying`, `Pc.settled`) which moves
change it.
-/

namespace FilePeeker

variable {Output : Type} {config : Config} {s : State Output} {id : TaskId}
  {d d' : Driver Output} {op : Op}

/-- The moves of a driver. -/
inductive Turn (config : Config) (s : State Output) (id : TaskId) (d : Driver Output) :
    Op → Driver Output → Prop
  | admitEnable (hpc : d.pc = .admitEnable) :
      Turn config s id d .none { d with notified := some false, pc := .admitCheck }
  | admitQueued (hpc : d.pc = .admitCheck) (hadm : d.decision config s.registry = .admits)
      (hq : d.ticket.queued = true) : Turn config s id d .admitTicket { d with pc := .admitNotify }
  | admitUnqueued (hpc : d.pc = .admitCheck) (hadm : d.decision config s.registry = .admits)
      (hq : d.ticket.queued = false) :
      Turn config s id d .none { d with notified := none, pc := .setRunning }
  | admitFail {error : IoError} (hpc : d.pc = .admitCheck)
      (hadm : d.decision config s.registry = .fail error) :
      Turn config s id d .none (d.refuse (.failed error))
  | admitWait {on : Option ResourceId} (hpc : d.pc = .admitCheck)
      (hadm : d.decision config s.registry = .wait on) :
      Turn config s id d .none { d with pc := .admitQueue on }
  | admitQueue {on : Option ResourceId} (hpc : d.pc = .admitQueue on) :
      Turn config s id d (.setQueued on) { d with pc := .admitSleep on }
  | admitWake {on : Option ResourceId} (hpc : d.pc = .admitSleep on)
      (hn : d.notified = some true) :
      Turn config s id d .none { d with notified := none, pc := .admitEnable }
  | admitNotify (hpc : d.pc = .admitNotify) :
      Turn config s id d .notify { d with notified := none, pc := .setRunning }
  | leaveQueue {error : TaskError} (hpc : d.pc = .leaveQueue error) :
      Turn config s id d .leave { d with pc := .leaveNotify error }
  | leaveNotify {error : TaskError} (hpc : d.pc = .leaveNotify error) :
      Turn config s id d .notify { d with pc := .settle (.error error) }
  | setRunning (hpc : d.pc = .setRunning) :
      Turn config s id d (.setState .running) { d with pc := .call }
  | pollEnded {joined : Joined Output} (hpc : d.pc = .pollBody) (hb : d.body = .ended joined) :
      Turn config s id d .none (d.join joined)
  | pollPending (hpc : d.pc = .pollBody) (hb : d.body.hasEnded = false) :
      Turn config s id d .none { d with pc := .pollToken }
  | tokenCancelled (hpc : d.pc = .pollToken) (hc : s.isCancelled d.token = true) :
      Turn config s id d .none { d with pc := .setCancelling }
  | tokenPending (hpc : d.pc = .pollToken) (hc : s.isCancelled d.token = false) :
      Turn config s id d .none { d with pc := .joinSleep }
  | joinWake (hpc : d.pc = .joinSleep)
      (hw : (d.body.hasEnded || s.isCancelled d.token) = true) :
      Turn config s id d .none { d with pc := .pollBody }
  | setCancelling (hpc : d.pc = .setCancelling) :
      Turn config s id d (.setState .cancelling) { d with pc := .joinCancelled }
  | joinCancelled {joined : Joined Output} (hpc : d.pc = .joinCancelled)
      (hb : d.body = .ended joined) : Turn config s id d .none (d.join joined)
  | dropSlot {joined : Joined Output} (hpc : d.pc = .dropSlot joined) :
      Turn config s id d .release { d with pc := .dropNotify joined }
  | dropNotify {joined : Joined Output} (hpc : d.pc = .dropNotify joined) :
      Turn config s id d .notify { d with pc := .finishEnable joined }
  | finishEnable {joined : Joined Output} (hpc : d.pc = .finishEnable joined) :
      Turn config s id d .none { d with notified := some false, pc := .finishCheck joined }
  | finishDone {joined : Joined Output} (hpc : d.pc = .finishCheck joined)
      (hl : ∀ e, s.registry.entry id = some e → e.liveChildren = 0) :
      Turn config s id d .none { d with notified := none, pc := .outcome joined }
  | finishWait {joined : Joined Output} {e : Entry} (hpc : d.pc = .finishCheck joined)
      (he : s.registry.entry id = some e) (hl : 0 < e.liveChildren) :
      Turn config s id d .cancelChildren { d with pc := .finishSleep joined }
  | finishWake {joined : Joined Output} (hpc : d.pc = .finishSleep joined)
      (hn : d.notified = some true) :
      Turn config s id d .none { d with notified := none, pc := .finishEnable joined }
  | outcome {joined : Joined Output} (hpc : d.pc = .outcome joined) :
      Turn config s id d .none
        { d with pc := .settle (outcomeOf joined (s.isCancelled d.token)) }
  | settle {outcome : Outcome Output} {e : Entry} (hpc : d.pc = .settle outcome)
      (he : s.registry.entry id = some e) :
      Turn config s id d (.settle (stateOfOutcome outcome)) { d with pc := .settleNotify outcome }
  | settleGone {outcome : Outcome Output} (hpc : d.pc = .settle outcome)
      (he : s.registry.entry id = none) :
      Turn config s id d (.settle (stateOfOutcome outcome)) { d with pc := .deliver outcome }
  | settleNotify {outcome : Outcome Output} (hpc : d.pc = .settleNotify outcome) :
      Turn config s id d .notify { d with pc := .deliver outcome }
  | deliver {outcome : Outcome Output} (hpc : d.pc = .deliver outcome) :
      Turn config s id d .none { d with pc := .done outcome }
  | unwindSlot (hpc : d.pc = .unwindSlot) :
      Turn config s id d .release { d with pc := .unwindNotify }
  | unwindNotify (hpc : d.pc = .unwindNotify) :
      Turn config s id d .notify { d with pc := .dead }

/-- **The program of a driver makes no other moves.** -/
theorem turn_cases (h : turn config s id d = some (op, d')) : Turn config s id d op d' := by
  unfold turn at h
  split at h
  · cases h; exact .admitEnable ‹_›
  · split at h
    · split at h
      · cases h; exact .admitQueued ‹_› ‹_› ‹_›
      · cases h; exact .admitUnqueued ‹_› ‹_› (by simpa using ‹¬d.ticket.queued = true›)
    · cases h; exact .admitFail ‹_› ‹_›
    · cases h; exact .admitWait ‹_› ‹_›
  · cases h; exact .admitQueue ‹_›
  · split at h
    · cases h; exact .admitWake ‹_› ‹_›
    · cases h
  · cases h; exact .admitNotify ‹_›
  · cases h; exact .leaveQueue ‹_›
  · cases h; exact .leaveNotify ‹_›
  · cases h; exact .setRunning ‹_›
  · cases h
  · split at h
    · cases h; exact .pollEnded ‹_› ‹_›
    · rename_i hpc _ hb
      cases h
      refine .pollPending hpc ?_
      cases hbody : d.body with
      | unspawned => rfl
      | running => rfl
      | ended joined => exact absurd hbody (hb joined)
  · split at h
    · cases h; exact .tokenCancelled ‹_› ‹_›
    · cases h; exact .tokenPending ‹_› (by simpa using ‹¬s.isCancelled d.token = true›)
  · split at h
    · cases h; exact .joinWake ‹_› ‹_›
    · cases h
  · cases h; exact .setCancelling ‹_›
  · split at h
    · cases h; exact .joinCancelled ‹_› ‹_›
    · cases h
  · cases h; exact .dropSlot ‹_›
  · cases h; exact .dropNotify ‹_›
  · cases h; exact .finishEnable ‹_›
  · rename_i hpc
    cases he : s.registry.entry id with
    | none =>
      simp only [he, Option.all_none, if_true] at h
      cases h
      exact .finishDone hpc (by simp [he])
    | some e =>
      simp only [he, Option.all_some, decide_eq_true_eq] at h
      split at h
      · cases h
        exact .finishDone hpc (by simp_all)
      · cases h
        exact .finishWait hpc he (by omega)
  · split at h
    · cases h; exact .finishWake ‹_› ‹_›
    · cases h
  · cases h; exact .outcome ‹_›
  · rename_i hpc
    cases he : s.registry.entry id with
    | none =>
      simp only [he, Option.isSome_none] at h
      cases h
      exact .settleGone hpc he
    | some e =>
      simp only [he, Option.isSome_some, if_true] at h
      cases h
      exact .settle hpc he
  · cases h; exact .settleNotify ‹_›
  · cases h; exact .deliver ‹_›
  · cases h
  · cases h; exact .unwindSlot ‹_›
  · cases h; exact .unwindNotify ‹_›
  · cases h

/-- A driver with no next move waits for a notification, for foreign code or
for a cancellation, or is over. -/
theorem turn_eq_none (h : turn config s id d = none) :
    (∃ on, d.pc = .admitSleep on ∧ d.notified ≠ some true) ∨ d.pc = .call ∨
    (d.pc = .joinSleep ∧ d.body.hasEnded = false ∧ s.isCancelled d.token = false) ∨
    (d.pc = .joinCancelled ∧ d.body.hasEnded = false) ∨
    (∃ joined, d.pc = .finishSleep joined ∧ d.notified ≠ some true) ∨
    (∃ outcome, d.pc = .done outcome) ∨ d.pc = .dead := by
  unfold turn at h
  cases hpc : d.pc <;> simp only [hpc] at h
  case admitCheck =>
    exfalso
    split at h
    · split at h <;> cases h
    · cases h
    · cases h
  case admitSleep on => simp_all
  case pollBody => split at h <;> cases h
  case pollToken => split at h <;> cases h
  case joinSleep => simp_all
  case joinCancelled =>
    cases hb : d.body <;> simp_all [Body.hasEnded]
  case finishCheck => split at h <;> cases h
  case finishSleep joined => simp_all
  all_goals simp_all

/-! ### One step of the whole -/

/-- How foreign code, or the token in `admit`, moves a driver. -/
inductive Nudge (s : State Output) (id : TaskId) (d : Driver Output) :
    Action Output → Driver Output → Prop
  | giveUp {on : Option ResourceId} (hpc : d.pc = .admitSleep on)
      (hc : s.isCancelled d.token = true) : Nudge s id d (.giveUp id) (d.refuse .cancelled)
  | runReturns (hpc : d.pc = .call) :
      Nudge s id d (.runReturns id) { d with body := .running, pc := .pollBody }
  | runPanics (hpc : d.pc = .call) :
      Nudge s id d (.runPanics id) { d with pc := if d.ticket.queued then .unwindSlot else .dead }
  | bodyEnds {joined : Joined Output} (hb : d.body = .running) :
      Nudge s id d (.bodyEnds id joined) { d with body := .ended joined }

/-- What `start` leaves of the whole. -/
def State.started (s : State Output) (config : Config) (id : TaskId) (kind : TaskKind)
    (parent : Option TaskId) (token : CancelToken TaskId) (submitted : SystemTime) :
    State Output :=
  { s.send (s.registry.start config id kind parent token submitted) with
    drivers := Function.update s.drivers id
      (some (.start kind (s.registry.ticket config kind parent) token))
    ids := s.ids ++ [id] }

/-- Where a new task's token comes from. -/
inductive Lineage (s : State Output) (id : TaskId) :
    Option TaskId → CancelToken TaskId → Prop
  | root : Lineage s id none (.root id)
  | child {p : TaskId} {dp : Driver Output} (hp : s.drivers p = some dp)
      (hcalled : dp.called = true) : Lineage s id (some p) (dp.token.child id)

/-- The action submits the task under this parent. -/
inductive Submits (id : TaskId) (kind : TaskKind) (submitted : SystemTime) :
    Action Output → Option TaskId → Prop
  | submit : Submits id kind submitted (.submit id kind submitted) none
  | submitChild {p : TaskId} : Submits id kind submitted (.submitChild p id kind submitted) (some p)

/-- `add_resource`, `set_resource_state` and `set_resource_ready`. -/
def Action.changesResources : Action Output → Bool
  | addResource _ _ | setResourceState _ _ | setResourceReady _ _ => true
  | _ => false

/-- The steps of the runtime, by what they touch. -/
inductive Stepped (config : Config) (s : State Output) : Action Output → State Output → Prop
  | start {a : Action Output} {id : TaskId} {kind : TaskKind} {parent : Option TaskId}
      {token : CancelToken TaskId} {submitted : SystemTime} (hfresh : s.drivers id = none)
      (hsub : Submits id kind submitted a parent) (hlin : Lineage s id parent token) :
      Stepped config s a (s.started config id kind parent token submitted)
  | cancel {id : TaskId} {e : Entry} (he : s.registry.entry id = some e) (hl : e.live = true) :
      Stepped config s (.cancel id) { s with fired := s.fired ++ [e.token.cell] }
  | cancelIdle {id : TaskId} : Stepped config s (.cancel id) s
  | cancelAll : Stepped config s .cancelAll { s with fired := s.fired ++ s.registry.liveTokens }
  | resources {a : Action Output} {resources : Table ResourceId Resource}
      (ha : a.changesResources = true) :
      Stepped config s a (s.setResources { s.registry with resources := resources })
  | notifyWaiters (hn : 0 < s.notifies) :
      Stepped config s .notifyWaiters { s.notifyWaiters with notifies := s.notifies - 1 }
  | idle : Stepped config s .idle { s with idlers := s.idlers ++ [⟨none, .enable⟩] }
  | idleStep {index : Nat} {i i' : Idler} (hi : s.idlers[index]? = some i)
      (hi' : i.step s.registry = some i') :
      Stepped config s (.idleStep index) { s with idlers := s.idlers.set index i' }
  | drive {id : TaskId} {d d' : Driver Output} {op : Op} (hd : s.drivers id = some d)
      (hturn : Turn config s id d op d') :
      Stepped config s (.drive id) ((s.perform config id d op).setDriver id d')
  | nudge {a : Action Output} {id : TaskId} {d d' : Driver Output} (hd : s.drivers id = some d)
      (hn : Nudge s id d a d') : Stepped config s a (s.setDriver id d')
  | progress {id : TaskId} {p : Progress} {d : Driver Output} (hd : s.drivers id = some d)
      (hcalled : d.called = true) :
      Stepped config s (.progress id p)
        { s.send ((s.registry.reportProgress config s.now id p).1,
            (s.registry.reportProgress config s.now id p).2.1) with
          timers := s.timers ++
            ((s.registry.reportProgress config s.now id p).2.2.map (id, ·)).toList }
  | flush {id : TaskId} {due : Instant} (ht : (id, due) ∈ s.timers) (hdue : due ≤ s.now) :
      Stepped config s (.flush id)
        { s.send (s.registry.flushProgress s.now id) with timers := s.timers.erase (id, due) }
  | tick {elapsed : Nat} {wall : SystemTime} :
      Stepped config s (.tick elapsed wall) { s with now := s.now + elapsed, wall := wall }

/-- **The runtime makes no other steps.** -/
theorem step_cases {a : Action Output} {s' : State Output} (h : step config s a = some s') :
    Stepped config s a s' := by
  cases a with
  | submit id kind submitted =>
    simp only [step, State.start] at h
    split at h
    · cases h
    · rename_i hfresh
      cases h
      exact .start (by simpa using hfresh) .submit .root
  | submitChild parent id kind submitted =>
    simp only [step, Option.bind_eq_bind, Option.bind_eq_some_iff] at h
    obtain ⟨p, hp, u, hu, h⟩ := h
    simp only [State.start] at h
    split at h
    · cases h
    · rename_i hfresh
      cases h
      exact .start (by simpa using hfresh) .submitChild (.child hp (by simpa using hu))
  | cancel id =>
    simp only [step] at h
    split at h
    · cases h; exact .cancelIdle
    · split at h
      · cases h; exact .cancel ‹_› ‹_›
      · cases h; exact .cancelIdle
  | cancelAll => cases h; exact .cancelAll
  | addResource id state =>
    simp only [step] at h
    split at h
    · cases h
    · cases h; exact .resources rfl
  | setResourceState id state => cases h; exact .resources rfl
  | setResourceReady id value => cases h; exact .resources rfl
  | notifyWaiters =>
    simp only [step] at h
    split at h
    · cases h
    · cases h; exact .notifyWaiters (by omega)
  | idle => cases h; exact .idle
  | idleStep index =>
    simp only [step, Option.bind_eq_bind, Option.bind_eq_some_iff] at h
    obtain ⟨i, hi, i', hi', h⟩ := h
    cases h
    exact .idleStep hi hi'
  | drive id =>
    simp only [step, Option.bind_eq_bind, Option.bind_eq_some_iff] at h
    obtain ⟨d, hd, ⟨op, d'⟩, hturn, h⟩ := h
    cases h
    exact .drive hd (turn_cases hturn)
  | giveUp id =>
    simp only [step, Option.bind_eq_bind, Option.bind_eq_some_iff] at h
    obtain ⟨d, hd, h⟩ := h
    split at h
    · split at h
      · cases h; exact .nudge hd (.giveUp ‹_› ‹_›)
      · cases h
    · cases h
  | runReturns id =>
    simp only [step, Option.bind_eq_bind, Option.bind_eq_some_iff] at h
    obtain ⟨d, hd, u, hu, h⟩ := h
    cases h
    exact .nudge hd (.runReturns (by cases hpc : d.pc <;> simp_all [Pc.isCall]))
  | runPanics id =>
    simp only [step, Option.bind_eq_bind, Option.bind_eq_some_iff] at h
    obtain ⟨d, hd, u, hu, h⟩ := h
    cases h
    exact .nudge hd (.runPanics (by cases hpc : d.pc <;> simp_all [Pc.isCall]))
  | bodyEnds id joined =>
    simp only [step, Option.bind_eq_bind, Option.bind_eq_some_iff] at h
    obtain ⟨d, hd, u, hu, h⟩ := h
    cases h
    exact .nudge hd (.bodyEnds (by cases hb : d.body <;> simp_all [Body.isRunning]))
  | progress id p =>
    simp only [step, Option.bind_eq_bind, Option.bind_eq_some_iff] at h
    obtain ⟨d, hd, u, hu, h⟩ := h
    cases h
    exact .progress hd (by simpa using hu)
  | flush id =>
    simp only [step, Option.bind_eq_bind, Option.bind_eq_some_iff] at h
    obtain ⟨⟨x, due⟩, ht, h⟩ := h
    cases h
    have hmem := List.mem_of_find?_eq_some ht
    have hp := List.find?_some ht
    simp only [decide_eq_true_eq] at hp
    obtain ⟨rfl, hdue⟩ := hp
    exact .flush hmem hdue
  | tick elapsed wall => cases h; exact .tick

theorem Stepped.drive_inv {s' : State Output} (h : Stepped config s (.drive id) s') :
    ∃ d op d', s.drivers id = some d ∧ Turn config s id d op d' ∧
      s' = (s.perform config id d op).setDriver id d' := by
  cases h with
  | start _ hsub _ => cases hsub
  | resources ha => cases ha
  | drive hd hturn => exact ⟨_, _, _, hd, hturn, rfl⟩
  | nudge _ hn => cases hn

end FilePeeker
