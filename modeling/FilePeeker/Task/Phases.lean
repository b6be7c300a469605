import FilePeeker.Task.LockSections
import FilePeeker.Task.Turn

/-!
# Where a driver stands, and what the registry shows then

Properties of a driver's place in its program, each with the moves that change
it:

* `Driver.inQueue`: its ticket is in its scope's queue.
* `Driver.holdsSlot`: it holds a place of its scope.
* `Pc.isNotifying`: its next move is a `notify_waiters`.
* `Pc.settled`: it is past its `settle` lock section, with this outcome.
* `Driver.Ok`: how its place and its body fit together.
* `Pc.shows`: the states its entry can be in.

`Moved` says how one driver can change in one step of the whole, and
`Stepped.driver` that it changes in no other way.
-/

namespace FilePeeker

variable {Output : Type} {config : Config} {s s' : State Output} {id x : TaskId}
  {d d' : Driver Output} {op : Op} {a : Action Output}

/-! ### Places -/

/-- Still in the loop of `admit`. -/
def Pc.inAdmit : Pc Output → Bool
  | admitEnable | admitCheck | admitQueue _ | admitSleep _ => true
  | _ => false

/-- Not yet admitted, and not yet through `leave_queue`'s lock section. -/
def Pc.inQueue : Pc Output → Bool
  | leaveQueue _ => true
  | pc => pc.inAdmit

/-- Between the admitting lock section and the one of `Slot::drop`. -/
def Pc.holdsSlot : Pc Output → Bool
  | admitNotify | setRunning | call | pollBody | pollToken | joinSleep | setCancelling
  | joinCancelled | dropSlot _ | unwindSlot => true
  | _ => false

/-- The next move is a `notify_waiters`. -/
def Pc.isNotifying : Pc Output → Bool
  | admitNotify | leaveNotify _ | dropNotify _ | settleNotify _ | unwindNotify => true
  | _ => false

/-- Past the lock section of `settle`. -/
def Pc.settled : Pc Output → Option (Outcome Output)
  | settleNotify o | deliver o | done o => some o
  | _ => none

/-- Places only a queued ticket comes to. -/
def Pc.needsQueue : Pc Output → Bool
  | admitNotify | leaveQueue _ | leaveNotify _ | dropSlot _ | dropNotify _ | unwindSlot
  | unwindNotify => true
  | _ => false

def Driver.inQueue (d : Driver Output) : Bool := d.ticket.queued && d.pc.inQueue

def Driver.holdsSlot (d : Driver Output) : Bool := d.ticket.queued && d.pc.holdsSlot

/-- What a place says of the body. -/
def Pc.bodyOk : Pc Output → Body Output → Prop
  | pollBody, b | pollToken, b | joinSleep, b | setCancelling, b | joinCancelled, b =>
    b ≠ .unspawned
  | dropSlot j, b | dropNotify j, b | finishEnable j, b | finishCheck j, b | finishSleep j, b
  | outcome j, b => b = .ended j
  | settle o, b | settleNotify o, b | deliver o, b | done o, b =>
    (b = .unspawned ∧ ∃ error, o = .error error) ∨ ∃ j c, b = .ended j ∧ o = outcomeOf j c
  | _, b => b = .unspawned

/-- How a driver's place, ticket and body fit together. -/
structure Driver.Ok (d : Driver Output) : Prop where
  queued : d.pc.needsQueue = true → d.ticket.queued = true
  body : d.pc.bodyOk d.body

/-- The states a retained entry can be in while its driver stands at a place. -/
def Pc.shows : Pc Output → Body Output → TaskState → Prop
  | admitEnable, _, st | admitCheck, _, st | admitQueue _, _, st | admitNotify, _, st
  | leaveQueue _, _, st | leaveNotify _, _, st | setRunning, _, st => ∃ on, st = .queued on
  | admitSleep on, _, st => st = .queued on
  | call, _, st | pollBody, _, st | pollToken, _, st | joinSleep, _, st | setCancelling, _, st
  | unwindSlot, _, st | unwindNotify, _, st | dead, _, st => st = .running
  | joinCancelled, _, st => st = .cancelling
  | dropSlot _, _, st | dropNotify _, _, st | finishEnable _, _, st | finishCheck _, _, st
  | finishSleep _, _, st | outcome _, _, st => st = .running ∨ st = .cancelling
  | settle _, .unspawned, st => ∃ on, st = .queued on
  | settle _, _, st => st = .running ∨ st = .cancelling
  | settleNotify o, _, st | deliver o, _, st | done o, _, st => st = stateOfOutcome o

@[simp] theorem stateOf_isTerminal (e : TaskError) : (stateOf e).isTerminal = true := by
  cases e <;> rfl

@[simp] theorem stateOfOutcome_isTerminal (o : Outcome Output) :
    (stateOfOutcome o).isTerminal = true := by
  cases o with
  | ok output => rfl
  | error e => exact stateOf_isTerminal e

/-- **A retained entry is terminal exactly when its driver is past `settle`.** -/
theorem Pc.shows_isTerminal {pc : Pc Output} {b : Body Output} {st : TaskState}
    (h : pc.shows b st) : st.isTerminal = pc.settled.isSome := by
  cases pc
  case settle o =>
    cases b with
    | unspawned =>
      obtain ⟨on, rfl⟩ := h
      rfl
    | running => rcases h with rfl | rfl <;> rfl
    | ended j => rcases h with rfl | rfl <;> rfl
  case dropSlot | dropNotify | finishEnable | finishCheck | finishSleep | outcome =>
    rcases h with rfl | rfl <;> rfl
  case settleNotify | deliver | done =>
    rw [show st = stateOfOutcome _ from h, stateOfOutcome_isTerminal]
    rfl
  case admitEnable | admitCheck | admitQueue | admitNotify | leaveQueue | leaveNotify
      | setRunning =>
    obtain ⟨on, rfl⟩ := h
    rfl
  all_goals
    obtain rfl := h
    rfl

/-! ### What the moves keep -/

@[simp] theorem Driver.start_token (kind : TaskKind) (ticket : Ticket)
    (token : CancelToken TaskId) : (Driver.start kind ticket token : Driver Output).token = token :=
  rfl
@[simp] theorem Driver.start_ticket (kind : TaskKind) (ticket : Ticket)
    (token : CancelToken TaskId) :
    (Driver.start kind ticket token : Driver Output).ticket = ticket := rfl
@[simp] theorem Driver.wake_pc (d : Driver Output) : d.wake.pc = d.pc := rfl
@[simp] theorem Driver.wake_ticket (d : Driver Output) : d.wake.ticket = d.ticket := rfl
@[simp] theorem Driver.wake_token (d : Driver Output) : d.wake.token = d.token := rfl
@[simp] theorem Driver.wake_body (d : Driver Output) : d.wake.body = d.body := rfl
@[simp] theorem Driver.wake_requires (d : Driver Output) : d.wake.requires = d.requires := rfl

/-- What a driver was started with. -/
structure Driver.SameStart (d d' : Driver Output) : Prop where
  requires : d'.requires = d.requires
  ticket : d'.ticket = d.ticket
  token : d'.token = d.token

theorem Driver.SameStart.refl (d : Driver Output) : d.SameStart d := ⟨rfl, rfl, rfl⟩

theorem Driver.SameStart.trans {d₁ d₂ d₃ : Driver Output} (h : d₁.SameStart d₂)
    (g : d₂.SameStart d₃) : d₁.SameStart d₃ :=
  ⟨g.requires.trans h.requires, g.ticket.trans h.ticket, g.token.trans h.token⟩

theorem Turn.sameStart (h : Turn config s id d op d') : d.SameStart d' := by
  cases h <;> exact ⟨rfl, rfl, rfl⟩

theorem Nudge.sameStart (h : Nudge s id d a d') : d.SameStart d' := by
  cases h <;> exact ⟨rfl, rfl, rfl⟩

theorem Turn.body (h : Turn config s id d op d') : d'.body = d.body := by
  cases h <;> rfl

theorem Driver.join_ok {joined : Joined Output} (hb : d.body = .ended joined) :
    (d.join joined).Ok := by
  unfold Driver.join
  cases hq : d.ticket.queued with
  | false => exact ⟨by simp [Pc.needsQueue], by simpa [Pc.bodyOk] using hb⟩
  | true => exact ⟨fun _ => hq, by simpa [Pc.bodyOk] using hb⟩

theorem Driver.refuse_ok {error : TaskError} (hb : d.body = .unspawned) :
    (d.refuse error).Ok := by
  unfold Driver.refuse
  cases hq : d.ticket.queued with
  | false => exact ⟨by simp [Pc.needsQueue], by simp [Pc.bodyOk, hb]⟩
  | true => exact ⟨fun _ => hq, by simpa [Pc.bodyOk] using hb⟩

theorem Turn.ok (h : Turn config s id d op d') (hd : d.Ok) : d'.Ok := by
  obtain ⟨hq, hb⟩ := hd
  cases h with
  | admitFail hpc hadm => exact Driver.refuse_ok (by simpa [hpc, Pc.bodyOk] using hb)
  | pollEnded hpc hend => exact Driver.join_ok hend
  | joinCancelled hpc hend => exact Driver.join_ok hend
  | outcome hpc =>
    rw [hpc] at hb
    exact ⟨by simp [Pc.needsQueue], .inr ⟨_, _, hb, rfl⟩⟩
  | leaveNotify hpc =>
    rw [hpc] at hb
    exact ⟨by simp [Pc.needsQueue], .inl ⟨hb, _, rfl⟩⟩
  | _ =>
    rename_i hpc
    constructor <;> simp_all [Pc.needsQueue, Pc.bodyOk]

theorem Nudge.ok (h : Nudge s id d a d') (hd : d.Ok) : d'.Ok := by
  obtain ⟨hq, hb⟩ := hd
  cases h with
  | giveUp hpc hc => exact Driver.refuse_ok (by simpa [hpc, Pc.bodyOk] using hb)
  | runReturns hpc => exact ⟨by simp [Pc.needsQueue], by simp [Pc.bodyOk]⟩
  | runPanics hpc =>
    rw [hpc] at hb
    cases hqueued : d.ticket.queued with
    | false => exact ⟨by simp [Pc.needsQueue], hb⟩
    | true => exact ⟨fun _ => hqueued, hb⟩
  | bodyEnds hrun =>
    refine ⟨hq, ?_⟩
    rw [hrun] at hb
    cases hpc : d.pc <;> simp_all [Pc.bodyOk]

/-! ### How one driver changes in one step -/

/-- How the driver of `x` can change in a step. -/
inductive Moved (config : Config) (s : State Output) (a : Action Output) (x : TaskId)
    (d : Driver Output) : Driver Output → Prop
  | same : Moved config s a x d d
  | woken : Moved config s a x d d.wake
  | turn {op : Op} {d' : Driver Output} (ha : a = .drive x) (h : Turn config s x d op d') :
      Moved config s a x d d'
  | nudge {d' : Driver Output} (h : Nudge s x d a d') : Moved config s a x d d'

theorem Moved.sameStart (h : Moved config s a x d d') : d.SameStart d' := by
  cases h with
  | same => exact .refl d
  | woken => exact ⟨rfl, rfl, rfl⟩
  | turn _ h => exact h.sameStart
  | nudge h => exact h.sameStart

theorem Moved.ok (h : Moved config s a x d d') (hd : d.Ok) : d'.Ok := by
  cases h with
  | same => exact hd
  | woken => exact ⟨hd.queued, hd.body⟩
  | turn _ h => exact h.ok hd
  | nudge h => exact h.ok hd

@[simp] theorem State.setDriver_drivers (s : State Output) (id : TaskId) (d : Driver Output) :
    (s.setDriver id d).drivers = Function.update s.drivers id (some d) := rfl

@[simp] theorem State.send_drivers (s : State Output) (r : Registry × List TaskEvent) :
    (s.send r).drivers = s.drivers := rfl

@[simp] theorem State.notifyWaiters_drivers (s : State Output) (x : TaskId) :
    s.notifyWaiters.drivers x = (s.drivers x).map Driver.wake := rfl

theorem State.perform_drivers (s : State Output) (config : Config) (id : TaskId)
    (d : Driver Output) (op : Op) (x : TaskId) :
    (s.perform config id d op).drivers x = s.drivers x ∨
    (op = .notify ∧ (s.perform config id d op).drivers x = (s.drivers x).map Driver.wake) := by
  cases op with
  | notify => exact .inr ⟨rfl, rfl⟩
  | _ => exact .inl rfl

@[simp] theorem State.perform_ids (s : State Output) (config : Config) (id : TaskId)
    (d : Driver Output) (op : Op) : (s.perform config id d op).ids = s.ids := by
  cases op <;> rfl

@[simp] theorem State.perform_notifies (s : State Output) (config : Config) (id : TaskId)
    (d : Driver Output) (op : Op) : (s.perform config id d op).notifies = s.notifies := by
  cases op <;> rfl

/-- A driver there was before a step is there after it, moved. -/
theorem Stepped.driver_forward (h : Stepped config s a s') (hd : s.drivers x = some d) :
    ∃ d', s'.drivers x = some d' ∧ Moved config s a x d d' := by
  cases h with
  | @start _ id kind parent token submitted hfresh _ _ =>
    have hne : x ≠ id := fun he => by rw [he, hfresh] at hd; cases hd
    exact ⟨d, by simpa [State.started, Function.update_of_ne hne] using hd, .same⟩
  | notifyWaiters => exact ⟨d.wake, by simp [hd], .woken⟩
  | @drive id dm dm' op hdm hturn =>
    by_cases hx : x = id
    · subst hx
      rw [hd] at hdm
      cases hdm
      exact ⟨dm', by simp, .turn rfl hturn⟩
    · simp only [State.setDriver_drivers, Function.update_of_ne hx]
      rcases s.perform_drivers config id dm op x with hp | ⟨_, hp⟩
      · exact ⟨d, by rw [hp, hd], .same⟩
      · exact ⟨d.wake, by rw [hp, hd]; rfl, .woken⟩
  | @nudge _ id dm dm' hdm hn =>
    by_cases hx : x = id
    · subst hx
      rw [hd] at hdm
      cases hdm
      exact ⟨dm', by simp, .nudge hn⟩
    · exact ⟨d, by simpa [Function.update_of_ne hx] using hd, .same⟩
  | cancel | cancelIdle | cancelAll | resources | idle | idleStep | progress | flush | tick =>
    exact ⟨d, hd, .same⟩

@[simp] theorem State.started_driver (s : State Output) (config : Config) (kind : TaskKind)
    (parent : Option TaskId) (token : CancelToken TaskId) (submitted : SystemTime) :
    (s.started config id kind parent token submitted).drivers id =
      some (.start kind (s.registry.ticket config kind parent) token) :=
  Function.update_self _ _ _

/-- The driver a step starts. -/
inductive Started (config : Config) (s : State Output) (a : Action Output) (x : TaskId) :
    State Output → Prop
  | mk {kind : TaskKind} {parent : Option TaskId} {token : CancelToken TaskId}
      {submitted : SystemTime} (hfresh : s.drivers x = none)
      (hsub : Submits x kind submitted a parent) (hlin : Lineage s x parent token) :
      Started config s a x (s.started config x kind parent token submitted)

/-- **A driver there is after a step was started by it, or was there before.** -/
theorem Stepped.driver (h : Stepped config s a s') (hd : s'.drivers x = some d') :
    (s.drivers x = none ∧ Started config s a x s') ∨
    ∃ d, s.drivers x = some d ∧ Moved config s a x d d' := by
  cases hx : s.drivers x with
  | some d =>
    obtain ⟨d'', hd'', hm⟩ := h.driver_forward hx
    rw [hd] at hd''
    cases hd''
    exact .inr ⟨d, rfl, hm⟩
  | none =>
    refine .inl ⟨rfl, ?_⟩
    cases h with
    | @start _ id kind parent token submitted hfresh hsub hlin =>
      by_cases he : x = id
      · subst he; exact .mk hfresh hsub hlin
      · simp [State.started, Function.update_of_ne he, hx] at hd
    | notifyWaiters => simp [hx] at hd
    | @drive id dm dm' op hdm hturn =>
      have hne : x ≠ id := fun he => by rw [he, hdm] at hx; cases hx
      simp only [State.setDriver_drivers, Function.update_of_ne hne] at hd
      rcases s.perform_drivers config id dm op x with hp | ⟨_, hp⟩
      · rw [hp, hx] at hd; cases hd
      · rw [hp, hx] at hd; cases hd
    | @nudge _ id dm dm' hdm hn =>
      have hne : x ≠ id := fun he => by rw [he, hdm] at hx; cases hx
      simp [Function.update_of_ne hne, hx] at hd
    | cancel | cancelIdle | cancelAll | resources | idle | idleStep | progress | flush | tick =>
      exact absurd hd (by simp [State.setResources, State.send, hx])

/-! ### Quiet states -/

/-- The task's driver has no next move. -/
structure State.Stuck (config : Config) (s : State Output) (x : TaskId) : Prop where
  drive : step config s (.drive x) = none
  giveUp : step config s (.giveUp x) = none

/-- No driver has a next move, and no `notify_waiters` is still to come. -/
structure State.Quiet (config : Config) (s : State Output) : Prop where
  stuck : ∀ x, s.Stuck config x
  notifies : s.notifies = 0

/-- Where a driver without a next move is. -/
theorem State.Stuck.cases (h : s.Stuck config x) (hd : s.drivers x = some d) :
    (∃ on, d.pc = .admitSleep on ∧ d.notified ≠ some true ∧ s.isCancelled d.token = false) ∨
    d.pc = .call ∨
    (d.pc = .joinSleep ∧ d.body.hasEnded = false ∧ s.isCancelled d.token = false) ∨
    (d.pc = .joinCancelled ∧ d.body.hasEnded = false) ∨
    (∃ joined, d.pc = .finishSleep joined ∧ d.notified ≠ some true) ∨
    (∃ outcome, d.pc = .done outcome) ∨ d.pc = .dead := by
  have hturn : turn config s x d = none := by
    have := h.drive
    simp only [step, hd, Option.bind_eq_bind, Option.bind_some] at this
    cases ht : turn config s x d with
    | none => rfl
    | some r => rw [ht] at this; cases this
  rcases turn_eq_none hturn with ⟨on, hpc, hn⟩ | hcase
  · refine .inl ⟨on, hpc, hn, ?_⟩
    have := h.giveUp
    simp only [step, hd, Option.bind_eq_bind, Option.bind_some, hpc] at this
    split at this
    · cases this
    · simp_all
  · exact .inr hcase

end FilePeeker
