import FilePeeker.Lib.Steps
import FilePeeker.Task.Registry

/-!
# The runtime: drivers, bodies and their interleavings

Every task has a driver, a tokio task that admits it, runs its body, waits for
its children and settles it.  A driver is modelled by where it stands (`Pc`) and
its local variables (`Driver`); `turn` is its program, one lock section, one
`notify_waiters`, one poll or one read of a token at a time.  `State` is the
registry with all drivers, tokens, timers and sleepers, and `step` is what one
action of anybody does to it:

* callers: `submit`, `cancel`, `cancelAll`, the resources, `idle`;
* bodies: `submitChild`, `progress`, the ways `run` and the future it returns
  can end;
* drivers: `drive`, and `giveUp` for the other branch of the wait in `admit`;
* timers and clocks: `flush`, `tick`.

The lists `ids`, `admissions`, `settles` and `events` are history: nothing the
runtime does reads them.
-/

namespace FilePeeker

variable {Output : Type}

/-- How a body ended, as its join handle says. -/
inductive Joined (Output : Type)
  | ok (output : Output)
  | err (error : IoError)
  | panicked (message : String)
deriving DecidableEq

/-- The tokio task a body runs as. -/
inductive Body (Output : Type)
  | unspawned
  | running
  | ended (joined : Joined Output)
deriving DecidableEq

/-- The body's join handle is ready. -/
def Body.hasEnded : Body Output → Bool
  | ended _ => true
  | unspawned | running => false

/-- The future `run` returned has not ended. -/
def Body.isRunning : Body Output → Bool
  | running => true
  | unspawned | ended _ => false

/-- What `drive` returns, and the handle receives. -/
abbrev Outcome (Output : Type) := Except TaskError Output

/-- Where a driver stands: what it does next. -/
inductive Pc (Output : Type)
  /-- `admit`: registers with `changed` before the check. -/
  | admitEnable
  /-- `admit`: the lock section that decides. -/
  | admitCheck
  /-- `admit`: decided to wait, `set_queued` next. -/
  | admitQueue (waitingOn : Option ResourceId)
  /-- `admit`: in the `select!` on the notification and the token. -/
  | admitSleep (waitingOn : Option ResourceId)
  /-- `admit`: admitted from the queue, its `notify_waiters` next. -/
  | admitNotify
  /-- `leave_queue`: its lock section, then its `notify_waiters`. -/
  | leaveQueue (error : TaskError)
  | leaveNotify (error : TaskError)
  | setRunning
  /-- Inside the call `kind.run(cx)`. -/
  | call
  /-- The biased `select!`: polls the body, then the token, then sleeps. -/
  | pollBody
  | pollToken
  | joinSleep
  | setCancelling
  /-- `body.await`, after `Cancelling`. -/
  | joinCancelled
  /-- `drop(slot)`: its lock section, then its `notify_waiters`. -/
  | dropSlot (joined : Joined Output)
  | dropNotify (joined : Joined Output)
  | finishEnable (joined : Joined Output)
  | finishCheck (joined : Joined Output)
  | finishSleep (joined : Joined Output)
  /-- The `match` on how the body ended, which reads the token. -/
  | outcome (joined : Joined Output)
  | settle (outcome : Outcome Output)
  | settleNotify (outcome : Outcome Output)
  /-- `outcome_tx.send`. -/
  | deliver (outcome : Outcome Output)
  | done (outcome : Outcome Output)
  /-- `run` panicked in the driver: unwinding drops the slot. -/
  | unwindSlot
  | unwindNotify
  | dead
deriving DecidableEq

/-- The driver is inside `kind.run(cx)`. -/
def Pc.isCall : Pc Output → Bool
  | call => true
  | _ => false

/-- One driver: the arguments of `drive`, its registration with `changed`
(`some true` once woken), its body, and where it stands. -/
structure Driver (Output : Type) where
  requires : List ResourceId
  ticket : Ticket
  token : CancelToken TaskId
  notified : Option Bool
  body : Body Output
  pc : Pc Output
deriving DecidableEq

/-- One caller of `idle`, between registering and returning. -/
inductive IdlePc
  | enable
  | check
  | sleep
  | done
deriving DecidableEq, Repr

structure Idler where
  notified : Option Bool
  pc : IdlePc
deriving DecidableEq, Repr

/-- One event as it went out on the broadcast channel. -/
structure Sent where
  time : Instant
  event : TaskEvent
deriving DecidableEq, Repr

structure State (Output : Type) where
  registry : Registry
  drivers : TaskId → Option (Driver Output)
  /-- The tokens that were cancelled themselves, by the task they belong to. -/
  fired : List TaskId
  /-- The flushes `report_progress` has spawned, and when each may run. -/
  timers : List (TaskId × Instant)
  /-- Resource changes whose `notify_waiters` is still to come. -/
  notifies : Nat
  idlers : List Idler
  now : Instant
  wall : SystemTime
  /-- Every event sent so far. -/
  events : List Sent
  /-- Every task submitted so far; a task's place here is its `seq`. -/
  ids : List TaskId
  /-- The roots that took a place in their scope, in the order they did. -/
  admissions : List TaskId
  /-- The tasks whose `settle` lock section has run, in that order. -/
  settles : List TaskId

/-- `Runtime::new`. -/
def State.init : State Output where
  registry := .default
  drivers := fun _ => none
  fired := []
  timers := []
  notifies := 0
  idlers := []
  now := 0
  wall := 0
  events := []
  ids := []
  admissions := []
  settles := []

/-- `token.is_cancelled()`. -/
def State.isCancelled (s : State Output) (token : CancelToken TaskId) : Bool :=
  token.isCancelled s.fired

/-- Takes the registry of a lock section and sends its events. -/
def State.send (s : State Output) (r : Registry × List TaskEvent) : State Output :=
  { s with registry := r.1, events := s.events ++ r.2.map (Sent.mk s.now) }

def State.setDriver (s : State Output) (id : TaskId) (d : Driver Output) : State Output :=
  { s with drivers := Function.update s.drivers id (some d) }

/-- A registration that is notified is woken; where there is none, nothing is. -/
def wake (notified : Option Bool) : Option Bool := notified.map fun _ => true

def Driver.wake (d : Driver Output) : Driver Output :=
  { d with notified := FilePeeker.wake d.notified }

def Idler.wake (i : Idler) : Idler := { i with notified := FilePeeker.wake i.notified }

/-- `changed.notify_waiters()`: wakes everyone who has registered. -/
def State.notifyWaiters (s : State Output) : State Output :=
  { s with
    drivers := fun id => (s.drivers id).map Driver.wake
    idlers := s.idlers.map Idler.wake }

/-! ### The lock sections of a driver -/

/-- What a driver's next move does outside its own variables. -/
inductive Op
  | none
  | notify
  | admitTicket
  | leave
  | release
  | setQueued (waitingOn : Option ResourceId)
  | setState (state : TaskState)
  | cancelChildren
  | settle (state : TaskState)
deriving DecidableEq

/-- The tokens `finish_children` cancels: those of the children still live. -/
def Registry.liveChildTokens (reg : Registry) (id : TaskId) : List TaskId :=
  match reg.entry id with
  | none => []
  | some e => (e.children.filterMap reg.entry).filterMap fun c =>
      if c.live then some c.token.cell else none

/-- The tokens `cancel_all` cancels: those of every task not settled. -/
def Registry.liveTokens (reg : Registry) : List TaskId :=
  (reg.entries.values.filter Entry.live).map fun e => e.token.cell

def State.perform (s : State Output) (config : Config) (id : TaskId) (d : Driver Output) :
    Op → State Output
  | .none => s
  | .notify => s.notifyWaiters
  | .admitTicket =>
    { s with registry := s.registry.admitTicket d.ticket, admissions := s.admissions ++ [id] }
  | .leave => { s with registry := dequeue s.registry d.ticket }
  | .release => { s with registry := s.registry.release d.ticket.scope }
  | .setQueued waitingOn => s.send (s.registry.setQueued id waitingOn)
  | .setState state => s.send (s.registry.setState id state)
  | .cancelChildren => { s with fired := s.fired ++ s.registry.liveChildTokens id }
  | .settle state =>
    { s.send (s.registry.settle config id state s.wall) with settles := s.settles ++ [id] }

/-! ### The program of a driver -/

/-- The cap a ticket is held to: only what queues has one. -/
def Ticket.cap (ticket : Ticket) (config : Config) : Option Nat :=
  if ticket.queued then config.cap ticket.scope.1 else none

/-- The decision `admit` takes in its lock section. -/
def Driver.decision (d : Driver Output) (config : Config) (reg : Registry) : Admission :=
  admission reg d.requires d.ticket (d.ticket.cap config)

/-- Where `drive` goes when `admit` returns an error. -/
def Driver.refuse (d : Driver Output) (error : TaskError) : Driver Output :=
  { d with
    notified := none
    pc := if d.ticket.queued then .leaveQueue error else .settle (.error error) }

/-- Where `drive` goes when the body's join handle resolves: to drop its slot,
if it holds one. -/
def Driver.join (d : Driver Output) (joined : Joined Output) : Driver Output :=
  { d with pc := if d.ticket.queued then .dropSlot joined else .finishEnable joined }

/-- The outcome table of `drive`. -/
def outcomeOf (joined : Joined Output) (cancelled : Bool) : Outcome Output :=
  match joined with
  | .ok output => .ok output
  | .err error =>
    if cancelled ∧ error.kind = .interrupted then .error .cancelled else .error (.failed error)
  | .panicked message => .error (.failed ⟨.other, "the task panicked: " ++ message⟩)

def stateOfOutcome : Outcome Output → TaskState
  | .ok _ => .succeeded
  | .error error => stateOf error

/-- The next move of a driver: what it does to the rest, and what it becomes;
`none` while it waits for something that has not happened. -/
def turn (config : Config) (s : State Output) (id : TaskId) (d : Driver Output) :
    Option (Op × Driver Output) :=
  match d.pc with
  | .admitEnable => some (.none, { d with notified := some false, pc := .admitCheck })
  | .admitCheck =>
    match d.decision config s.registry with
    | .admits =>
      if d.ticket.queued then some (.admitTicket, { d with pc := .admitNotify })
      else some (.none, { d with notified := none, pc := .setRunning })
    | .fail error => some (.none, d.refuse (.failed error))
    | .wait on => some (.none, { d with pc := .admitQueue on })
  | .admitQueue on => some (.setQueued on, { d with pc := .admitSleep on })
  | .admitSleep _ =>
    if d.notified = some true then some (.none, { d with notified := none, pc := .admitEnable })
    else none
  | .admitNotify => some (.notify, { d with notified := none, pc := .setRunning })
  | .leaveQueue error => some (.leave, { d with pc := .leaveNotify error })
  | .leaveNotify error => some (.notify, { d with pc := .settle (.error error) })
  | .setRunning => some (.setState .running, { d with pc := .call })
  | .call => none
  | .pollBody =>
    match d.body with
    | .ended joined => some (.none, d.join joined)
    | _ => some (.none, { d with pc := .pollToken })
  | .pollToken =>
    if s.isCancelled d.token then some (.none, { d with pc := .setCancelling })
    else some (.none, { d with pc := .joinSleep })
  | .joinSleep =>
    if d.body.hasEnded || s.isCancelled d.token then some (.none, { d with pc := .pollBody })
    else none
  | .setCancelling => some (.setState .cancelling, { d with pc := .joinCancelled })
  | .joinCancelled =>
    match d.body with
    | .ended joined => some (.none, d.join joined)
    | _ => none
  | .dropSlot joined => some (.release, { d with pc := .dropNotify joined })
  | .dropNotify joined => some (.notify, { d with pc := .finishEnable joined })
  | .finishEnable joined =>
    some (.none, { d with notified := some false, pc := .finishCheck joined })
  | .finishCheck joined =>
    if (s.registry.entry id).all fun e => e.liveChildren = 0 then
      some (.none, { d with notified := none, pc := .outcome joined })
    else some (.cancelChildren, { d with pc := .finishSleep joined })
  | .finishSleep joined =>
    if d.notified = some true then
      some (.none, { d with notified := none, pc := .finishEnable joined })
    else none
  | .outcome joined =>
    some (.none, { d with pc := .settle (outcomeOf joined (s.isCancelled d.token)) })
  | .settle outcome =>
    some (.settle (stateOfOutcome outcome),
      { d with pc := if (s.registry.entry id).isSome then .settleNotify outcome
                     else .deliver outcome })
  | .settleNotify outcome => some (.notify, { d with pc := .deliver outcome })
  | .deliver outcome => some (.none, { d with pc := .done outcome })
  | .done _ => none
  | .unwindSlot => some (.release, { d with pc := .unwindNotify })
  | .unwindNotify => some (.notify, { d with pc := .dead })
  | .dead => none

/-- The body of a task is under way: `run` has been called and has not ended,
or the future it returned has not. -/
def Driver.bodyLive (d : Driver Output) : Bool :=
  d.pc.isCall || d.body.isRunning

/-- `run` has been called, so a `TaskContext` of this task was made. -/
def Driver.called (d : Driver Output) : Bool :=
  match d.body with
  | .unspawned =>
    match d.pc with
    | .call | .unwindSlot | .unwindNotify | .dead => true
    | _ => false
  | _ => true

/-! ### Actions -/

inductive Action (Output : Type)
  | submit (id : TaskId) (kind : TaskKind) (submitted : SystemTime)
  | submitChild (parent id : TaskId) (kind : TaskKind) (submitted : SystemTime)
  | cancel (id : TaskId)
  | cancelAll
  | addResource (id : ResourceId) (state : ResourceState)
  | setResourceState (id : ResourceId) (state : ResourceState)
  | setResourceReady (id : ResourceId) (value : AnyValue)
  /-- The `notify_waiters` after a resource change. -/
  | notifyWaiters
  | idle
  | idleStep (index : Nat)
  | drive (id : TaskId)
  /-- The `token.cancelled()` branch of the wait in `admit`. -/
  | giveUp (id : TaskId)
  | runReturns (id : TaskId)
  | runPanics (id : TaskId)
  | bodyEnds (id : TaskId) (joined : Joined Output)
  | progress (id : TaskId) (progress : Progress)
  | flush (id : TaskId)
  | tick (elapsed : Nat) (wall : SystemTime)

/-- A driver as `start` spawns it. -/
def Driver.start (kind : TaskKind) (ticket : Ticket) (token : CancelToken TaskId) :
    Driver Output where
  requires := kind.requires
  ticket := ticket
  token := token
  notified := none
  body := .unspawned
  pc := .admitEnable

/-- `start`: registers a task that no task has been before, and spawns its
driver. -/
def State.start (s : State Output) (config : Config) (id : TaskId) (kind : TaskKind)
    (parent : Option TaskId) (token : CancelToken TaskId) (submitted : SystemTime) :
    Option (State Output) :=
  if (s.drivers id).isSome then none
  else
    let s' := s.send (s.registry.start config id kind parent token submitted)
    some { s' with
      drivers := Function.update s.drivers id
        (some (.start kind (s.registry.ticket config kind parent) token))
      ids := s.ids ++ [id] }

def Idler.step (i : Idler) (reg : Registry) : Option Idler :=
  match i.pc with
  | .enable => some ⟨some false, .check⟩
  | .check => if reg.busy then some { i with pc := .sleep } else some ⟨none, .done⟩
  | .sleep => if i.notified = some true then some ⟨none, .enable⟩ else none
  | .done => none

/-- Changes the resources; the `notify_waiters` comes after the lock section. -/
def State.setResources (s : State Output) (reg : Registry) : State Output :=
  { s with registry := reg, notifies := s.notifies + 1 }

/-- What one action does. -/
def step (config : Config) (s : State Output) : Action Output → Option (State Output)
  | .submit id kind submitted => s.start config id kind none (.root id) submitted
  | .submitChild parent id kind submitted => do
    let p ← s.drivers parent
    guard p.called
    s.start config id kind (some parent) (p.token.child id) submitted
  | .cancel id =>
    some <| match s.registry.entry id with
    | none => s
    | some e => if e.live then { s with fired := s.fired ++ [e.token.cell] } else s
  | .cancelAll => some { s with fired := s.fired ++ s.registry.liveTokens }
  | .addResource id state =>
    if (s.registry.resources.lookup id).isSome then none
    else some (s.setResources (s.registry.addResource id state))
  | .setResourceState id state => some (s.setResources (s.registry.setResourceState id state))
  | .setResourceReady id value => some (s.setResources (s.registry.setResourceReady id value))
  | .notifyWaiters =>
    if s.notifies = 0 then none
    else some { s.notifyWaiters with notifies := s.notifies - 1 }
  | .idle => some { s with idlers := s.idlers ++ [⟨none, .enable⟩] }
  | .idleStep index => do
    let i ← s.idlers[index]?
    let i' ← i.step s.registry
    return { s with idlers := s.idlers.set index i' }
  | .drive id => do
    let d ← s.drivers id
    let (op, d') ← turn config s id d
    return (s.perform config id d op).setDriver id d'
  | .giveUp id => do
    let d ← s.drivers id
    match d.pc with
    | .admitSleep _ =>
      if s.isCancelled d.token then some (s.setDriver id (d.refuse .cancelled)) else none
    | _ => none
  | .runReturns id => do
    let d ← s.drivers id
    guard d.pc.isCall
    return s.setDriver id { d with body := .running, pc := .pollBody }
  | .runPanics id => do
    let d ← s.drivers id
    guard d.pc.isCall
    return s.setDriver id { d with pc := if d.ticket.queued then .unwindSlot else .dead }
  | .bodyEnds id joined => do
    let d ← s.drivers id
    guard d.body.isRunning
    return s.setDriver id { d with body := .ended joined }
  | .progress id progress => do
    let d ← s.drivers id
    guard d.called
    let (reg, events, timer) := s.registry.reportProgress config s.now id progress
    return { s.send (reg, events) with timers := s.timers ++ (timer.map (id, ·)).toList }
  | .flush id => do
    let timer ← s.timers.find? fun t => t.1 = id ∧ t.2 ≤ s.now
    return { s.send (s.registry.flushProgress s.now id) with timers := s.timers.erase timer }
  | .tick elapsed wall => some { s with now := s.now + elapsed, wall := wall }

/-! ### Which runs a statement is about -/

/-- Every run of the runtime. -/
abbrev anyRun (_ : State Output) (_ : Action Output) : Prop := True

/-- A `TaskContext` submits children only while its own body has not ended. -/
def ChildrenInBody (s : State Output) : Action Output → Prop
  | .submitChild parent _ _ _ => ∀ d, s.drivers parent = some d → d.bodyLive = true
  | _ => True

/-- Bodies use their `TaskContext` only until they end. -/
def ContextInBody (s : State Output) : Action Output → Prop
  | .submitChild id _ _ _ | .progress id _ => ∀ d, s.drivers id = some d → d.bodyLive = true
  | _ => True

/-- `run` does not panic before it has returned its future. -/
def RunReturns (_ : State Output) : Action Output → Prop
  | .runPanics _ => False
  | _ => True

/-- A state some run of `ok` steps comes to. -/
def Reaches (config : Config) (ok : State Output → Action Output → Prop)
    (s : State Output) : Prop :=
  Steps (step config) ok .init s

instance (s : State Output) : (a : Action Output) → Decidable (ChildrenInBody s a)
  | .submitChild parent _ _ _ =>
    inferInstanceAs (Decidable (∀ d, s.drivers parent = some d → d.bodyLive = true))
  | .submit .. | .cancel .. | .cancelAll | .addResource .. | .setResourceState ..
  | .setResourceReady .. | .notifyWaiters | .idle | .idleStep .. | .drive .. | .giveUp ..
  | .runReturns .. | .runPanics .. | .bodyEnds .. | .progress .. | .flush .. | .tick .. =>
    .isTrue trivial

instance (s : State Output) : (a : Action Output) → Decidable (ContextInBody s a)
  | .submitChild id _ _ _ | .progress id _ =>
    inferInstanceAs (Decidable (∀ d, s.drivers id = some d → d.bodyLive = true))
  | .submit .. | .cancel .. | .cancelAll | .addResource .. | .setResourceState ..
  | .setResourceReady .. | .notifyWaiters | .idle | .idleStep .. | .drive .. | .giveUp ..
  | .runReturns .. | .runPanics .. | .bodyEnds .. | .flush .. | .tick .. => .isTrue trivial

instance (s : State Output) : (a : Action Output) → Decidable (RunReturns s a)
  | .runPanics _ => .isFalse id
  | .submit .. | .submitChild .. | .cancel .. | .cancelAll | .addResource ..
  | .setResourceState .. | .setResourceReady .. | .notifyWaiters | .idle | .idleStep ..
  | .drive .. | .giveUp .. | .runReturns .. | .bodyEnds .. | .progress .. | .flush ..
  | .tick .. => .isTrue trivial

/-- The state a list of `ok` actions leads to, where all of them can happen. -/
def State.run (s : State Output) (config : Config) (ok : State Output → Action Output → Prop)
    [∀ s a, Decidable (ok s a)] (actions : List (Action Output)) : State Output :=
  (exec (guarded (step config) ok) s actions).getD s

theorem State.steps_run (s : State Output) (config : Config)
    (ok : State Output → Action Output → Prop) [∀ s a, Decidable (ok s a)]
    (actions : List (Action Output)) : Steps (step config) ok s (s.run config ok actions) := by
  unfold State.run
  cases h : exec (guarded (step config) ok) s actions with
  | none => exact .refl _
  | some t => exact steps_of_guarded (steps_of_exec actions h)

end FilePeeker
