import FilePeeker.Lib.Broadcast
import FilePeeker.Lib.Feed
import FilePeeker.Task.Events

/-!
# One `Watch` stream

`WatchStream` is the stream of one attached client: where its `forward_tasks` stands,
the channel between the two, and the client's copy of the tasks.  `WatchStream.step`
is one move of the forwarder or of the client, next to a runtime that moves as
it likes.  `Watch` is such a runtime with one stream; a stream that has not
subscribed yet is one that is opened later.

The lists `sent` and `applied` are history.  A task travels as the server's
`task_message` of it, which is a function of its `TaskInfo`.
-/

namespace FilePeeker

variable {Output : Type} {config : Config} {capacity : Nat} {closing : Bool}
  {s : State Output} {x : TaskId}

/-! ### The model -/

/-- What a `Watch` stream carries. -/
inductive ServerEvent
  | hello
  | snapshot (tasks : List TaskInfo)
  | changed (task : TaskInfo)
deriving DecidableEq, Repr

/-- How a client applies what it is sent: a snapshot replaces its copy, a change
inserts or replaces one task. -/
def watchFeed : Feed ServerEvent TaskId TaskInfo where
  shows
    | .hello, _ => none
    | .snapshot tasks, x => tasks.find? fun task => task.id = x
    | .changed task, x => if task.id = x then some task else none
  replaces
    | .snapshot _ => true
    | .hello | .changed _ => false

/-- The events the channel to the client holds. -/
def streamBuffer : Nat := 8

/-- Where `forward_tasks` stands. -/
inductive ForwardPc
  | subscribe
  /-- `snapshot(&runtime)`, the first or one after a lag. -/
  | snapshot
  | send (event : ServerEvent)
  | select
  | lookup (id : TaskId)
  /-- The closing branch, and its send. -/
  | lastSnapshot
  | lastSend (event : ServerEvent)
  | done
deriving DecidableEq, Repr

/-- One stream: its forwarder and the forwarder's place in the runtime's events,
the events on their way, whether the client still holds the other end, and the
client's copy. -/
structure WatchStream where
  pc : ForwardPc
  next : Nat
  queue : List ServerEvent
  attached : Bool
  copy : TaskId → Option TaskInfo
  /-- Every event sent so far, and those of them the client has applied. -/
  sent : List ServerEvent
  applied : List ServerEvent

/-- `watch`: sends `Hello`, and spawns the forwarder. -/
def WatchStream.open : WatchStream where
  pc := .subscribe
  next := 0
  queue := [.hello]
  attached := true
  copy := fun _ => none
  sent := [.hello]
  applied := []

/-- `events.send(..).await`: waits for room, and ends the forwarder where the
client is gone. -/
def WatchStream.put (st : WatchStream) (event : ServerEvent) (pc : ForwardPc) :
    Option WatchStream :=
  if st.attached then
    if st.queue.length < streamBuffer then
      some { st with pc := pc, queue := st.queue ++ [event], sent := st.sent ++ [event] }
    else none
  else some { st with pc := .done }

/-- The forwarder's next move; in its `select!`, the branch that receives. -/
def WatchStream.forward (st : WatchStream) (s : State Output) (capacity : Nat) :
    Option WatchStream :=
  match st.pc with
  | .subscribe => some { st with pc := .snapshot, next := s.events.length }
  | .snapshot => some { st with pc := .send (.snapshot s.registry.tasks) }
  | .send event => st.put event .select
  | .select =>
    match recv s.events capacity st.next with
    | none => none
    | some (.value change, next) =>
      some { st with pc := .lookup (taskOf change.event), next := next }
    | some (.lagged _, next) => some { st with pc := .snapshot, next := next }
  | .lookup id =>
    match s.registry.task id with
    | none => some { st with pc := .select }
    | some info => some { st with pc := .send (.changed info) }
  | .lastSnapshot => some { st with pc := .lastSend (.snapshot s.registry.tasks) }
  | .lastSend event => st.put event .done
  | .done => none

inductive StreamAction
  | forward
  /-- The other branches of the forwarder's `select!`. -/
  | closing
  | closed
  /-- The client applies the next event, or lets go. -/
  | receive
  | detach
deriving DecidableEq, Repr

/-- One move on a stream, beside a runtime whose events are kept for `capacity`
more, and a server that is `closing` its streams or not. -/
def WatchStream.step (st : WatchStream) (s : State Output) (capacity : Nat) (closing : Bool) :
    StreamAction → Option WatchStream
  | .forward => st.forward s capacity
  | .closing => if st.pc = .select ∧ closing then some { st with pc := .lastSnapshot } else none
  | .closed => if st.pc = .select ∧ ¬st.attached then some { st with pc := .done } else none
  | .receive =>
    match st.queue with
    | [] => none
    | event :: queue =>
      some { st with
        queue := queue
        copy := watchFeed.apply st.copy event
        applied := st.applied ++ [event] }
  | .detach => if st.attached then some { st with attached := false, queue := [] } else none

/-- A runtime, and one stream that watches it. -/
structure Watch (Output : Type) where
  runtime : State Output
  closing : Bool
  stream : WatchStream

def Watch.init : Watch Output := ⟨.init, false, .open⟩

inductive WatchAction (Output : Type)
  | runtime (action : Action Output)
  | close
  | stream (action : StreamAction)

/-- One step of a runtime or of a stream that watches it. -/
def watchStep (config : Config) (capacity : Nat) (w : Watch Output) :
    WatchAction Output → Option (Watch Output)
  | .runtime action => (step config w.runtime action).map fun s => { w with runtime := s }
  | .close => some { w with closing := true }
  | .stream action =>
    (w.stream.step w.runtime capacity w.closing action).map fun st => { w with stream := st }

/-- The state a list of actions leads to, where all of them can happen. -/
def Watch.run (w : Watch Output) (config : Config) (capacity : Nat)
    (actions : List (WatchAction Output)) : Watch Output :=
  (exec (watchStep config capacity) w actions).getD w

/-- Every run of a runtime and a stream. -/
abbrev anyWatch (_ : Watch Output) (_ : WatchAction Output) : Prop := True

theorem Watch.steps_run (w : Watch Output) (config : Config) (capacity : Nat)
    (actions : List (WatchAction Output)) :
    Steps (watchStep config capacity) anyWatch w (w.run config capacity actions) := by
  unfold run
  cases h : exec (watchStep config capacity) w actions with
  | none => exact .refl _
  | some t => exact steps_of_exec actions h

/-- Everything there was to receive and to apply has been. -/
structure Watch.Drained (w : Watch Output) : Prop where
  pc : w.stream.pc = .select
  next : w.stream.next = w.runtime.events.length
  attached : w.stream.attached = true
  queue : w.stream.queue = []

/-! ### What the forwarder reads -/

variable {st st' : WatchStream}

theorem Registry.mem_tasks {reg : Registry} {info : TaskInfo} :
    info ∈ reg.tasks ↔ ∃ y, reg.task y = some info := by
  unfold Registry.tasks Registry.task Registry.entry
  rw [List.mem_map]
  constructor
  · rintro ⟨e, he, rfl⟩
    obtain ⟨y, hy⟩ := Table.mem_values.mp ((List.mem_insertionSort _).mp he)
    exact ⟨y, by rw [hy]; rfl⟩
  · rintro ⟨y, hy⟩
    obtain ⟨e, he, rfl⟩ := Option.map_eq_some_iff.mp hy
    exact ⟨e, (List.mem_insertionSort _).mpr (Table.mem_values.mpr ⟨y, he⟩), rfl⟩

/-- What is retained of a task carries its identifier. -/
theorem Wf.id_of_task (hwf : Wf config s) {info : TaskInfo} (h : s.registry.task x = some info) :
    info.id = x := by
  obtain ⟨e, he, rfl⟩ := Option.map_eq_some_iff.mp h
  obtain ⟨d, _, ho⟩ := hwf.entry x e he
  exact ho.id

/-- **A snapshot shows every retained task as it is**, and no other. -/
theorem Wf.shows_snapshot (hwf : Wf config s) (x : TaskId) :
    watchFeed.shows (.snapshot s.registry.tasks) x = s.registry.task x := by
  change s.registry.tasks.find? (fun task => task.id = x) = s.registry.task x
  cases hx : s.registry.task x with
  | some info =>
    have hmem : info ∈ s.registry.tasks := Registry.mem_tasks.mpr ⟨x, hx⟩
    cases hf : s.registry.tasks.find? (fun task => task.id = x) with
    | none =>
      have hno := List.find?_eq_none.mp hf info hmem
      exact absurd (by simpa using hwf.id_of_task hx) hno
    | some found =>
      obtain ⟨y, hy⟩ := Registry.mem_tasks.mp (List.mem_of_find?_eq_some hf)
      have hid : found.id = x := by simpa using List.find?_some hf
      rw [hwf.id_of_task hy] at hid
      rw [hid] at hy
      rw [← hy, hx]
  | none =>
    refine List.find?_eq_none.mpr fun info hmem hid => ?_
    obtain ⟨y, hy⟩ := Registry.mem_tasks.mp hmem
    rw [show y = x from (hwf.id_of_task hy).symm.trans (by simpa using hid), hx] at hy
    cases hy

/-! ### Sending -/

/-- The event the forwarder is about to send. -/
def ForwardPc.sending : ForwardPc → Option ServerEvent
  | send event | lastSend event => some event
  | _ => none

/-- Every event sent so far, and the one about to be. -/
def WatchStream.produced (st : WatchStream) : List ServerEvent := st.sent ++ st.pc.sending.toList

/-- What a move on a stream comes to. -/
inductive WatchStream.Turns (s : State Output) (capacity : Nat) (closing : Bool)
    (st : WatchStream) : WatchStream → Prop
  | subscribes (hpc : st.pc = .subscribe) :
      Turns s capacity closing st { st with pc := .snapshot, next := s.events.length }
  | reads (hpc : st.pc = .snapshot) :
      Turns s capacity closing st { st with pc := .send (.snapshot s.registry.tasks) }
  | puts {event : ServerEvent} {st' : WatchStream} (hpc : st.pc = .send event)
      (hput : st.put event .select = some st') : Turns s capacity closing st st'
  | gets {change : Sent} {next : Nat} (hpc : st.pc = .select)
      (hrecv : recv s.events capacity st.next = some (.value change, next)) :
      Turns s capacity closing st { st with pc := .lookup (taskOf change.event), next := next }
  | lags {missed next : Nat} (hpc : st.pc = .select)
      (hrecv : recv s.events capacity st.next = some (.lagged missed, next)) :
      Turns s capacity closing st { st with pc := .snapshot, next := next }
  | misses {id : TaskId} (hpc : st.pc = .lookup id) (htask : s.registry.task id = none) :
      Turns s capacity closing st { st with pc := .select }
  | finds {id : TaskId} {info : TaskInfo} (hpc : st.pc = .lookup id)
      (htask : s.registry.task id = some info) :
      Turns s capacity closing st { st with pc := .send (.changed info) }
  | readsLast (hpc : st.pc = .lastSnapshot) :
      Turns s capacity closing st { st with pc := .lastSend (.snapshot s.registry.tasks) }
  | putsLast {event : ServerEvent} {st' : WatchStream} (hpc : st.pc = .lastSend event)
      (hput : st.put event .done = some st') : Turns s capacity closing st st'
  | closes (hpc : st.pc = .select) (hclosing : closing) :
      Turns s capacity closing st { st with pc := .lastSnapshot }
  | leaves (hpc : st.pc = .select) (hgone : ¬st.attached) :
      Turns s capacity closing st { st with pc := .done }
  | receives {event : ServerEvent} {queue : List ServerEvent} (hqueue : st.queue = event :: queue) :
      Turns s capacity closing st { st with
        queue := queue
        copy := watchFeed.apply st.copy event
        applied := st.applied ++ [event] }
  | detaches : Turns s capacity closing st { st with attached := false, queue := [] }

theorem WatchStream.turns_of_step {a : StreamAction}
    (h : st.step s capacity closing a = some st') : st.Turns s capacity closing st' := by
  cases a with
  | forward =>
    simp only [step, WatchStream.forward] at h
    split at h
    · next hpc =>
      cases h
      exact .subscribes hpc
    · next hpc =>
      cases h
      exact .reads hpc
    · next hpc => exact .puts hpc h
    · next hpc =>
      split at h
      · cases h
      · next hrecv =>
        cases h
        exact .gets hpc hrecv
      · next hrecv =>
        cases h
        exact .lags hpc hrecv
    · next hpc =>
      split at h
      · next htask =>
        cases h
        exact .misses hpc htask
      · next htask =>
        cases h
        exact .finds hpc htask
    · next hpc =>
      cases h
      exact .readsLast hpc
    · next hpc => exact .putsLast hpc h
    · cases h
  | closing =>
    simp only [step] at h
    split at h <;> cases h
    next hcond => exact .closes hcond.1 hcond.2
  | closed =>
    simp only [step] at h
    split at h <;> cases h
    next hcond => exact .leaves hcond.1 hcond.2
  | receive =>
    simp only [step] at h
    split at h
    · cases h
    · next hqueue =>
      cases h
      exact .receives hqueue
  | detach =>
    simp only [step] at h
    split at h <;> cases h
    exact .detaches

/-- How a stream's events and the client's copy of them go together. -/
structure WatchStream.Ok (st : WatchStream) : Prop where
  hello : ∃ events, st.sent = .hello :: events
  applied : st.applied <+: st.sent
  queue : st.attached = true → st.sent = st.applied ++ st.queue
  detached : st.attached = false → st.queue = []
  copy : st.copy = watchFeed.copyOf st.applied

theorem WatchStream.Ok.open : WatchStream.open.Ok where
  hello := ⟨[], rfl⟩
  applied := List.nil_prefix
  queue _ := rfl
  detached := nofun
  copy := rfl

theorem WatchStream.Ok.put {event : ServerEvent} {pc : ForwardPc} (hok : st.Ok)
    (h : st.put event pc = some st') : st'.Ok := by
  obtain ⟨⟨events, hhello⟩, happlied, hqueue, hdetached, hcopy⟩ := hok
  unfold WatchStream.put at h
  split at h
  · rename_i hatt
    split at h
    · cases h
      refine ⟨⟨events ++ [event], by simp [hhello]⟩, ?_, fun _ => ?_, fun hno => ?_, hcopy⟩
      · exact happlied.trans (List.prefix_append _ _)
      · simp [hqueue hatt]
      · rw [show st.attached = false from hno] at hatt
        cases hatt
    · cases h
  · cases h
    exact ⟨⟨events, hhello⟩, happlied, hqueue, hdetached, hcopy⟩

theorem WatchStream.Ok.step (hok : st.Ok) {a : StreamAction}
    (h : st.step s capacity closing a = some st') : st'.Ok := by
  cases turns_of_step h with
  | puts _ hput | putsLast _ hput => exact hok.put hput
  | @receives event queue hq =>
    obtain ⟨hhello, _, hqueue, hdetached, hcopy⟩ := hok
    have hatt : st.attached = true := by
      cases hatt : st.attached with
      | true => rfl
      | false => rw [hdetached hatt] at hq; cases hq
    have hsent : st.sent = (st.applied ++ [event]) ++ queue := by simp [hqueue hatt, hq]
    refine ⟨hhello, ⟨queue, hsent.symm⟩, fun _ => hsent, fun hno => ?_, by simp [hcopy]⟩
    rw [show st.attached = false from hno] at hatt
    cases hatt
  | detaches => exact ⟨hok.hello, hok.applied, nofun, fun _ => rfl, hok.copy⟩
  | _ => exact ⟨hok.hello, hok.applied, hok.queue, hok.detached, hok.copy⟩

theorem WatchStream.put_applied {event : ServerEvent} {pc : ForwardPc}
    (h : st.put event pc = some st') : st'.applied = st.applied := by
  unfold put at h
  split at h
  · split at h <;> cases h
    rfl
  · cases h
    rfl

/-- Events are applied one after another. -/
theorem WatchStream.step_applied {a : StreamAction}
    (h : st.step s capacity closing a = some st') : st.applied <+: st'.applied := by
  cases turns_of_step h with
  | puts _ hput | putsLast _ hput => rw [put_applied hput]
  | receives => exact List.prefix_append _ _
  | _ => exact List.prefix_rfl

/-! ### The moves of a forwarder -/

/-- The moves on a stream, as the forwarder's place, its place in the events and
what it has produced show them. -/
inductive Forwards (s : State Output) (st st' : WatchStream) : Prop
  | same (hpc' : st'.pc = st.pc) (hn : st'.next = st.next) (hp : st'.produced = st.produced)
  | subscribed (hpc : st.pc = .subscribe) (hpc' : st'.pc = .snapshot)
      (hn : st'.next = s.events.length) (hp : st'.produced = st.produced)
  | read (hpc : st.pc = .snapshot) (hpc' : st'.pc = .send (.snapshot s.registry.tasks))
      (hn : st'.next = st.next) (hp : st'.produced = st.produced ++ [.snapshot s.registry.tasks])
  | sent {event : ServerEvent} (hpc : st.pc = .send event) (hpc' : st'.pc = .select)
      (hn : st'.next = st.next) (hp : st'.produced = st.produced)
  | value {change : Sent} (hpc : st.pc = .select) (h : s.events[st.next]? = some change)
      (hpc' : st'.pc = .lookup (taskOf change.event)) (hn : st'.next = st.next + 1)
      (hp : st'.produced = st.produced)
  | lagged (hpc : st.pc = .select) (hpc' : st'.pc = .snapshot)
      (hn : st'.next ≤ s.events.length) (hp : st'.produced = st.produced)
  | missing {y : TaskId} (hpc : st.pc = .lookup y) (h : s.registry.task y = none)
      (hpc' : st'.pc = .select) (hn : st'.next = st.next) (hp : st'.produced = st.produced)
  | found {y : TaskId} {info : TaskInfo} (hpc : st.pc = .lookup y)
      (h : s.registry.task y = some info) (hpc' : st'.pc = .send (.changed info))
      (hn : st'.next = st.next) (hp : st'.produced = st.produced ++ [.changed info])
  | readLast (hpc : st.pc = .lastSnapshot)
      (hpc' : st'.pc = .lastSend (.snapshot s.registry.tasks))
      (hn : st'.next = st.next) (hp : st'.produced = st.produced ++ [.snapshot s.registry.tasks])
  | ended (hpc' : st'.pc = .lastSnapshot ∨ st'.pc = .done) (hn : st'.next = st.next)
      (hp : st'.produced <+: st.produced)

theorem WatchStream.produced_of_quiet (h : st.pc.sending = none) : st.produced = st.sent := by
  rw [produced, h]
  exact List.append_nil _

theorem WatchStream.produced_of_sending {event : ServerEvent} (h : st.pc.sending = some event) :
    st.produced = st.sent ++ [event] := by
  rw [produced, h]
  rfl

theorem WatchStream.put_forwards {event : ServerEvent} {pc : ForwardPc}
    (hpc : st.pc = .send event ∧ pc = .select ∨ st.pc = .lastSend event ∧ pc = .done)
    (h : st.put event pc = some st') : Forwards s st st' := by
  have hproduced : st.produced = st.sent ++ [event] := by
    refine produced_of_sending ?_
    rcases hpc with ⟨hpc, _⟩ | ⟨hpc, _⟩ <;> rw [hpc] <;> rfl
  unfold put at h
  split at h
  · split at h
    · cases h
      rcases hpc with ⟨hpc, rfl⟩ | ⟨_, rfl⟩
      · refine .sent hpc rfl rfl ?_
        rw [hproduced]
        exact produced_of_quiet rfl
      · refine .ended (.inr rfl) rfl ?_
        rw [hproduced, produced_of_quiet rfl]
    · cases h
  · cases h
    refine .ended (.inr rfl) rfl ?_
    rw [hproduced, produced_of_quiet rfl]
    exact List.prefix_append _ _

/-- **Every move on a stream is one of the listed ones.** -/
theorem WatchStream.step_forwards {a : StreamAction}
    (h : st.step s capacity closing a = some st') : Forwards s st st' := by
  have hquiet : st.pc.sending = none → st.produced = st.sent := produced_of_quiet
  cases turns_of_step h with
  | subscribes hpc =>
    refine .subscribed hpc rfl rfl ?_
    rw [produced_of_quiet rfl, hquiet (by rw [hpc]; rfl)]
  | reads hpc =>
    refine .read hpc rfl rfl ?_
    rw [produced_of_sending rfl, hquiet (by rw [hpc]; rfl)]
  | puts hpc hput => exact put_forwards (.inl ⟨hpc, rfl⟩) hput
  | gets hpc hrecv =>
    obtain ⟨hchange, rfl⟩ := recv_value hrecv
    refine .value hpc hchange rfl rfl ?_
    rw [produced_of_quiet rfl, hquiet (by rw [hpc]; rfl)]
  | lags hpc hrecv =>
    refine .lagged hpc rfl (recv_lagged hrecv) ?_
    rw [produced_of_quiet rfl, hquiet (by rw [hpc]; rfl)]
  | misses hpc htask =>
    refine .missing hpc htask rfl rfl ?_
    rw [produced_of_quiet rfl, hquiet (by rw [hpc]; rfl)]
  | finds hpc htask =>
    refine .found hpc htask rfl rfl ?_
    rw [produced_of_sending rfl, hquiet (by rw [hpc]; rfl)]
  | readsLast hpc =>
    refine .readLast hpc rfl rfl ?_
    rw [produced_of_sending rfl, hquiet (by rw [hpc]; rfl)]
  | putsLast hpc hput => exact put_forwards (.inr ⟨hpc, rfl⟩) hput
  | closes hpc | leaves hpc =>
    refine .ended (by simp) rfl ?_
    rw [produced_of_quiet rfl, hquiet (by rw [hpc]; rfl)]
  | receives | detaches => exact .same rfl rfl rfl

/-- **A step of a watched runtime** is one of the runtime's, or a move on the
stream. -/
theorem watchStep_cases {w w' : Watch Output} {a : WatchAction Output}
    (h : watchStep config capacity w a = some w') :
    (∃ a, Stepped config w.runtime a w'.runtime ∧ w'.stream = w.stream) ∨
      w'.runtime = w.runtime ∧ Forwards w.runtime w.stream w'.stream := by
  cases a with
  | runtime action =>
    obtain ⟨s', hs', rfl⟩ := Option.map_eq_some_iff.mp h
    exact .inl ⟨action, step_cases hs', rfl⟩
  | close =>
    cases h
    exact .inr ⟨rfl, .same rfl rfl rfl⟩
  | stream action =>
    obtain ⟨st', hst', rfl⟩ := Option.map_eq_some_iff.mp h
    exact .inr ⟨rfl, WatchStream.step_forwards hst'⟩

end FilePeeker
