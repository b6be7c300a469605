import FilePeeker.Server.Api
import FilePeeker.Server.WatchStream
import FilePeeker.Task.WindDown

/-!
# A server and its stop

`Server` is a running server: its runtime, the two tokens of a stop, `serve`
itself (`main`), the loop that accepts API connections, the connections, and the
`Watch` streams.  `serverStep` is one step of any of them.  A stop goes its way
only as far as the tasks settle: the budget it has is left out.

`serve` cancels the tasks there are when it gets to `cancel_all`, and waits for
none to be left.  A connection may answer a line after that, for its `select!`
may take the line with the shutdown.  In the runs where none submits a task so
late (`NoLateDemo`), every task is cancelled, and every stream's last snapshot
shows how each ended (`stopped_server_shows_every_end`).
-/

namespace FilePeeker

variable {config : Config} {capacity : Nat} {status : Except String String}
  {closing : Bool} {s s' : State Unit} {st st' : WatchStream}

/-! ### The model -/

/-- Where `serve` stands, from its wait for the shutdown on. -/
inductive ServePc
  | serving
  | cancelAll
  /-- `runtime.idle()`: the call, and then its waits. -/
  | idle
  | idling (index : Nat)
  /-- `closing.cancel()`. -/
  | close
  /-- Waits for the API and the client protocol's service to end. -/
  | join
  | exited
deriving DecidableEq, Repr

/-- `cancel_all` has run. -/
def ServePc.stopped : ServePc → Bool
  | serving | cancelAll => false
  | idle | idling _ | close | join | exited => true

/-- Where `api::serve` stands. -/
inductive ApiPc
  | accepting
  | draining
  | done
deriving DecidableEq, Repr

structure Server where
  runtime : State Unit
  shutdown : Bool
  closing : Bool
  main : ServePc
  api : ApiPc
  connections : List Connection
  streams : List WatchStream

def Server.init : Server := ⟨.init, false, false, .serving, .accepting, [], []⟩

/-- What the tasks of a server do by themselves.  Every task is a `Demo`: its
body submits none, and calling its `run` only makes the future. -/
def Action.isServed : Action Unit → Bool
  | notifyWaiters | drive _ | giveUp _ | runReturns _ | bodyEnds _ _ | progress _ _ | flush _
  | tick _ _ => true
  | _ => false

inductive ServerAction
  /-- `SIGTERM` or `SIGINT`. -/
  | signal
  | main
  /-- The branches of the `select!` in `api::serve`, and its end. -/
  | accept
  | drain
  | drained
  /-- The branches of a connection's `select!`: the shutdown, a line, or no more
  lines. -/
  | shutdown (index : Nat)
  | line (index : Nat) (line : Line)
  | hangUp (index : Nat)
  | respond (index : Nat) (task : TaskId) (submitted : SystemTime)
  | write (index : Nat) (written : Bool)
  | runtime (action : Action Unit)
  | watch
  | stream (index : Nat) (action : StreamAction)

/-- The next step of `serve`. -/
def Server.serve (v : Server) (config : Config) : Option Server :=
  match v.main with
  | .serving => if v.shutdown then some { v with main := .cancelAll } else none
  | .cancelAll =>
    (step config v.runtime .cancelAll).map fun s => { v with runtime := s, main := .idle }
  | .idle =>
    (step config v.runtime .idle).map fun s =>
      { v with runtime := s, main := .idling v.runtime.idlers.length }
  | .idling index => do
    let idler ← v.runtime.idlers[index]?
    if idler.pc = .done then some { v with main := .close }
    else (step config v.runtime (.idleStep index)).map fun s => { v with runtime := s }
  | .close => some { v with closing := true, main := .join }
  | .join =>
    if v.api = .done ∧ ∀ st ∈ v.streams, st.pc = .done then some { v with main := .exited }
    else none
  | .exited => none

def Server.setConnection (v : Server) (index : Nat) (connection : Connection) : Server :=
  { v with connections := v.connections.set index connection }

/-- A connection answers its line; the task it may submit is new. -/
def Server.answer (v : Server) (config : Config) (status : Except String String) (index : Nat)
    (line : Line) (task : TaskId) (submitted : SystemTime) : Option Server :=
  let (response, stop, kind) := respond line status task
  match kind with
  | none => some (v.setConnection index (.write response stop))
  | some kind => (step config v.runtime (.submit task kind submitted)).map fun s =>
      { v with runtime := s }.setConnection index (.write response stop)

/-- One step of a connection. -/
def Server.connection (v : Server) (config : Config) (status : Except String String) :
    ServerAction → Option Server
  | .shutdown index =>
    match v.connections[index]? with
    | some .select => if v.shutdown then some (v.setConnection index .done) else none
    | _ => none
  | .line index line =>
    match v.connections[index]? with
    | some .select => some (v.setConnection index (.respond line))
    | _ => none
  | .hangUp index =>
    match v.connections[index]? with
    | some .select => some (v.setConnection index .done)
    | _ => none
  | .respond index task submitted =>
    match v.connections[index]? with
    | some (.respond line) => v.answer config status index line task submitted
    | _ => none
  | .write index written =>
    match v.connections[index]? with
    | some (.write _ stop) =>
      if written then
        if stop then some { v.setConnection index .done with shutdown := true }
        else some (v.setConnection index .select)
      else some (v.setConnection index .done)
    | _ => none
  | _ => none

/-- One step of a server that has not exited. -/
def serverStep (config : Config) (capacity : Nat) (status : Except String String) (v : Server)
    (action : ServerAction) : Option Server :=
  if v.main = .exited then none
  else
    match action with
    | .signal => some { v with shutdown := true }
    | .main => v.serve config
    | .accept =>
      if v.api = .accepting then some { v with connections := v.connections ++ [.select] } else none
    | .drain => if v.api = .accepting ∧ v.shutdown then some { v with api := .draining } else none
    | .drained =>
      if v.api = .draining ∧ v.connections.all (fun c => c matches .done) then
        some { v with api := .done }
      else none
    | .runtime action =>
      if action.isServed then
        (step config v.runtime action).map fun s => { v with runtime := s }
      else none
    | .watch => some { v with streams := v.streams ++ [.open] }
    | .stream index action => do
      let st ← v.streams[index]?
      let st' ← st.step v.runtime capacity v.closing action
      return { v with streams := v.streams.set index st' }
    | action => v.connection config status action

/-- The connection is about to answer a `task.demo`. -/
def Server.submitsAt (v : Server) (index : Nat) : Bool :=
  match v.connections[index]? with
  | some (.respond line) => line.submits
  | _ => false

/-- No connection answers a `task.demo` once `cancel_all` has run. -/
def NoLateDemo (v : Server) : ServerAction → Prop
  | .respond index _ _ => v.main.stopped = true → v.submitsAt index = false
  | _ => True

instance (v : Server) : (action : ServerAction) → Decidable (NoLateDemo v action)
  | .respond index _ _ => inferInstanceAs (Decidable (_ = true → v.submitsAt index = false))
  | .signal | .main | .accept | .drain | .drained | .shutdown _ | .line .. | .hangUp _ | .write ..
  | .runtime _ | .watch | .stream .. => .isTrue trivial

/-- Every run of a server. -/
abbrev anyServer (_ : Server) (_ : ServerAction) : Prop := True

/-- The server a list of `ok` actions leads to, where all of them can happen. -/
def Server.run (v : Server) (config : Config) (capacity : Nat) (status : Except String String)
    (ok : Server → ServerAction → Prop) [∀ v a, Decidable (ok v a)]
    (actions : List ServerAction) : Server :=
  (exec (guarded (serverStep config capacity status) ok) v actions).getD v

theorem Server.steps_run (v : Server) (config : Config) (capacity : Nat)
    (status : Except String String) (ok : Server → ServerAction → Prop)
    [∀ v a, Decidable (ok v a)] (actions : List ServerAction) :
    Steps (serverStep config capacity status) ok v (v.run config capacity status ok actions) := by
  unfold run
  cases h : exec (guarded (serverStep config capacity status) ok) v actions with
  | none => exact .refl _
  | some t => exact steps_of_guarded (steps_of_exec actions h)

/-! ### The steps of a server -/

/-- The steps of a server, by what they touch of its runtime, its stop and its
streams. -/
inductive ServerStepped (config : Config) (capacity : Nat) (v : Server) (action : ServerAction)
    (v' : Server) : Prop
  | aside (hr : v'.runtime = v.runtime) (hm : v'.main = v.main) (hc : v'.closing = v.closing)
      (hs : v'.streams = v.streams)
  | submitted {index : Nat} {task : TaskId} {submitted : SystemTime} {kind : TaskKind}
      {line : Line} (ha : action = .respond index task submitted)
      (hline : v.connections[index]? = some (.respond line)) (hsub : line.submits = true)
      (h : step config v.runtime (.submit task kind submitted) = some v'.runtime)
      (hm : v'.main = v.main) (hc : v'.closing = v.closing) (hs : v'.streams = v.streams)
  | served {a : Action Unit} (ha : a.isServed = true)
      (h : step config v.runtime a = some v'.runtime)
      (hm : v'.main = v.main) (hc : v'.closing = v.closing) (hs : v'.streams = v.streams)
  | watch (hr : v'.runtime = v.runtime) (hm : v'.main = v.main) (hc : v'.closing = v.closing)
      (hs : v'.streams = v.streams ++ [.open])
  | stream {index : Nat} {a : StreamAction} {st st' : WatchStream}
      (hst : v.streams[index]? = some st)
      (h : st.step v.runtime capacity v.closing a = some st') (hr : v'.runtime = v.runtime)
      (hm : v'.main = v.main) (hc : v'.closing = v.closing)
      (hs : v'.streams = v.streams.set index st')
  | serve (h : v.serve config = some v')

theorem Server.answer_stepped {v v' : Server} {index : Nat} {line : Line} {task : TaskId}
    {submitted : SystemTime} (hline : v.connections[index]? = some (.respond line))
    (h : v.answer config status index line task submitted = some v') :
    ServerStepped config capacity v (.respond index task submitted) v' := by
  have hkind := respond_submits line status task
  unfold answer at h
  generalize respond line status task = r at h hkind
  obtain ⟨response, stop, kind⟩ := r
  cases kind with
  | none =>
    cases h
    exact .aside rfl rfl rfl rfl
  | some kind =>
    obtain ⟨s, hs, rfl⟩ := Option.map_eq_some_iff.mp h
    exact .submitted rfl hline hkind.symm hs rfl rfl rfl

theorem Server.connection_stepped {v v' : Server} {action : ServerAction}
    (h : v.connection config status action = some v') :
    ServerStepped config capacity v action v' := by
  cases action with
  | shutdown index =>
    simp only [connection] at h
    split at h
    · split at h
      · cases h; exact .aside rfl rfl rfl rfl
      · cases h
    · cases h
  | line index line | hangUp index =>
    simp only [connection] at h
    split at h
    · cases h; exact .aside rfl rfl rfl rfl
    · cases h
  | respond index task submitted =>
    simp only [connection] at h
    split at h
    · rename_i line hline
      exact answer_stepped hline h
    · cases h
  | write index written =>
    simp only [connection] at h
    split at h
    · split at h
      · split at h <;> cases h <;> exact .aside rfl rfl rfl rfl
      · cases h; exact .aside rfl rfl rfl rfl
    · cases h
  | _ => cases h

/-- **A server makes no other steps.** -/
theorem serverStep_cases {v v' : Server} {action : ServerAction}
    (h : serverStep config capacity status v action = some v') :
    ServerStepped config capacity v action v' := by
  unfold serverStep at h
  split at h
  · cases h
  · cases action with
    | signal => cases h; exact .aside rfl rfl rfl rfl
    | main => exact .serve h
    | accept | drain | drained =>
      dsimp only at h
      split at h
      · cases h; exact .aside rfl rfl rfl rfl
      · cases h
    | runtime a =>
      dsimp only at h
      split at h
      · rename_i ha
        obtain ⟨s, hs, rfl⟩ := Option.map_eq_some_iff.mp h
        exact .served ha hs rfl rfl rfl
      · cases h
    | watch => cases h; exact .watch rfl rfl rfl rfl
    | stream index a =>
      simp only [Option.bind_eq_bind, Option.bind_eq_some_iff] at h
      obtain ⟨st, hst, st', hst', h⟩ := h
      cases h
      exact .stream hst hst' rfl rfl rfl rfl
    | shutdown | line | hangUp | respond | write => exact Server.connection_stepped h

/-! ### The end of a stream -/

/-- A snapshot of tasks that have all ended. -/
def ServerEvent.AllEnded : ServerEvent → Prop
  | .snapshot tasks => ∀ task ∈ tasks, task.state.isTerminal = true
  | .hello | .changed _ => False

/-- A stream that closes shows how every task ended, and then ends. -/
structure WatchStream.Finale (st : WatchStream) (closing : Bool) : Prop where
  reads : st.pc = .lastSnapshot → closing = true
  sends : ∀ event, st.pc = .lastSend event → event.AllEnded
  sent : st.pc = .done → st.attached = true →
    ∃ event, st.sent.getLast? = some event ∧ event.AllEnded

/-- Not on the way out. -/
def ForwardPc.onward : ForwardPc → Bool
  | lastSnapshot | lastSend _ | done => false
  | subscribe | snapshot | send _ | select | lookup _ => true

theorem WatchStream.Finale.of_onward (h : st.pc.onward = true) : st.Finale closing where
  reads hpc := by rw [hpc] at h; cases h
  sends event hpc := by rw [hpc] at h; cases h
  sent hpc := by rw [hpc] at h; cases h

theorem WatchStream.Finale.of_detached (h : st.pc = .done) (hatt : st.attached = false) :
    st.Finale closing where
  reads hpc := by rw [h] at hpc; cases hpc
  sends event hpc := by rw [h] at hpc; cases hpc
  sent _ hatt' := by rw [hatt] at hatt'; cases hatt'

theorem WatchStream.Finale.put {event : ServerEvent} {pc : ForwardPc}
    (hpc : pc = .select ∨ pc = .done ∧ event.AllEnded) (h : st.put event pc = some st') :
    st'.Finale closing := by
  unfold WatchStream.put at h
  split at h
  · split at h
    · rcases hpc with rfl | ⟨rfl, hend⟩
      · cases h
        exact .of_onward rfl
      · obtain rfl := Option.some.inj h
        exact {
          reads := fun hpc => by cases hpc
          sends := fun event hpc => by cases hpc
          sent := fun _ _ => ⟨event, List.getLast?_concat .., hend⟩ }
    · cases h
  · rename_i hatt
    cases h
    exact .of_detached rfl (by simpa using hatt)

/-- **A move on a stream keeps to its end**, where the server closes its streams
only once every task has ended. -/
theorem WatchStream.Finale.step {a : StreamAction} (hf : st.Finale closing)
    (hended : closing = true → (ServerEvent.snapshot s.registry.tasks).AllEnded)
    (h : st.step s capacity closing a = some st') : st'.Finale closing := by
  cases turns_of_step h with
  | puts _ hput => exact .put (.inl rfl) hput
  | readsLast hlast =>
    exact {
      reads := fun hpc => by cases hpc
      sends := fun event hpc => by cases hpc; exact hended (hf.reads hlast)
      sent := fun hpc => by cases hpc }
  | putsLast hlast hput => exact .put (.inr ⟨rfl, hf.sends _ hlast⟩) hput
  | closes _ hclosing =>
    exact {
      reads := fun _ => hclosing
      sends := fun event hpc => by cases hpc
      sent := fun hpc => by cases hpc }
  | leaves _ hgone => exact .of_detached rfl (by simpa using hgone)
  | receives => exact ⟨hf.reads, hf.sends, hf.sent⟩
  | detaches => exact ⟨hf.reads, hf.sends, fun _ hatt => by cases hatt⟩
  | _ => exact .of_onward rfl

/-! ### The stop -/

/-- `idle` has resolved. -/
def Server.idleOver (v : Server) : Prop :=
  v.main = .close ∨ v.main = .join ∨ v.main = .exited ∨
    ∃ index idler, v.main = .idling index ∧ v.runtime.idlers[index]? = some idler ∧
      idler.pc = .done

theorem Server.idleOver.stopped {v : Server} (h : v.idleOver) : v.main.stopped = true := by
  rcases h with h | h | h | ⟨index, idler, h, _⟩ <;> rw [h] <;> rfl

/-- How far a stop has come, and what holds by then. -/
structure Stopping (config : Config) (v : Server) : Prop where
  reaches : Reaches config ChildrenInBody v.runtime
  cancelled : v.main.stopped = true → v.runtime.AllCancelled
  settled : v.idleOver → v.runtime.AllSettled
  closing : v.closing = true → v.main = .join ∨ v.main = .exited
  streams : ∀ st ∈ v.streams, st.Finale v.closing

theorem Stopping.init : Stopping config Server.init where
  reaches := .refl _
  cancelled h := absurd h (by decide)
  settled := by rintro (h | h | h | ⟨_, _, h, _⟩) <;> cases h
  closing h := absurd h (by decide)
  streams st h := by cases h

/-- A server that closes its streams has no task left to end. -/
theorem Stopping.ended {v : Server} (h : Stopping config v) (hc : v.closing = true) :
    (ServerEvent.snapshot v.runtime.registry.tasks).AllEnded := by
  have hover : v.idleOver := by
    rcases h.closing hc with hm | hm
    · exact .inr (.inl hm)
    · exact .inr (.inr (.inl hm))
  intro task htask
  obtain ⟨y, hy⟩ := Registry.mem_tasks.mp htask
  exact (h.settled hover).task_terminal (Reaches.wf h.reaches) hy

theorem isServed_childrenInBody {a : Action Unit} (h : a.isServed = true) (s : State Unit) :
    ChildrenInBody s a := by
  cases a <;> trivial

theorem isServed_submitsRoot {a : Action Unit} (h : a.isServed = true) :
    a.submitsRoot = false := by
  cases a <;> first | rfl | cases h

theorem Stepped.idlers_served {a : Action Unit} (h : Stepped config s a s')
    (ha : a.isServed = true) :
    s'.idlers = s.idlers ∨ s'.idlers = s.idlers.map Idler.wake := by
  cases h with
  | notifyWaiters => exact .inr rfl
  | @drive id d d' op hd hturn =>
    cases op with
    | notify => exact .inr rfl
    | _ => exact .inl rfl
  | idle | idleStep => cases ha
  | _ => exact .inl rfl

/-- Only `serve` itself finds that `idle` has resolved. -/
theorem Server.idleOver.back {v v' : Server} (h : v'.idleOver) (hm : v'.main = v.main)
    (hi : v'.runtime.idlers = v.runtime.idlers ∨
      v'.runtime.idlers = v.runtime.idlers.map Idler.wake) : v.idleOver := by
  rcases h with h | h | h | ⟨index, idler, h, hidler, hpc⟩
  · exact .inl (hm ▸ h)
  · exact .inr (.inl (hm ▸ h))
  · exact .inr (.inr (.inl (hm ▸ h)))
  · refine .inr (.inr (.inr ?_))
    rcases hi with hi | hi
    · exact ⟨index, idler, hm ▸ h, hi ▸ hidler, hpc⟩
    · rw [hi, List.getElem?_map] at hidler
      obtain ⟨idler₀, hidler₀, rfl⟩ := Option.map_eq_some_iff.mp hidler
      exact ⟨index, idler₀, hm ▸ h, hidler₀, hpc⟩

/-- A step of the runtime that submits no root keeps what a stop has come to. -/
theorem Stopping.runtime_step {v v' : Server} {a : Action Unit} (h : Stopping config v)
    (hstep : step config v.runtime a = some v'.runtime) (hin : ChildrenInBody v.runtime a)
    (hroot : a.submitsRoot = false) (hm : v'.main.stopped = true → v.main.stopped = true)
    (hidle : v'.idleOver → v.idleOver)
    (hc : v'.closing = true → v'.main = .join ∨ v'.main = .exited)
    (hs : ∀ st ∈ v'.streams, st.Finale v'.closing) : Stopping config v' where
  reaches := .tail h.reaches hin hstep
  cancelled hstop :=
    (step_cases hstep).allCancelled (Reaches.wf h.reaches) hin hroot (h.cancelled (hm hstop))
  settled hover :=
    (step_cases hstep).allSettled (Reaches.wf h.reaches) hin hroot (h.settled (hidle hover))
  closing := hc
  streams := hs

/-- A step beside the runtime. -/
theorem Stopping.beside {v v' : Server} (h : Stopping config v) (hr : v'.runtime = v.runtime)
    (hm : v'.main.stopped = true → v.main.stopped = true) (hidle : v'.idleOver → v.idleOver)
    (hc : v'.closing = true → v'.main = .join ∨ v'.main = .exited)
    (hs : ∀ st ∈ v'.streams, st.Finale v'.closing) : Stopping config v' where
  reaches := hr ▸ h.reaches
  cancelled hstop := hr ▸ h.cancelled (hm hstop)
  settled hover := hr ▸ h.settled (hidle hover)
  closing := hc
  streams := hs

/-- The streams are open until `serve` closes them. -/
theorem Stopping.open_of {v : Server} (h : Stopping config v) (hjoin : v.main ≠ .join)
    (hexit : v.main ≠ .exited) : v.closing ≠ true := by
  intro hc
  rcases h.closing hc with hm | hm
  · exact hjoin hm
  · exact hexit hm

theorem Stopping.cancelAll {v : Server} {s : State Unit} (h : Stopping config v)
    (hmain : v.main = .cancelAll) (hstep : step config v.runtime .cancelAll = some s) :
    Stopping config { v with runtime := s, main := .idle } := by
  have hin : ChildrenInBody v.runtime .cancelAll := trivial
  have hfam : Family v.runtime := Reaches.family (fun _ _ h => h) h.reaches
  have hopen := h.open_of (by rw [hmain]; decide) (by rw [hmain]; decide)
  refine ⟨.tail h.reaches hin hstep, fun _ => ?_, fun hover => ?_, fun hc => absurd hc hopen,
    h.streams⟩
  · exact hfam.allCancelled (Reaches.wf h.reaches) hstep
  · rcases hover with hm | hm | hm | ⟨_, _, hm, _⟩ <;> cases hm

theorem Stopping.idle {v : Server} {s : State Unit} (h : Stopping config v)
    (hmain : v.main = .idle) (hstep : step config v.runtime .idle = some s) :
    Stopping config { v with runtime := s, main := .idling v.runtime.idlers.length } := by
  have hopen := h.open_of (by rw [hmain]; decide) (by rw [hmain]; decide)
  refine h.runtime_step hstep trivial rfl (fun _ => by rw [hmain]; rfl) (fun hover => ?_)
    (fun hc => absurd hc hopen) h.streams
  -- the call has only just been made
  rcases hover with hm | hm | hm | ⟨index, idler, hm, hidler, hpc⟩
  · cases hm
  · cases hm
  · cases hm
  · cases hm
    cases hstep
    rw [List.getElem?_concat_length] at hidler
    cases hidler
    cases hpc

theorem Stopping.idleStep {v : Server} {s : State Unit} {index : Nat} (h : Stopping config v)
    (hmain : v.main = .idling index) (hstep : step config v.runtime (.idleStep index) = some s) :
    Stopping config { v with runtime := s } := by
  have hin : ChildrenInBody v.runtime (.idleStep index) := trivial
  have hwf := Reaches.wf h.reaches
  have hfam : Family v.runtime := Reaches.family (fun _ _ h => h) h.reaches
  have hopen := h.open_of (by rw [hmain]; nofun) (by rw [hmain]; nofun)
  refine ⟨.tail h.reaches hin hstep, fun _ => ?_, fun hover => ?_, fun hc => absurd hc hopen,
    h.streams⟩
  · exact (step_cases hstep).allCancelled hwf hin rfl (h.cancelled (by rw [hmain]; rfl))
  · rcases hover with hm | hm | hm | ⟨index', idler', hm, hidler', hpc⟩
    · rw [hmain] at hm; cases hm
    · rw [hmain] at hm; cases hm
    · rw [hmain] at hm; cases hm
    · rw [hmain] at hm
      cases hm
      refine (step_cases hstep).allSettled hwf hin rfl (hfam.allSettled hwf ?_)
      simp only [step, Option.bind_eq_bind, Option.bind_eq_some_iff] at hstep
      obtain ⟨idler, hidler, next, hnext, hstep⟩ := hstep
      cases hstep
      obtain ⟨hlt, _⟩ := List.getElem?_eq_some_iff.mp hidler
      rw [List.getElem?_set_self hlt] at hidler'
      cases hidler'
      exact Idler.not_busy_of_done hnext hpc

/-- **A step of `serve` takes the stop on.** -/
theorem Stopping.serve {v v' : Server} (h : Stopping config v) (hs : v.serve config = some v') :
    Stopping config v' := by
  unfold Server.serve at hs
  split at hs
  · rename_i hmain
    split at hs
    · cases hs
      have hopen := h.open_of (by rw [hmain]; decide) (by rw [hmain]; decide)
      refine h.beside rfl (fun hstop => by cases hstop) (fun hover => ?_)
        (fun hc => absurd hc hopen) h.streams
      rcases hover with hm | hm | hm | ⟨_, _, hm, _⟩ <;> cases hm
    · cases hs
  · rename_i hmain
    obtain ⟨s, hstep, rfl⟩ := Option.map_eq_some_iff.mp hs
    exact h.cancelAll hmain hstep
  · rename_i hmain
    obtain ⟨s, hstep, rfl⟩ := Option.map_eq_some_iff.mp hs
    exact h.idle hmain hstep
  · rename_i index hmain
    simp only [Option.bind_eq_bind, Option.bind_eq_some_iff] at hs
    obtain ⟨idler, hidler, hs⟩ := hs
    split at hs
    · rename_i hdone
      cases hs
      have hopen := h.open_of (by rw [hmain]; nofun) (by rw [hmain]; nofun)
      exact h.beside rfl (fun _ => by rw [hmain]; rfl)
        (fun _ => .inr (.inr (.inr ⟨index, idler, hmain, hidler, hdone⟩)))
        (fun hc => absurd hc hopen) h.streams
    · obtain ⟨s, hstep, rfl⟩ := Option.map_eq_some_iff.mp hs
      exact h.idleStep hmain hstep
  · rename_i hmain
    cases hs
    refine h.beside rfl (fun _ => by rw [hmain]; rfl) (fun _ => .inl hmain) (fun _ => .inl rfl) ?_
    intro st hst
    have hf := h.streams st hst
    exact ⟨fun _ => rfl, hf.sends, hf.sent⟩
  · rename_i hmain
    split at hs
    · cases hs
      exact h.beside rfl (fun _ => by rw [hmain]; rfl) (fun _ => .inr (.inl hmain))
        (fun _ => .inr rfl) h.streams
    · cases hs
  · cases hs

/-- **Every step keeps what the stop has come to**, where no late line submits a
task. -/
theorem Stopping.step {v v' : Server} {action : ServerAction} (h : Stopping config v)
    (hlate : NoLateDemo v action)
    (hstep : serverStep config capacity status v action = some v') : Stopping config v' := by
  have hclosing : v'.closing = v.closing → v'.main = v.main →
      (v'.closing = true → v'.main = .join ∨ v'.main = .exited) := by
    intro hc hm
    rw [hc, hm]
    exact h.closing
  have hstreams : v'.closing = v.closing → v'.streams = v.streams →
      ∀ st ∈ v'.streams, st.Finale v'.closing := by
    intro hc hs
    rw [hc, hs]
    exact h.streams
  cases serverStep_cases hstep with
  | aside hr hm hc hs =>
    exact h.beside hr (fun hstop => hm ▸ hstop) (fun hover => hover.back hm (.inl (by rw [hr])))
      (hclosing hc hm) (hstreams hc hs)
  | @submitted index task submitted kind line ha hline hsub hsubmit hm hc hs =>
    subst ha
    -- `cancel_all` is still to come
    have hgoing : v.main.stopped ≠ true := by
      intro hstop
      have hnone := hlate hstop
      simp only [Server.submitsAt, hline, hsub, Bool.true_eq_false] at hnone
    have hin : ChildrenInBody v.runtime (.submit task kind submitted) := trivial
    exact {
      reaches := .tail h.reaches hin hsubmit
      cancelled := fun hstop => absurd (hm ▸ hstop) hgoing
      settled := fun hover => absurd (hm ▸ hover.stopped) hgoing
      closing := hclosing hc hm
      streams := hstreams hc hs }
  | served ha hserved hm hc hs =>
    exact h.runtime_step hserved (isServed_childrenInBody ha _) (isServed_submitsRoot ha)
      (fun hstop => hm ▸ hstop)
      (fun hover => hover.back hm ((step_cases hserved).idlers_served ha))
      (hclosing hc hm) (hstreams hc hs)
  | watch hr hm hc hs =>
    refine h.beside hr (fun hstop => hm ▸ hstop) (fun hover => hover.back hm (.inl (by rw [hr])))
      (hclosing hc hm) ?_
    rw [hc, hs]
    intro st hst
    rcases List.mem_append.mp hst with hst | hst
    · exact h.streams st hst
    · obtain rfl := List.mem_singleton.mp hst
      exact .of_onward rfl
  | @stream index a st st' hst hmove hr hm hc hs =>
    refine h.beside hr (fun hstop => hm ▸ hstop) (fun hover => hover.back hm (.inl (by rw [hr])))
      (hclosing hc hm) ?_
    rw [hc, hs]
    intro st₁ hst₁
    rcases List.mem_or_eq_of_mem_set hst₁ with hst₁ | rfl
    · exact h.streams st₁ hst₁
    · exact (h.streams st (List.mem_of_getElem? hst)).step h.ended hmove
  | serve hs => exact h.serve hs

/-- **A server that submits nothing late shows how every task ended.**  After
`cancel_all` every task that has not settled is cancelled, and the snapshot a
stream closes with is of tasks that have all ended. -/
theorem stopped_server_shows_every_end {v : Server}
    (h : Steps (serverStep config capacity status) NoLateDemo .init v) :
    (v.main.stopped = true → v.runtime.AllCancelled) ∧
      ∀ st ∈ v.streams,
        (∀ event, st.pc = .lastSend event → event.AllEnded) ∧
        (st.pc = .done → st.attached = true →
          ∃ event, st.sent.getLast? = some event ∧ event.AllEnded) := by
  have hstop : Stopping config v :=
    h.invariant (fun _ _ _ hv hlate hstep => hv.step hlate hstep) .init
  exact ⟨hstop.cancelled, fun st hst => ⟨(hstop.streams st hst).sends, (hstop.streams st hst).sent⟩⟩

/-- A `task.demo` with its defaults. -/
def demoLine : Line := .ok ⟨none, methodTaskDemo, .ok ⟨5, false⟩⟩

/-- A client watches, and an API connection takes a `task.demo`. -/
def demoTaken : List ServerAction :=
  [.watch, .stream 0 .forward, .stream 0 .forward, .stream 0 .forward, .accept, .line 0 demoLine]

/-- The demo runs, and the server stops: the demo ends, `idle` resolves, and the
stream closes. -/
def demoThenStop : List ServerAction :=
  demoTaken ++ .respond 0 ⟨1⟩ 0 :: List.replicate 4 (.runtime (.drive ⟨1⟩)) ++
    [.runtime (.runReturns ⟨1⟩), .signal, .main, .main] ++
    List.replicate 3 (.runtime (.drive ⟨1⟩)) ++
    .runtime (.bodyEnds ⟨1⟩ (.err ⟨.interrupted, "cancelled"⟩)) ::
    List.replicate 8 (.runtime (.drive ⟨1⟩)) ++ List.replicate 5 .main ++
    [.stream 0 .closing, .stream 0 .forward, .stream 0 .forward]

def demoStopped : Server := Server.init.run .default 1024 (.ok "") NoLateDemo demoThenStop

theorem reaches_demoStopped :
    Steps (serverStep .default 1024 (.ok "")) NoLateDemo .init demoStopped :=
  Server.steps_run ..

theorem stopped_demo_shown_ended :
    demoStopped.runtime.AllCancelled ∧
      ∃ event, ((demoStopped.streams[0]?).get (by decide)).sent.getLast? = some event ∧
        event.AllEnded := by
  have h := stopped_server_shows_every_end reaches_demoStopped
  refine ⟨h.1 (by decide), (h.2 _ ?_).2 (by decide) (by decide)⟩
  exact List.mem_of_getElem? (Option.some_get _).symm

/-- The server stops first, and the connection answers once `idle` has resolved. -/
def demoLate : Server :=
  Server.init.run .default 1024 (.ok "") anyServer
    (demoTaken ++ .signal :: List.replicate 6 .main ++
      [.respond 0 ⟨1⟩ 0, .main, .stream 0 .closing, .stream 0 .forward])

theorem reaches_demoLate :
    Steps (serverStep .default 1024 (.ok "")) anyServer .init demoLate :=
  Server.steps_run ..

/-- **A late `task.demo` is not cancelled, and the last snapshot shows it
queued.** -/
theorem late_demo_outlives_the_stop :
    (¬ ∀ v, Steps (serverStep .default 1024 (.ok "")) anyServer .init v →
      v.main.stopped = true → v.runtime.AllCancelled) ∧
    ¬ ∀ v, Steps (serverStep .default 1024 (.ok "")) anyServer .init v →
      ∀ st ∈ v.streams, ∀ event, st.pc = .lastSend event → event.AllEnded := by
  constructor
  · intro h
    have hcancelled := h demoLate reaches_demoLate (by decide) ⟨1⟩
      ((demoLate.runtime.drivers ⟨1⟩).get (by decide)) (by simp) (by decide)
    exact absurd hcancelled (by decide)
  · intro h
    have hended := h demoLate reaches_demoLate ((demoLate.streams[0]?).get (by decide))
      (List.mem_of_getElem? (Option.some_get _).symm) (.snapshot demoLate.runtime.registry.tasks)
      (by decide)
    exact absurd (hended ((demoLate.runtime.registry.task ⟨1⟩).get (by decide))
      (Registry.mem_tasks.mpr ⟨⟨1⟩, by simp⟩)) (by decide)

end FilePeeker
