import FilePeeker.Lib.Channel
import FilePeeker.Task.Wf

/-!
# What the submitter of a task is given

The runtime with the handles of its tasks.  Each task has a bounded channel for the batches
its body emits, and a oneshot for how it ended; the handle holds the receiving ends.
`World.step` interleaves the runtime's own steps with what bodies and submitters do to these:

* bodies: `emit` (a call that returned `Ok`), `stop` (one that returned `Stop`), and
  `dropContext`;
* submitters: `next`, `outcome` and what it resolves to, `detach` for a handle, or the future
  of its `outcome`, that is dropped.

A call of `emit` or `next` that waits has not happened yet.
-/

namespace FilePeeker.Items

variable {Item Output : Type}

/-- How far the code that submitted a task is. -/
inductive Reader (Output : Type)
  /-- Has the handle. -/
  | follows
  /-- In `outcome`, which dropped the items. -/
  | waits
  | ended (outcome : Outcome Output)
  | detached
deriving DecidableEq

structure Stream (Item Output : Type) where
  channel : Channel (List Item)
  reader : Reader Output

structure World (Item Output : Type) where
  runtime : State Output
  streams : TaskId → Option (Stream Item Output)

inductive Act (Item Output : Type)
  | runtime (a : Action Output)
  | emit (id : TaskId) (batch : List Item)
  | stop (id : TaskId)
  | dropContext (id : TaskId)
  | next (id : TaskId)
  | outcome (id : TaskId)
  | resolve (id : TaskId)
  | detach (id : TaskId)

def World.init : World Item Output := ⟨.init, fun _ => none⟩

def World.setStream (w : World Item Output) (id : TaskId) (st : Stream Item Output) :
    World Item Output :=
  { w with streams := Function.update w.streams id (some st) }

/-- `drive` is about to return without having made a `TaskContext`: it drops the sender it
was given. -/
def dropsSender (d : Driver Output) : Bool :=
  match d.pc with
  | .deliver _ => !d.called
  | _ => false

def Stream.hangUp (st : Stream Item Output) : Stream Item Output :=
  { st with channel := st.channel.hangUp }

/-- The channels after a step of the runtime: `start` makes one. -/
def World.streamsAfter (w : World Item Output) (buffer : Nat) :
    Action Output → TaskId → Option (Stream Item Output)
  | .submit id _ _ | .submitChild _ id _ _ =>
    Function.update w.streams id (some ⟨.opened buffer, .follows⟩)
  | .drive id =>
    if (w.runtime.drivers id).any dropsSender then
      Function.update w.streams id ((w.streams id).map Stream.hangUp)
    else w.streams
  | _ => w.streams

/-- `Handle::next`: what it gives, where it does not wait. -/
def World.next (w : World Item Output) (id : TaskId) :
    Option (Option (List Item) × World Item Output) := do
  let st ← w.streams id
  let (got, channel) ← st.channel.recv
  return (got, w.setStream id { st with channel := channel })

/-- What the oneshot gives: a sender that was dropped counts as a cancelled task. -/
def delivered (d : Driver Output) : Option (Outcome Output) :=
  match d.pc with
  | .done outcome => some outcome
  | .dead => some (.error .cancelled)
  | _ => none

def World.step (config : Config) (buffer : Nat) (w : World Item Output) :
    Act Item Output → Option (World Item Output)
  | .runtime a =>
    (FilePeeker.step config w.runtime a).map fun s => ⟨s, w.streamsAfter buffer a⟩
  | .emit id batch => do
    let d ← w.runtime.drivers id
    guard d.called
    let st ← w.streams id
    let channel ← st.channel.push batch
    return w.setStream id { st with channel := channel }
  | .stop id => do
    let d ← w.runtime.drivers id
    guard d.called
    let st ← w.streams id
    guard (st.channel.sending && (!st.channel.receiving || w.runtime.isCancelled d.token))
    return w
  | .dropContext id => do
    let d ← w.runtime.drivers id
    guard d.called
    let st ← w.streams id
    return w.setStream id st.hangUp
  | .next id => (w.next id).map Prod.snd
  | .outcome id => do
    let st ← w.streams id
    match st.reader with
    | .follows => return w.setStream id ⟨st.channel.close, .waits⟩
    | _ => none
  | .resolve id => do
    let d ← w.runtime.drivers id
    let st ← w.streams id
    match st.reader with
    | .waits => return w.setStream id { st with reader := .ended (← delivered d) }
    | _ => none
  | .detach id => do
    let st ← w.streams id
    match st.reader with
    | .follows | .waits => return w.setStream id ⟨st.channel.close, .detached⟩
    | _ => none

/-- The batch that a body of `x` emits in a step, if any. -/
def emits (x : TaskId) : Act Item Output → Option (List Item)
  | .emit id batch => if id = x then some batch else none
  | _ => none

/-- The batch that a call of `next` for `x` returns in a step, if any. -/
def gives (x : TaskId) (w : World Item Output) : Act Item Output → Option (List Item)
  | .next id => if id = x then (w.next id).bind Prod.fst else none
  | _ => none

/-- The batches that bodies of `x` emit in a run. -/
def emitted (x : TaskId) (acts : List (Act Item Output)) : List (List Item) :=
  acts.filterMap (emits x)

/-- The batches that the calls of `next` for `x` return in a run. -/
def given (config : Config) (buffer : Nat) (x : TaskId) (acts : List (Act Item Output)) :
    List (List Item) :=
  shown (World.step config buffer) (gives x) .init acts

/-- Every run. -/
abbrev anyAct (_ : World Item Output) (_ : Act Item Output) : Prop := True

variable {config : Config} {buffer : Nat} {w w' u : World Item Output} {x id : TaskId}
  {st st' : Stream Item Output} {act : Act Item Output} {acts : List (Act Item Output)}
  {d d' : Driver Output} {batch got : Option (List Item)}

/-! ### What a step does -/

/-- What can happen to one stream in a step, with the batch that was emitted and the one that
was given. -/
inductive Streamed (w : World Item Output) (x : TaskId) (st : Stream Item Output) :
    Option (List Item) → Option (List Item) → Stream Item Output → Prop
  | same : Streamed w x st none none st
  | hungUp : Streamed w x st none none st.hangUp
  | pushed {batch : List Item} {channel : Channel (List Item)}
      (h : st.channel.push batch = some channel) :
      Streamed w x st (some batch) none { st with channel := channel }
  | received {got : Option (List Item)} {channel : Channel (List Item)}
      (h : st.channel.recv = some (got, channel)) :
      Streamed w x st none got { st with channel := channel }
  | closed {reader : Reader Output} (hr : reader = .waits ∨ reader = .detached) :
      Streamed w x st none none ⟨st.channel.close, reader⟩
  | resolved {d : Driver Output} {outcome : Outcome Output} (hd : w.runtime.drivers x = some d)
      (ho : delivered d = some outcome) (hr : st.reader = .waits) :
      Streamed w x st none none { st with reader := .ended outcome }

theorem setStream_self (w : World Item Output) (id : TaskId) (st : Stream Item Output) :
    (w.setStream id st).streams id = some st :=
  Function.update_self _ _ _

theorem setStream_of_ne (w : World Item Output) (st : Stream Item Output) (h : x ≠ id) :
    (w.setStream id st).streams x = w.streams x :=
  Function.update_of_ne h _ _

/-- A step that is not the runtime's moves one stream, or nothing. -/
theorem step_sets (hact : ∀ a, act ≠ .runtime a) (hstep : w.step config buffer act = some w') :
    w' = w ∧ (∀ x, emits x act = none ∧ gives x w act = none) ∨
      ∃ id st st', w.streams id = some st ∧ w' = w.setStream id st' ∧
        Streamed w id st (emits id act) (gives id w act) st' ∧
        ∀ x, x ≠ id → emits x act = none ∧ gives x w act = none := by
  cases act with
  | runtime a => exact absurd rfl (hact a)
  | emit id batch =>
    simp only [World.step, Option.bind_eq_bind, Option.bind_eq_some_iff] at hstep
    obtain ⟨_, _, _, _, st, hst, channel, hpush, heq⟩ := hstep
    cases heq
    refine .inr ⟨id, st, _, hst, rfl, ?_, fun x hx => ⟨if_neg (Ne.symm hx), rfl⟩⟩
    rw [emits, if_pos rfl]
    exact .pushed hpush
  | stop id =>
    simp only [World.step, Option.bind_eq_bind, Option.bind_eq_some_iff] at hstep
    obtain ⟨_, _, _, _, _, _, _, _, heq⟩ := hstep
    cases heq
    exact .inl ⟨rfl, fun _ => ⟨rfl, rfl⟩⟩
  | dropContext id =>
    simp only [World.step, Option.bind_eq_bind, Option.bind_eq_some_iff] at hstep
    obtain ⟨_, _, _, _, st, hst, heq⟩ := hstep
    cases heq
    exact .inr ⟨id, st, _, hst, rfl, .hungUp, fun _ _ => ⟨rfl, rfl⟩⟩
  | next id =>
    obtain ⟨⟨got, w₁⟩, hnext, rfl⟩ := Option.map_eq_some_iff.mp hstep
    have hgot : (w.next id).bind Prod.fst = got := by
      rw [hnext]
      rfl
    simp only [World.next, Option.bind_eq_bind, Option.bind_eq_some_iff] at hnext
    obtain ⟨st, hst, ⟨_, channel⟩, hrecv, heq⟩ := hnext
    cases heq
    refine .inr ⟨id, st, _, hst, rfl, ?_, fun x hx => ⟨rfl, if_neg (Ne.symm hx)⟩⟩
    rw [gives, if_pos rfl, hgot]
    exact .received hrecv
  | outcome id =>
    simp only [World.step, Option.bind_eq_bind, Option.bind_eq_some_iff] at hstep
    obtain ⟨st, hst, heq⟩ := hstep
    split at heq <;> cases heq
    exact .inr ⟨id, st, _, hst, rfl, .closed (.inl rfl), fun _ _ => ⟨rfl, rfl⟩⟩
  | resolve id =>
    simp only [World.step, Option.bind_eq_bind, Option.bind_eq_some_iff] at hstep
    obtain ⟨d, hd, st, hst, heq⟩ := hstep
    split at heq
    · next hr =>
      obtain ⟨outcome, ho, heq⟩ := Option.bind_eq_some_iff.mp heq
      cases heq
      exact .inr ⟨id, st, _, hst, rfl, .resolved hd ho hr, fun _ _ => ⟨rfl, rfl⟩⟩
    · cases heq
  | detach id =>
    simp only [World.step, Option.bind_eq_bind, Option.bind_eq_some_iff] at hstep
    obtain ⟨st, hst, heq⟩ := hstep
    split at heq <;> cases heq
    all_goals exact .inr ⟨id, st, _, hst, rfl, .closed (.inr rfl), fun _ _ => ⟨rfl, rfl⟩⟩

/-! ### The runtime goes on as if nobody followed it -/

theorem step_runtime (hstep : w.step config buffer act = some w') :
    w'.runtime = w.runtime ∨ ∃ a s, act = .runtime a ∧
      FilePeeker.step config w.runtime a = some s ∧ w' = ⟨s, w.streamsAfter buffer a⟩ := by
  by_cases hact : ∃ a, act = .runtime a
  · obtain ⟨a, rfl⟩ := hact
    obtain ⟨s, hs, rfl⟩ := Option.map_eq_some_iff.mp hstep
    exact .inr ⟨a, s, rfl, hs, rfl⟩
  · rcases step_sets (not_exists.mp hact) hstep with ⟨rfl, -⟩ | ⟨_, _, _, -, rfl, -⟩ <;>
      exact .inl rfl

/-- **The runtime's part of a run is a run of the runtime.** -/
theorem runtime_reaches (hrun : Steps (World.step config buffer) anyAct .init w) :
    Reaches config anyRun w.runtime := by
  induction hrun with
  | refl => exact .refl _
  | tail _ _ hstep ih =>
    rcases step_runtime hstep with h | ⟨a, s, -, hs, rfl⟩
    · rw [h]
      exact ih
    · exact .tail ih trivial hs

/-! ### What a step does to the stream of one task -/

theorem streamed_of_runtime {a : Action Output} {s : State Output}
    (hfits : (w.runtime.drivers x).isSome)
    (hst : w.streams x = some st) (hs : FilePeeker.step config w.runtime a = some s) :
    ∃ st', w.streamsAfter buffer a x = some st' ∧ Streamed w x st none none st' := by
  have hfresh : ∀ id kind submitted parent, Submits id kind submitted a parent → x ≠ id := by
    intro id kind submitted parent hsub hx
    subst hx
    rcases hsub with _ | _ <;>
      simp [FilePeeker.step, State.start, hfits] at hs
  cases a with
  | submit id kind submitted =>
    have hne := hfresh id kind submitted none .submit
    exact ⟨st, by simpa only [World.streamsAfter, Function.update_of_ne hne] using hst, .same⟩
  | submitChild parent id kind submitted =>
    have hne := hfresh id kind submitted (some parent) .submitChild
    exact ⟨st, by simpa only [World.streamsAfter, Function.update_of_ne hne] using hst, .same⟩
  | drive id =>
    simp only [World.streamsAfter]
    split
    · by_cases hx : x = id
      · subst hx
        exact ⟨st.hangUp, by rw [Function.update_self, hst]; rfl, .hungUp⟩
      · exact ⟨st, by rw [Function.update_of_ne hx, hst], .same⟩
    · exact ⟨st, hst, .same⟩
  | _ => exact ⟨st, hst, .same⟩

/-- **A stream there was before a step is there after it, moved.** -/
theorem step_streamed (hfits : (w.runtime.drivers x).isSome) (hst : w.streams x = some st)
    (hstep : w.step config buffer act = some w') :
    ∃ st', w'.streams x = some st' ∧ Streamed w x st (emits x act) (gives x w act) st' := by
  by_cases hact : ∃ a, act = .runtime a
  · obtain ⟨a, rfl⟩ := hact
    obtain ⟨s, hs, rfl⟩ := Option.map_eq_some_iff.mp hstep
    exact streamed_of_runtime hfits hst hs
  rcases step_sets (not_exists.mp hact) hstep with
    ⟨rfl, hnone⟩ | ⟨id, st₀, st', hst₀, rfl, hmoved, hother⟩
  · rw [(hnone x).1, (hnone x).2]
    exact ⟨st, hst, .same⟩
  · by_cases hx : x = id
    · subst hx
      rw [hst₀] at hst
      cases hst
      exact ⟨st', setStream_self w x st', hmoved⟩
    · rw [(hother x hx).1, (hother x hx).2]
      exact ⟨st, (setStream_of_ne w st' hx).trans hst, .same⟩

/-! ### How a stream and its driver fit together -/

structure Stream.Fits (buffer : Nat) (d : Driver Output) (st : Stream Item Output) : Prop where
  capacity : st.channel.capacity = buffer
  reads : st.channel.receiving = true ↔ st.reader = .follows
  ended : ∀ o, st.reader = .ended o → delivered d = some o

/-- Every task has a stream that fits its driver. -/
def World.Fits (buffer : Nat) (w : World Item Output) : Prop :=
  ∀ x d, w.runtime.drivers x = some d → ∃ st, w.streams x = some st ∧ st.Fits buffer d

theorem delivered_eq_some {o : Outcome Output} (h : delivered d = some o) :
    d.pc = .done o ∨ d.pc = .dead ∧ o = .error .cancelled := by
  unfold delivered at h
  split at h <;> cases h
  · exact .inl ‹_›
  · exact .inr ⟨‹_›, rfl⟩

/-- A driver that is over stays where it is. -/
theorem moved_of_delivered {s : State Output} {a : Action Output} {o : Outcome Output}
    (hm : Moved config s a x d d') (h : delivered d = some o) : delivered d' = some o := by
  have hover := delivered_eq_some h
  suffices hpc : d'.pc = d.pc by rwa [delivered, hpc]
  cases hm with
  | same => rfl
  | woken => rfl
  | turn _ hturn => cases hturn <;> simp_all
  | nudge hn => cases hn <;> simp_all

theorem streamed_fits (hf : st.Fits buffer d) (hd : w.runtime.drivers x = some d)
    (h : Streamed w x st batch got st') : st'.Fits buffer d := by
  cases h with
  | same => exact hf
  | hungUp => exact ⟨hf.capacity, hf.reads, hf.ended⟩
  | pushed hpush =>
    obtain ⟨-, -, -, -, -, -, hr, hc⟩ := Channel.push_eq_some hpush
    exact ⟨hc.trans hf.capacity, by rw [hr]; exact hf.reads, hf.ended⟩
  | received hrecv =>
    obtain ⟨-, -, -, hr, hc⟩ := Channel.recv_eq_some hrecv
    exact ⟨hc.trans hf.capacity, by rw [hr]; exact hf.reads, hf.ended⟩
  | closed hreader =>
    rcases hreader with rfl | rfl <;> exact ⟨hf.capacity, by simp, nofun⟩
  | resolved hd' ho hr =>
    rw [hd] at hd'
    cases hd'
    have hclosed := hf.reads
    rw [hr] at hclosed
    have hnot : st.channel.receiving ≠ true := fun h => by cases hclosed.mp h
    refine ⟨hf.capacity, ⟨fun h => absurd h hnot, nofun⟩, ?_⟩
    rintro o ⟨⟩
    exact ho

/-- The stream of a task that has just been submitted. -/
theorem streamsAfter_submit {kind : TaskKind} {submitted : SystemTime} {a : Action Output}
    {parent : Option TaskId} (hsub : Submits x kind submitted a parent)
    (w : World Item Output) : w.streamsAfter buffer a x = some ⟨.opened buffer, .follows⟩ := by
  rcases hsub with _ | _ <;> exact Function.update_self _ _ _

theorem step_fits (hf : w.Fits buffer) (hstep : w.step config buffer act = some w') :
    w'.Fits buffer := by
  intro x d' hd'
  -- the task was there before, or this step submits it
  have hback : (∃ d, w.runtime.drivers x = some d ∧ ∃ s a, Moved config s a x d d') ∨
      w'.streams x = some ⟨.opened buffer, .follows⟩ := by
    rcases step_runtime hstep with h | ⟨a, s, -, hs, rfl⟩
    · exact .inl ⟨d', by rw [← h]; exact hd', w.runtime, .cancelAll, .same⟩
    · rcases (step_cases hs).driver hd' with ⟨_, hstart⟩ | ⟨d, hd, hm⟩
      · refine .inr ?_
        cases hstart with
        | mk _ hsub _ => exact streamsAfter_submit hsub w
      · exact .inl ⟨d, hd, _, _, hm⟩
  rcases hback with ⟨d, hd, s, a, hm⟩ | hnew
  · obtain ⟨st, hst, hfit⟩ := hf x d hd
    obtain ⟨st', hst', hmoved⟩ := step_streamed (by rw [hd]; rfl) hst hstep
    have hfit' := streamed_fits hfit hd hmoved
    exact ⟨st', hst', hfit'.capacity, hfit'.reads, fun o ho =>
      moved_of_delivered hm (hfit'.ended o ho)⟩
  · exact ⟨_, hnew, rfl, by simp [Channel.opened], nofun⟩

theorem fits_of_run (hrun : Steps (World.step config buffer) anyAct .init w) : w.Fits buffer :=
  hrun.invariant (fun _ _ _ hf _ hstep => step_fits hf hstep) fun _ _ hd => by cases hd

/-- A task stays a task. -/
theorem isSome_of_run (hrun : Steps (World.step config buffer) anyAct w u)
    (h : (w.runtime.drivers x).isSome) : (u.runtime.drivers x).isSome := by
  refine hrun.invariant (I := fun v => (v.runtime.drivers x).isSome) ?_ h
  intro v act v' hv _ hstep
  rcases step_runtime hstep with heq | ⟨a, s, -, hs, rfl⟩
  · rw [heq]
    exact hv
  · obtain ⟨d, hd⟩ := Option.isSome_iff_exists.mp hv
    obtain ⟨d', hd', -⟩ := (step_cases hs).driver_forward hd
    exact Option.isSome_iff_exists.mpr ⟨d', hd'⟩

/-! ### What the submitter is given -/

/-- What a channel has had is what was emitted and given. -/
def Stream.Tallies (batches gaveOut : List (List Item)) (st : Stream Item Output) : Prop :=
  st.channel.accepted = batches ∧ st.channel.received = gaveOut

theorem streamed_tallies {batches gaveOut : List (List Item)} (ht : st.Tallies batches gaveOut)
    (h : Streamed w x st batch got st') :
    st'.Tallies (batches ++ batch.toList) (gaveOut ++ got.toList) := by
  obtain ⟨ha, hr⟩ := ht
  subst ha
  subst hr
  cases h with
  | same => exact ⟨(List.append_nil _).symm, (List.append_nil _).symm⟩
  | hungUp => exact ⟨(List.append_nil _).symm, (List.append_nil _).symm⟩
  | pushed hpush =>
    obtain ⟨-, -, -, ha, hr, -⟩ := Channel.push_eq_some hpush
    exact ⟨ha, hr.trans (List.append_nil _).symm⟩
  | received hrecv =>
    obtain ⟨ha, hr, -⟩ := Channel.recv_eq_some hrecv
    exact ⟨ha.trans (List.append_nil _).symm, hr⟩
  | closed => exact ⟨(List.append_nil _).symm, (List.append_nil _).symm⟩
  | resolved => exact ⟨(List.append_nil _).symm, (List.append_nil _).symm⟩

/-- The task that a step of the runtime submits has a driver after it. -/
theorem driver_of_submits {kind : TaskKind} {submitted : SystemTime} {a : Action Output}
    {parent : Option TaskId} {s s' : State Output} (hsub : Submits x kind submitted a parent)
    (hs : FilePeeker.step config s a = some s') : (s'.drivers x).isSome := by
  have hstarted : ∀ token, s.start config x kind parent token submitted = some s' →
      (s'.drivers x).isSome := by
    intro token hstart
    unfold State.start at hstart
    split at hstart
    · cases hstart
    · cases hstart
      simp
  cases hsub with
  | submit => exact hstarted _ hs
  | submitChild =>
    simp only [FilePeeker.step, Option.bind_eq_bind, Option.bind_eq_some_iff] at hs
    obtain ⟨_, _, _, _, hstart⟩ := hs
    exact hstarted _ hstart

/-- Where there is no stream, there is nothing to emit or to give, and a stream that comes to
be is a new task's. -/
theorem step_streamless (hst : w.streams x = none) (hstep : w.step config buffer act = some w') :
    emits x act = none ∧ gives x w act = none ∧ (w'.streams x = none ∨
      w'.streams x = some ⟨.opened buffer, .follows⟩ ∧ (w'.runtime.drivers x).isSome) := by
  by_cases hact : ∃ a, act = .runtime a
  · obtain ⟨a, rfl⟩ := hact
    obtain ⟨s, hs, rfl⟩ := Option.map_eq_some_iff.mp hstep
    refine ⟨rfl, rfl, ?_⟩
    have hnew : ∀ id kind submitted parent, Submits id kind submitted a parent →
        Function.update w.streams id (some ⟨.opened buffer, .follows⟩) x = none ∨
          Function.update w.streams id (some ⟨.opened buffer, .follows⟩) x =
            some ⟨.opened buffer, .follows⟩ ∧ (s.drivers x).isSome := by
      intro id kind submitted parent hsub
      by_cases hx : x = id
      · subst hx
        exact .inr ⟨Function.update_self _ _ _, driver_of_submits hsub hs⟩
      · exact .inl ((Function.update_of_ne hx _ _).trans hst)
    cases a with
    | submit id kind submitted => exact hnew id kind submitted none .submit
    | submitChild parent id kind submitted =>
      exact hnew id kind submitted (some parent) .submitChild
    | drive id =>
      refine .inl ?_
      simp only [World.streamsAfter]
      split
      · by_cases hx : x = id
        · subst hx
          rw [Function.update_self, hst]
          rfl
        · exact (Function.update_of_ne hx _ _).trans hst
      · exact hst
    | _ => exact .inl hst
  rcases step_sets (not_exists.mp hact) hstep with
    ⟨rfl, hnone⟩ | ⟨id, st₀, st', hst₀, rfl, -, hother⟩
  · exact ⟨(hnone x).1, (hnone x).2, .inl hst⟩
  · have hx : x ≠ id := by
      rintro rfl
      exact absurd (hst.symm.trans hst₀) nofun
    exact ⟨(hother x hx).1, (hother x hx).2, .inl ((setStream_of_ne w st' hx).trans hst)⟩

/-- **What a run's channels have had is what its calls emitted and returned.** -/
theorem tallies_of_exec (hrun : exec (World.step config buffer) .init acts = some w) :
    match w.streams x with
    | some st => (w.runtime.drivers x).isSome ∧
        st.Tallies (emitted x acts) (given config buffer x acts)
    | none => emitted x acts = [] ∧ given config buffer x acts = [] := by
  induction acts using List.reverseRecOn generalizing w with
  | nil =>
    cases hrun
    exact ⟨rfl, rfl⟩
  | append_singleton acts act ih =>
    obtain ⟨w₀, hw₀, hstep⟩ := exec_concat_eq_some.mp hrun
    have hbefore := ih hw₀
    have hemitted : emitted x (acts ++ [act]) = emitted x acts ++ (emits x act).toList := by
      cases hemits : emits x act <;> simp [emitted, List.filterMap_append, hemits]
    have hgiven : given config buffer x (acts ++ [act]) =
        given config buffer x acts ++ (gives x w₀ act).toList := shown_concat hw₀ hstep
    rw [hemitted, hgiven]
    cases hst : w₀.streams x with
    | some st =>
      rw [hst] at hbefore
      obtain ⟨hdriver, htallies⟩ := hbefore
      obtain ⟨st', hst', hmoved⟩ := step_streamed hdriver hst hstep
      rw [hst']
      exact ⟨isSome_of_run (.single trivial hstep) hdriver, streamed_tallies htallies hmoved⟩
    | none =>
      rw [hst] at hbefore
      obtain ⟨hnothing, hnone⟩ := hbefore
      obtain ⟨hemits, hgives, hst' | ⟨hst', hdriver⟩⟩ := step_streamless hst hstep
      · rw [hst', hemits, hgives, hnothing, hnone]
        exact ⟨rfl, rfl⟩
      · rw [hst', hemits, hgives, hnothing, hnone]
        exact ⟨hdriver, rfl, rfl⟩

/-- The stream is over: nobody sends, and this is what was sent and received. -/
def Over (l : List (List Item)) (st : Stream Item Output) : Prop :=
  st.channel.sending = false ∧ st.channel.accepted = l ∧ st.channel.received = l

theorem streamed_over {l : List (List Item)} (ho : Over l st)
    (h : Streamed w x st batch got st') : Over l st' := by
  obtain ⟨hs, ha, hr⟩ := ho
  cases h with
  | same => exact ⟨hs, ha, hr⟩
  | hungUp => exact ⟨rfl, ha, hr⟩
  | pushed hpush =>
    rw [Channel.push_of_silent hs] at hpush
    cases hpush
  | received hrecv =>
    obtain ⟨hacc, -, hsend, -⟩ := Channel.recv_eq_some hrecv
    have hall := Channel.received_of_all hrecv (hr.trans ha.symm)
    exact ⟨hsend.trans hs, hacc.trans ha, hall.trans (hacc.trans ha)⟩
  | closed => exact ⟨hs, ha, hr⟩
  | resolved => exact ⟨hs, ha, hr⟩

theorem run_over {l : List (List Item)} (htask : (w.runtime.drivers x).isSome)
    (hst : w.streams x = some st) (ho : Over l st)
    (hrun : Steps (World.step config buffer) anyAct w u) :
    ∃ st', u.streams x = some st' ∧ Over l st' := by
  refine hrun.invariant_from (I := fun v => ∃ st', v.streams x = some st' ∧ Over l st')
    ⟨st, hst, ho⟩ ?_
  rintro v act v' hv ⟨st', hst', ho'⟩ _ hstep
  obtain ⟨st'', hst'', hmoved⟩ := step_streamed (isSome_of_run hv htask) hst' hstep
  exact ⟨st'', hst'', streamed_over ho' hmoved⟩

/-- **Every batch is given once, and in order**: what the calls of `next` have returned is
always the beginning of what bodies have emitted, which is at most the buffer ahead while the
handle is held; what is left of it, `next` returns without waiting; and when `next` says that
the task has stopped emitting, it has returned every batch that was, or ever will be, emitted. -/
theorem batches_in_order (hrun : exec (World.step config buffer) .init acts = some w)
    (htask : (w.runtime.drivers x).isSome) :
    given config buffer x acts <+: emitted x acts ∧
      ((w.streams x).map Stream.reader = some .follows →
        (emitted x acts).length ≤ (given config buffer x acts).length + buffer ∧
        (given config buffer x acts ≠ emitted x acts →
          ∃ batch w', w.next x = some (some batch, w'))) ∧
      ∀ w', w.next x = some (none, w') → given config buffer x acts = emitted x acts ∧
        ∀ later u, exec (World.step config buffer) w' later = some u →
          emitted x (acts ++ .next x :: later) = emitted x acts ∧
            given config buffer x (acts ++ .next x :: later) = emitted x acts := by
  obtain ⟨d, hd⟩ := Option.isSome_iff_exists.mp htask
  obtain ⟨st, hst, hfit⟩ := fits_of_run (steps_of_exec acts hrun) x d hd
  have htallies := tallies_of_exec (x := x) hrun
  rw [hst] at htallies
  obtain ⟨-, hemitted, hgiven⟩ := htallies
  rw [← hemitted, ← hgiven]
  refine ⟨st.channel.inOrder, fun hreader => ?_, fun w' hnext => ?_⟩
  · have hfollows : st.reader = .follows := by
      rw [hst] at hreader
      exact Option.some.inj hreader
    have hopen := hfit.reads.mpr hfollows
    refine ⟨hfit.capacity ▸ Channel.accepted_length_le hopen, fun hleft => ?_⟩
    obtain ⟨batch, channel, hrecv⟩ := Channel.recv_of_left hopen hleft
    exact ⟨batch, w.setStream x { st with channel := channel }, by
      simp only [World.next, hst, hrecv, Option.bind_eq_bind, Option.bind_some, Option.pure_def]⟩
  · have hstep : w.step config buffer (.next x) = some w' := by
      rw [World.step, hnext]
      rfl
    simp only [World.next, hst, Option.bind_eq_bind, Option.bind_some,
      Option.bind_eq_some_iff] at hnext
    obtain ⟨⟨got, channel⟩, hrecv, heq⟩ := hnext
    cases heq
    obtain ⟨hs, rfl, hall⟩ := Channel.recv_none hrecv
    refine ⟨hall, fun later u hlater => ?_⟩
    have hwhole : exec (World.step config buffer) .init (acts ++ .next x :: later) = some u := by
      rw [exec_append, hrun, Option.bind_some, exec, hstep, Option.bind_some, hlater]
    obtain ⟨st', hst', -, ha, hr⟩ := run_over (l := st.channel.accepted)
      (w := w.setStream x { st with channel := st.channel }) htask (setStream_self _ _ _)
      ⟨hs, rfl, hall⟩ (steps_of_exec later hlater)
    have hend := tallies_of_exec (x := x) hwhole
    rw [hst'] at hend
    exact ⟨hend.2.1.symm.trans ha, hend.2.2.symm.trans hr⟩

/-- A walk that emits two batches and ends; its submitter has had the first. -/
def walk : List (Act Nat Nat) :=
  [.runtime (.submit ⟨1⟩ ⟨⟨"walk", [], .interactive⟩, []⟩ 0), .runtime (.drive ⟨1⟩),
    .runtime (.drive ⟨1⟩), .runtime (.drive ⟨1⟩), .runtime (.runReturns ⟨1⟩),
    .emit ⟨1⟩ [1, 2], .next ⟨1⟩, .emit ⟨1⟩ [3], .dropContext ⟨1⟩,
    .runtime (.bodyEnds ⟨1⟩ (.ok 3))]

def halfRead : World Nat Nat := runs (World.step Config.default 16) anyAct .init walk

def wholeRead : World Nat Nat :=
  runs (World.step Config.default 16) anyAct .init (walk ++ [.next ⟨1⟩])

/-- The submitter is given the second batch next, and then has had both. -/
theorem batches_in_order_walk :
    emitted ⟨1⟩ walk = [[1, 2], [3]] ∧ given Config.default 16 ⟨1⟩ walk = [[1, 2]] ∧
      (∃ batch w', halfRead.next ⟨1⟩ = some (some batch, w')) ∧
      given Config.default 16 ⟨1⟩ (walk ++ [.next ⟨1⟩]) = emitted ⟨1⟩ (walk ++ [.next ⟨1⟩]) := by
  have hhalf : exec (World.step Config.default 16) .init walk = some halfRead := rfl
  have hwhole : exec (World.step Config.default 16) .init (walk ++ [.next ⟨1⟩]) =
      some wholeRead := rfl
  obtain ⟨-, hheld, -⟩ := batches_in_order (x := ⟨1⟩) hhalf (by decide)
  obtain ⟨-, -, hend⟩ := batches_in_order (x := ⟨1⟩) hwhole (by decide)
  refine ⟨by decide, by decide, (hheld (by decide)).2 (by decide), ?_⟩
  obtain ⟨w', hnext⟩ : ∃ w', wholeRead.next ⟨1⟩ = some (none, w') := ⟨_, rfl⟩
  exact (hend w' hnext).1

/-! ### What `outcome` says -/

/-- **`outcome` says what the registry does**: how the task settled, unless its `run`
panicked before it returned a future; that task counts as cancelled for its submitter, and
stays running for everyone else. -/
theorem outcome_is_recorded {o : Outcome Output}
    (hrun : Steps (World.step config buffer) anyAct .init w) (hst : w.streams x = some st)
    (htask : (w.runtime.drivers x).isSome) (ho : st.reader = .ended o) :
    ∃ d, w.runtime.drivers x = some d ∧
      ((d.pc = .done o ∧
          ∀ e, w.runtime.registry.entry x = some e → e.info.state = stateOfOutcome o) ∨
        (d.pc = .dead ∧ o = .error .cancelled ∧
          ∀ e, w.runtime.registry.entry x = some e → e.info.state = .running)) := by
  obtain ⟨d, hd⟩ := Option.isSome_iff_exists.mp htask
  obtain ⟨st', hst', hfit⟩ := fits_of_run hrun x d hd
  rw [hst] at hst'
  cases hst'
  have hwf := (runtime_reaches hrun).wf
  have hshows : ∀ e, w.runtime.registry.entry x = some e → d.pc.shows d.body e.info.state :=
    fun e he => (hwf.entryOf he hd).shows
  refine ⟨d, hd, ?_⟩
  rcases delivered_eq_some (hfit.ended o ho) with hpc | ⟨hpc, hcancelled⟩
  · refine .inl ⟨hpc, fun e he => ?_⟩
    have hs := hshows e he
    rw [hpc] at hs
    exact hs
  · refine .inr ⟨hpc, hcancelled, fun e he => ?_⟩
    have hs := hshows e he
    rw [hpc] at hs
    exact hs

/-- The same walk, when its submitter has had both batches and then its outcome. -/
def heard : World Nat Nat :=
  runs (World.step Config.default 16) anyAct halfRead
    [.next ⟨1⟩, .next ⟨1⟩, .outcome ⟨1⟩, .runtime (.drive ⟨1⟩), .runtime (.drive ⟨1⟩),
      .runtime (.drive ⟨1⟩), .runtime (.drive ⟨1⟩), .runtime (.drive ⟨1⟩),
      .runtime (.drive ⟨1⟩), .runtime (.drive ⟨1⟩), .resolve ⟨1⟩]

theorem outcome_is_recorded_heard :
    ∃ d, heard.runtime.drivers ⟨1⟩ = some d ∧
      ((d.pc = .done (.ok 3) ∧ ∀ e, heard.runtime.registry.entry ⟨1⟩ = some e →
          e.info.state = stateOfOutcome (.ok 3 : Outcome Nat)) ∨
        (d.pc = .dead ∧ (.ok 3 : Outcome Nat) = .error .cancelled ∧
          ∀ e, heard.runtime.registry.entry ⟨1⟩ = some e → e.info.state = .running)) := by
  obtain ⟨st, hst⟩ := Option.isSome_iff_exists.mp
    (show (heard.streams ⟨1⟩).isSome = true by decide)
  have hended : (heard.streams ⟨1⟩).map Stream.reader = some (.ended (.ok 3)) := by decide
  rw [hst] at hended
  exact outcome_is_recorded ((steps_runs _ _).trans (steps_runs _ _)) hst (by decide)
    (Option.some.inj hended)

end FilePeeker.Items
