import FilePeeker.Task.Rest
import FilePeeker.Task.Retention
import FilePeeker.Task.Wakeup

/-!
# Every admitted task settles

The drivers come to rest (`Reaches.rests`), and where they are at rest a task
whose body is over, with all the bodies beneath it, has settled: a driver that
still waits does so for a child it cancelled, and that child's driver waits in
turn, down to one whose wait is over.

One way of ending is not over for the driver: `run` is called in the driver's
own task, so a panic in the call itself, before there is a future, takes the
driver with it.  Its slot is given back on the way, and the task stays
`Running` (`panic_in_run_never_settles`).
-/

namespace FilePeeker

variable {Output : Type} {config : Config} {s s' : State Output} {id x : TaskId}
  {d d' : Driver Output} {op : Op} {a : Action Output}

/-- The driver is gone, or on its way. -/
def Pc.unwinding : Pc Output → Bool
  | unwindSlot | unwindNotify | dead => true
  | _ => false

theorem Turn.unwinding (h : Turn config s id d op d') (hu : d'.pc.unwinding = true) :
    d.pc.unwinding = true := by
  cases h with
  | unwindSlot hpc | unwindNotify hpc => simp [hpc, Pc.unwinding]
  | admitFail =>
    unfold Driver.refuse at hu
    cases hq : d.ticket.queued <;> simp [hq, Pc.unwinding] at hu
  | pollEnded | joinCancelled =>
    unfold Driver.join at hu
    cases hq : d.ticket.queued <;> simp [hq, Pc.unwinding] at hu
  | _ => simp [Pc.unwinding] at hu

theorem Nudge.unwinding (h : Nudge s id d a d') (hok : RunReturns s a)
    (hu : d'.pc.unwinding = true) : d.pc.unwinding = true := by
  cases h with
  | giveUp =>
    unfold Driver.refuse at hu
    cases hq : d.ticket.queued <;> simp [hq, Pc.unwinding] at hu
  | runReturns => simp [Pc.unwinding] at hu
  | runPanics => exact hok.elim
  | bodyEnds => exact hu

/-- Where every call of `run` returns, every driver lives. -/
theorem Reaches.not_unwinding {ok : State Output → Action Output → Prop}
    (hok : ∀ s a, ok s a → RunReturns s a) (h : Reaches config ok s) :
    ∀ x d, s.drivers x = some d → d.pc.unwinding = false := by
  refine h.invariant_from (I := fun s => ∀ x d, s.drivers x = some d → d.pc.unwinding = false)
    (by simp [State.init]) ?_
  intro s a s' hreach hinv hin hstep x d' hd'
  rcases (step_cases hstep).driver hd' with ⟨_, hstart⟩ | ⟨d, hd, hm⟩
  · cases hstart with
    | mk =>
      rw [State.started_driver] at hd'
      cases hd'
      rfl
  · have hd₀ := hinv x d hd
    cases hu : d'.pc.unwinding with
    | false => rfl
    | true =>
      exfalso
      cases hm with
      | same => rw [hd₀] at hu; cases hu
      | woken => rw [Driver.wake_pc, hd₀] at hu; cases hu
      | turn _ hturn => rw [hturn.unwinding hu] at hd₀; cases hd₀
      | nudge hn => rw [hn.unwinding (hok _ _ hin) hu] at hd₀; cases hd₀

/-- No body of the task, or of anything beneath it, is under way. -/
def State.BodiesOver (s : State Output) (x : TaskId) : Prop :=
  ∀ y d, s.drivers y = some d → y = x ∨ s.Beneath x y → d.bodyLive = false

/-- At rest, a task that was admitted or cancelled is done. -/
theorem State.Quiet.done (hq : s.Quiet config) (hwf : Wf config s) (hal : Alert config s)
    (hlive : ∀ x d, s.drivers x = some d → d.pc.unwinding = false) :
    ∀ x d, s.drivers x = some d → d.admitted = true ∨ s.isCancelled d.token = true →
      s.BodiesOver x → ∃ o, d.pc = .done o := by
  -- a parent's number is smaller than its child's, and all are below `nextSeq`
  have hall : ∀ n x d, s.drivers x = some d → s.registry.nextSeq - d.ticket.seq = n →
      d.admitted = true ∨ s.isCancelled d.token = true → s.BodiesOver x →
      ∃ o, d.pc = .done o := by
    intro n
    induction n using Nat.strongRecOn with
    | ind n ih =>
      intro x d hd hn hac hover
      obtain ⟨_, hb⟩ := hwf.ok x d hd
      have hbody := hover x d hd (.inl rfl)
      have hrunning : d.body.hasEnded = false → d.body ≠ .unspawned → False := by
        intro he hu
        cases hbd : d.body <;> simp_all [Body.hasEnded, Driver.bodyLive, Body.isRunning]
      rcases (hq.stuck x).cases hd with ⟨on, hpc, _, hnc⟩ | hpc | ⟨hpc, he, _⟩ | ⟨hpc, he⟩ |
          ⟨joined, hpc, _⟩ | hdone | hpc
      · rw [hpc] at hb
        rcases hac with hadm | hcan
        · simp [Driver.admitted, hpc, show d.body = .unspawned from hb, Body.spawned,
            Pc.afterAdmit] at hadm
        · rw [hnc] at hcan
          cases hcan
      · simp [Driver.bodyLive, hpc, Pc.isCall] at hbody
      · rw [hpc] at hb
        exact (hrunning he hb).elim
      · rw [hpc] at hb
        exact (hrunning he hb).elim
      · -- it waits for a child it cancelled, which is done
        obtain ⟨_, c, e, hce, hp, hlv, hcan⟩ := hal.child_at_rest hq hd hpc
        obtain ⟨dc, hdc, ho⟩ := hwf.entry c e hce
        have hpar : dc.token.parent = some x := ho.parent.symm.trans hp
        obtain ⟨dx, hdx, _, hlt, _⟩ := hwf.parent c dc x hdc hpar
        rw [hd] at hdx
        cases hdx
        have hseq := hwf.seq_lt hdc
        obtain ⟨o, hdone⟩ := ih (s.registry.nextSeq - dc.ticket.seq) (by omega) c dc hdc rfl
          (.inr (by rw [← ho.token]; exact hcan))
          (fun y dy hdy hy => hover y dy hdy (.inr (hwf.beneath_of_child hdc hpar hy)))
        rw [ho.live, hdone] at hlv
        cases hlv
      · exact hdone
      · have := hlive x d hd
        rw [hpc] at this
        cases this
  exact fun x d hd hac hover => hall _ x d hd rfl hac hover

/-- The live slots of a scope that other tasks hold. -/
def State.slotsBesides (s : State Output) (x : TaskId) (scope : Scope) : Nat :=
  s.ids.countP fun y => y ≠ x &&
    (s.drivers y).any fun d => d.holdsSlot && d.ticket.scope = scope

/-- Who holds no slot is not among those who hold one. -/
theorem State.slots_eq_slotsBesides (hd : s.drivers x = some d) (hno : d.holdsSlot = false)
    (scope : Scope) : s.slots scope = s.slotsBesides x scope := by
  refine List.countP_congr fun y _ => ?_
  by_cases hy : y = x
  · subst hy
    simp [hd, hno]
  · simp [hy]

/-- The task has settled, once, with the outcome of its body; its slot is given
back, so that its scope's count is of other tasks' slots; its parent no longer
counts it; and neither its parent's wait nor a caller of `idle` waits for it. -/
structure Accounted (s : State Output) (x : TaskId) (d : Driver Output) : Prop where
  outcome : ∃ joined cancelled, d.body = .ended joined ∧
    d.pc = .done (outcomeOf joined cancelled) ∧
    ∀ message, joined = .panicked message →
      ∃ error, stateOfOutcome (outcomeOf joined cancelled) = .failed error
  state : ∀ e o, s.registry.entry x = some e → d.pc = .done o →
    e.info.state = stateOfOutcome o ∧ e.info.state.isTerminal = true
  once : s.settles.count x = 1
  slot : ∀ scope, s.registry.admitted scope = s.slotsBesides x scope
  parent : ∀ p ep, d.token.parent = some p → s.registry.entry p = some ep →
    ep.liveChildren = ep.children.countP (fun c => (s.registry.entry c).any Entry.live) ∧
      (s.registry.entry x).any Entry.live = false
  parentWait : ∀ p dp joined, d.token.parent = some p → s.drivers p = some dp →
    dp.pc = .finishSleep joined → ∃ c e, c ≠ x ∧ s.registry.entry c = some e ∧
      e.info.parent = some p ∧ e.live = true
  idleWait : ∀ i ∈ s.idlers, i.pc = .sleep → i.step s.registry = none →
    ∃ y e, y ≠ x ∧ s.registry.entry y = some e ∧ e.live = true

/-- **Every admitted task settles whatever its kind does**, in the runs whose
calls of `run` return their futures: by themselves the drivers come to rest,
and at rest every admitted task is accounted for whose body is over and all
bodies beneath it. -/
theorem admitted_tasks_settle (h : Reaches config RunReturns s) :
    Rests (step config) Internal s ∧
    (s.Quiet config → ∀ x d, s.drivers x = some d → d.admitted = true → s.BodiesOver x →
      Accounted s x d) := by
  refine ⟨Reaches.rests h, fun hq x d hd hadm hover => ?_⟩
  have hwf := Reaches.wf h
  have hal := Reaches.alert h
  obtain ⟨o, hdone⟩ := hq.done hwf hal (Reaches.not_unwinding (fun _ _ h => h) h) x d hd
    (.inl hadm) hover
  have hsettled : s.HasSettled x := ⟨d, o, hd, by rw [hdone]; rfl⟩
  have hdead : s.registry.forest.isLive x = false := hwf.not_live_of_settled hsettled
  have hnot : ∀ {y e}, s.registry.entry y = some e → e.live = true → y ≠ x := by
    rintro y e he hl rfl
    rw [Registry.forest_isLive, he, Option.any_some, hl] at hdead
    cases hdead
  constructor
  · obtain ⟨_, hb⟩ := hwf.ok x d hd
    rw [hdone] at hb
    rcases hb with ⟨hb, _⟩ | ⟨joined, c, hb, rfl⟩
    · simp [Driver.admitted, hdone, hb, Body.spawned, Pc.afterAdmit] at hadm
    · refine ⟨joined, c, hb, hdone, ?_⟩
      rintro message rfl
      exact ⟨_, rfl⟩
  · intro e o' he hpc
    have hs := (hwf.entryOf he hd).shows
    rw [hpc] at hs
    rw [show e.info.state = stateOfOutcome o' from hs]
    exact ⟨rfl, stateOfOutcome_isTerminal o'⟩
  · have hset := Reaches.settled h
    exact List.count_eq_one_of_mem hset.nodup ((hset.mem x).mpr hsettled)
  · intro scope
    have hcount : s.registry.admitted scope = s.slots scope :=
      ((Reaches.gated h).keeps.admitted scope).trans (s.inside_eq_slots scope)
    rw [hcount]
    exact State.slots_eq_slotsBesides hd (by simp [Driver.holdsSlot, hdone, Pc.holdsSlot]) scope
  · intro p ep _ hep
    refine ⟨?_, by rw [← Registry.forest_isLive]; exact hdead⟩
    refine ((Reaches.tree h).ok.count p ep.node (Registry.forest_of_entry hep)).trans ?_
    exact List.countP_congr fun c _ => by rw [Registry.forest_isLive]
  · intro p dp joined _ hdp hpc
    obtain ⟨_, c, e, hce, hp, hlv, _⟩ := hal.child_at_rest hq hdp hpc
    exact ⟨c, e, hnot hce hlv, hce, hp, hlv⟩
  · intro i hi hpc hstep
    obtain ⟨y, e, he, hl⟩ := hal.live_at_rest hq hi hpc hstep
    exact ⟨y, e, hnot he hl, he, hl⟩

theorem Wf.bodiesOver (hwf : Wf config s)
    (hall : ∀ y ∈ s.ids, (s.drivers y).any Driver.bodyLive = false) : s.BodiesOver x := by
  intro y d hd _
  have := hall y (hwf.mem_ids_of_driver hd)
  rw [hd] at this
  exact this

/-- A background root whose future panics, and its driver's way to the end. -/
def panicInBody : State Nat :=
  State.init.run .default RunReturns
    [.submit ⟨1⟩ (plainKind .background) 0, .drive ⟨1⟩, .drive ⟨1⟩, .drive ⟨1⟩, .drive ⟨1⟩,
      .runReturns ⟨1⟩, .bodyEnds ⟨1⟩ (.panicked "index out of bounds"), .drive ⟨1⟩, .drive ⟨1⟩,
      .drive ⟨1⟩, .drive ⟨1⟩, .drive ⟨1⟩, .drive ⟨1⟩, .drive ⟨1⟩, .drive ⟨1⟩, .drive ⟨1⟩]

/-- The one background slot is free again. -/
theorem panic_in_body_settles :
    (∃ d, panicInBody.drivers ⟨1⟩ = some d ∧ Accounted panicInBody ⟨1⟩ d) ∧
      panicInBody.registry.admitted (.background, none) = 0 := by
  have hr : Reaches .default RunReturns panicInBody := State.steps_run _ _ _ _
  have hacc : Accounted panicInBody ⟨1⟩ ((panicInBody.drivers ⟨1⟩).get (by decide)) :=
    (admitted_tasks_settle hr).2 (hr.wf.quiet (by decide) (by decide)) ⟨1⟩ _ (by simp) (by decide)
      (hr.wf.bodiesOver (by decide))
  exact ⟨⟨_, by simp, hacc⟩, (hacc.slot (.background, none)).trans (by decide)⟩

/-- The same root, and a panic in the call of `run`: the driver unwinds, and
gives the slot back on its way. -/
def panicInCall : State Nat :=
  State.init.run .default anyRun
    [.submit ⟨1⟩ (plainKind .background) 0, .drive ⟨1⟩, .drive ⟨1⟩, .drive ⟨1⟩, .drive ⟨1⟩,
      .runPanics ⟨1⟩, .drive ⟨1⟩, .drive ⟨1⟩]

/-- **A task whose `run` panics before it returns its future never settles.** -/
theorem panic_in_run_never_settles :
    ¬ ∀ (s : State Nat) (x : TaskId) (d : Driver Nat), Reaches .default anyRun s →
      s.Quiet .default → s.drivers x = some d → d.admitted = true → s.BodiesOver x →
      Accounted s x d := by
  intro h
  have hr : Reaches .default anyRun panicInCall := State.steps_run _ _ _ _
  have hacc := h panicInCall ⟨1⟩ ((panicInCall.drivers ⟨1⟩).get (by decide)) hr
    (hr.wf.quiet (by decide) (by decide)) (by simp) (by decide) (hr.wf.bodiesOver (by decide))
  exact absurd hacc.once (by decide)

end FilePeeker
