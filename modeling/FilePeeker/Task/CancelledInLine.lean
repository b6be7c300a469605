import FilePeeker.Task.Admission
import FilePeeker.Task.Rest

/-!
# A task cancelled before its turn

A queued task learns of its cancellation in the wait of `admit` only: the lock
section that decides about it does not look at the token.  So a task whose
token is cancelled before that section, and whose turn has come by then, is
admitted and runs (`cancelled_root_runs`).

In the runs where the section never finds such a task's turn come, and never
refuses it for a resource (`DecidesUncancelled`), the task never runs and
settles as `Cancelled`.
-/

namespace FilePeeker

variable {Output : Type} {config : Config} {s s' t : State Output} {id x : TaskId}
  {d d' : Driver Output} {op : Op} {a : Action Output}

/-- Next is the lock section that decides. -/
def Pc.isCheck : Pc Output → Bool
  | admitCheck => true
  | _ => false

def Admission.isWait : Admission → Bool
  | wait _ => true
  | admits | fail _ => false

/-- Where a driver makes its check with its token cancelled already, the
decision is to wait. -/
def DecidesUncancelled (config : Config) (s : State Output) : Action Output → Prop
  | .drive id => ∀ d, s.drivers id = some d → d.pc.isCheck = true →
      s.isCancelled d.token = true → (d.decision config s.registry).isWait = true
  | _ => True

instance (config : Config) (s : State Output) :
    (a : Action Output) → Decidable (DecidesUncancelled config s a)
  | .drive id => inferInstanceAs (Decidable (∀ d, s.drivers id = some d → d.pc.isCheck = true →
      s.isCancelled d.token = true → (d.decision config s.registry).isWait = true))
  | .submit .. | .submitChild .. | .cancel .. | .cancelAll | .addResource ..
  | .setResourceState .. | .setResourceReady .. | .notifyWaiters | .idle | .idleStep ..
  | .giveUp .. | .runReturns .. | .runPanics .. | .bodyEnds .. | .progress .. | .flush ..
  | .tick .. => .isTrue trivial

/-- The task's token is cancelled, and its driver has not been through the lock
section that admits or refuses it. -/
def CancelledInLine (s : State Output) (x : TaskId) : Prop :=
  ∃ d, s.drivers x = some d ∧ d.pc.inAdmit = true ∧ s.isCancelled d.token = true

/-- The task has not run and will settle as `Cancelled`: its body was not
spawned nor `run` called, its state is `Queued` or `Cancelled`, it has no other
outcome, and it has this one once its driver has no next move. -/
structure NeverRan (config : Config) (s : State Output) (x : TaskId) (d : Driver Output) :
    Prop where
  unspawned : d.body = .unspawned
  notCalled : d.called = false
  state : ∀ e, s.registry.entry x = some e →
    (∃ on, e.info.state = .queued on) ∨ e.info.state = .cancelled
  outcome : ∀ o, d.pc.settled = some o → o = .error .cancelled
  settles : s.Stuck config x → d.pc = .done (.error .cancelled)

/-- Cancelled, and in the line or refused for it. -/
def Driver.GivingUp (s : State Output) (d : Driver Output) : Prop :=
  s.isCancelled d.token = true ∧ (d.pc.inAdmit = true ∨ d.refused = some .cancelled)

/-- A move of a cancelled driver in line keeps it there, unless its check
decides about it. -/
theorem Turn.inAdmit (h : Turn config s id d op d') (hin : d.pc.inAdmit = true)
    (hwait : d.pc.isCheck = true → (d.decision config s.registry).isWait = true) :
    d'.pc.inAdmit = true := by
  cases h with
  | admitQueued hpc hadm | admitUnqueued hpc hadm | admitFail hpc hadm =>
    have := hwait (by simp [hpc, Pc.isCheck])
    simp [hadm, Admission.isWait] at this
  | admitEnable | admitWait | admitQueue | admitWake => simp [Pc.inAdmit]
  | pollEnded hpc | joinCancelled hpc => simp [hpc, Pc.inAdmit] at hin
  | _ =>
    rename_i hpc
    simp_all [Pc.inAdmit]

theorem Nudge.inAdmit (h : Nudge s id d a d') (hok : d.Ok) (hin : d.pc.inAdmit = true) :
    d'.pc.inAdmit = true ∨ d'.refused = some .cancelled := by
  obtain ⟨_, hb⟩ := hok
  cases h with
  | giveUp hpc =>
    rw [hpc] at hb
    exact .inr (Driver.refused_refuse hb)
  | runReturns hpc | runPanics hpc => simp [hpc, Pc.inAdmit] at hin
  | bodyEnds => exact .inl hin

/-- One step, as long as the check does not decide about a cancelled task. -/
theorem Stepped.givingUp (h : Stepped config s a s') (hwf : Wf config s)
    (hok : DecidesUncancelled config s a) (hd : s.drivers x = some d) (hg : d.GivingUp s) :
    ∃ d', s'.drivers x = some d' ∧ d'.GivingUp s' := by
  obtain ⟨d', hd', hm⟩ := h.driver_forward hd
  obtain ⟨hc, hplace⟩ := hg
  have hdok := hwf.ok x d hd
  refine ⟨d', hd', by rw [hm.sameStart.token]; exact h.isCancelled hc, ?_⟩
  cases hm with
  | same | woken => exact hplace
  | turn ha hturn =>
    subst ha
    rcases hplace with hin | hr
    · exact .inl (hturn.inAdmit hin fun hcheck => hok d hd hcheck hc)
    · rcases hturn.refused hdok with heq | ⟨hpc, _, _, _⟩
      · exact .inr (heq.trans hr)
      · simp [Driver.refused, hpc, Pc.refusing] at hr
        split at hr <;> cases hr
  | nudge hn =>
    rcases hplace with hin | hr
    · exact hn.inAdmit hdok hin
    · rcases hn.refused hdok with heq | ⟨heq, _, _⟩
      · exact .inr (heq.trans hr)
      · exact .inr heq

theorem Driver.GivingUp.neverRan (hg : d.GivingUp s) (hwf : Wf config s)
    (hd : s.drivers x = some d) : NeverRan config s x d := by
  obtain ⟨hc, hplace⟩ := hg
  obtain ⟨_, hb⟩ := hwf.ok x d hd
  have hplaces : d.body = .unspawned ∧ (d.pc.inAdmit = true ∨ d.pc = .leaveQueue .cancelled ∨
      d.pc = .leaveNotify .cancelled ∨ d.pc = .settle (.error .cancelled) ∨
      d.pc.settled = some (.error .cancelled)) := by
    rcases hplace with hin | hr
    · refine ⟨?_, .inl hin⟩
      cases hpc : d.pc <;> simp_all [Pc.inAdmit, Pc.bodyOk]
    · obtain ⟨hbody, hpc⟩ := Driver.refused_eq_some hr
      exact ⟨hbody, .inr hpc⟩
  obtain ⟨hbody, hpc⟩ := hplaces
  refine ⟨hbody, ?_, fun e he => ?_, fun o ho => ?_, fun hstuck => ?_⟩
  · unfold Driver.called
    rw [hbody]
    cases hp : d.pc <;> simp_all [Pc.inAdmit, Pc.settled]
  · have hs := (hwf.entryOf he hd).shows
    rw [hbody] at hs
    cases hp : d.pc <;> simp_all [Pc.inAdmit, Pc.settled, Pc.shows, stateOfOutcome, stateOf]
  · cases hp : d.pc <;> simp_all [Pc.inAdmit, Pc.settled]
  · rcases hstuck.cases hd with ⟨_, _, _, hnc⟩ | h | ⟨h, _⟩ | ⟨h, _⟩ | ⟨_, h, _⟩ | ⟨o, h⟩ | h
    · rw [hc] at hnc; cases hnc
    all_goals simp_all [Pc.inAdmit, Pc.settled]

/-- **A task cancelled in line never runs**, in the runs whose checks never
decide about a cancelled task: it is not run in any state after, the drivers
come to rest, and at rest it has settled as `Cancelled`. -/
theorem cancelled_in_line_never_runs (h : Reaches config (DecidesUncancelled config) s)
    (hc : CancelledInLine s x) (hrun : Steps (step config) (DecidesUncancelled config) s t) :
    (∃ d, t.drivers x = some d ∧ NeverRan config t x d) ∧ Rests (step config) Internal t := by
  have hinv : ∃ d, t.drivers x = some d ∧ d.GivingUp t := by
    refine hrun.invariant_from (I := fun t => ∃ d, t.drivers x = some d ∧ d.GivingUp t) ?_ ?_
    · obtain ⟨d, hd, hin, hcan⟩ := hc
      exact ⟨d, hd, hcan, .inl hin⟩
    · rintro u a v hsu ⟨d, hd, hg⟩ hok hstep
      exact (step_cases hstep).givingUp (Reaches.wf (h.trans hsu)) hok hd hg
  obtain ⟨d, hd, hg⟩ := hinv
  exact ⟨⟨d, hd, hg.neverRan (Reaches.wf (h.trans hrun)) hd⟩, Reaches.rests (h.trans hrun)⟩

/-- A root that waits for a resource is cancelled, and the resource is ready
only after that. -/
def cancelledWhileWaiting : State Nat :=
  State.init.run .default (DecidesUncancelled .default)
    [.addResource ⟨7⟩ .pending, .submit ⟨1⟩ ⟨⟨"list", [], .interactive⟩, [⟨7⟩]⟩ 0,
      .drive ⟨1⟩, .drive ⟨1⟩, .drive ⟨1⟩, .cancel ⟨1⟩]

theorem waiting_root_never_runs :
    ∃ d : Driver Nat, NeverRan .default (cancelledWhileWaiting.run .default
      (DecidesUncancelled .default)
      [.giveUp ⟨1⟩, .setResourceState ⟨7⟩ .ready, .drive ⟨1⟩, .drive ⟨1⟩, .drive ⟨1⟩]) ⟨1⟩ d := by
  have hc : CancelledInLine cancelledWhileWaiting ⟨1⟩ :=
    ⟨(cancelledWhileWaiting.drivers ⟨1⟩).get (by decide), by simp, by decide, by decide⟩
  obtain ⟨⟨d, _, h⟩, _⟩ := cancelled_in_line_never_runs (State.steps_run _ _ _ _) hc
    (State.steps_run cancelledWhileWaiting .default (DecidesUncancelled .default) _)
  exact ⟨d, h⟩

/-- A root cancelled before its driver's first move. -/
def cancelledAtOnce : State Nat :=
  State.init.run .default anyRun [.submit ⟨1⟩ (plainKind .interactive) 0, .cancel ⟨1⟩]

/-- Its driver then admits it, and calls `run`. -/
def cancelledYetCalled : State Nat :=
  cancelledAtOnce.run .default anyRun [.drive ⟨1⟩, .drive ⟨1⟩, .drive ⟨1⟩]

/-- **A root cancelled in line can run**: its check finds its turn come, and
does not ask for the token. -/
theorem cancelled_root_runs :
    ¬ ∀ (s t : State Nat) (x : TaskId) (d : Driver Nat), Reaches .default anyRun s →
      CancelledInLine s x → Steps (step .default) anyRun s t → t.drivers x = some d →
      NeverRan .default t x d := by
  intro h
  have hc : CancelledInLine cancelledAtOnce ⟨1⟩ :=
    ⟨(cancelledAtOnce.drivers ⟨1⟩).get (by decide), by simp, by decide, by decide⟩
  have hran := h cancelledAtOnce cancelledYetCalled ⟨1⟩
    ((cancelledYetCalled.drivers ⟨1⟩).get (by decide)) (State.steps_run _ _ _ _) hc
    (State.steps_run _ _ _ _) (by simp)
  exact absurd hran.notCalled (by decide)

end FilePeeker
