import FilePeeker.Task.Wf

/-!
# Cancellation, and the tasks that never run

A token that is cancelled stays cancelled.  A task leaves `admit` unadmitted in
two ways: its token ends the wait, or a resource it requires is gone or was
never there.  `Driver.refused` is the error it then carries to its `settle`,
and `Refusal` says which errors those are.
-/

namespace FilePeeker

variable {Output : Type} {config : Config} {s s' t : State Output} {id x : TaskId}
  {d d' : Driver Output} {op : Op} {a : Action Output} {token : CancelToken TaskId}

/-! ### Tokens -/

theorem State.perform_fired (s : State Output) (config : Config) (id : TaskId)
    (d : Driver Output) (op : Op) : s.fired ⊆ (s.perform config id d op).fired := by
  cases op with
  | cancelChildren => exact List.subset_append_left _ _
  | _ => exact fun _ h => h

theorem Stepped.fired_subset (h : Stepped config s a s') : s.fired ⊆ s'.fired := by
  cases h with
  | cancel | cancelAll => exact List.subset_append_left _ _
  | drive => exact s.perform_fired config _ _ _
  | _ => exact fun _ h => h

/-- A cancelled token stays cancelled. -/
theorem Stepped.isCancelled (h : Stepped config s a s') (hc : s.isCancelled token = true) :
    s'.isCancelled token = true :=
  CancelToken.isCancelled_mono h.fired_subset hc

/-! ### Refusals -/

/-- The error of an outcome that is one. -/
def errorOf : Outcome Output → Option TaskError
  | .error e => some e
  | .ok _ => none

/-- The error a driver passes on. -/
def Pc.refusing : Pc Output → Option TaskError
  | leaveQueue e | leaveNotify e => some e
  | settle o | settleNotify o | deliver o | done o => errorOf o
  | _ => none

/-- The error `admit` returned, once it has. -/
def Driver.refused (d : Driver Output) : Option TaskError :=
  match d.body with
  | .unspawned => d.pc.refusing
  | .running | .ended _ => none

/-- Why `admit` returns an error. -/
inductive Refusal (s : State Output) (token : CancelToken TaskId) : TaskError → Prop
  | cancelled (hc : s.isCancelled token = true) : Refusal s token .cancelled
  | gone : Refusal s token (.failed goneError)
  | unknown : Refusal s token (.failed unknownError)

theorem admission_fail {reg : Registry} {requires : List ResourceId} {ticket : Ticket}
    {cap : Option Nat} {error : IoError} (h : admission reg requires ticket cap = .fail error) :
    error = goneError ∨ error = unknownError := by
  induction requires with
  | nil =>
    simp only [admission] at h
    split at h
    · cases h
    · split at h <;> cases h
  | cons r rest ih =>
    simp only [admission] at h
    split at h
    · exact ih h
    · cases h
    · cases h
    · cases h; exact .inl rfl
    · cases h; exact .inr rfl

theorem Driver.refused_refuse {error : TaskError} (hb : d.body = .unspawned) :
    (d.refuse error).refused = some error := by
  simp only [Driver.refused, Driver.refuse, hb]
  cases d.ticket.queued <;> rfl

theorem Driver.refused_join {joined : Joined Output} (hb : d.body = .ended joined) :
    (d.join joined).refused = none := by
  simp [Driver.refused, Driver.join, hb]

/-- A move keeps what the driver was refused with, but for the checks that
refuse it. -/
theorem Turn.refused (h : Turn config s id d op d') (hok : d.Ok) :
    d'.refused = d.refused ∨ d.pc = .admitCheck ∧
      ∃ error, d.decision config s.registry = .fail error ∧ d'.refused = some (.failed error) := by
  obtain ⟨_, hb⟩ := hok
  cases h with
  | admitFail hpc hadm =>
    rw [hpc] at hb
    exact .inr ⟨hpc, _, hadm, Driver.refused_refuse hb⟩
  | pollEnded hpc hend | joinCancelled hpc hend =>
    left
    rw [Driver.refused_join hend]
    simp [Driver.refused, hend]
  | outcome hpc =>
    left
    rw [hpc] at hb
    simp [Driver.refused, show d.body = .ended _ from hb]
  | _ =>
    rename_i hpc
    left
    cases hbody : d.body <;> simp_all [Driver.refused, Pc.refusing, errorOf]

theorem Nudge.refused (h : Nudge s id d a d') (hok : d.Ok) :
    d'.refused = d.refused ∨
      d'.refused = some .cancelled ∧ s.isCancelled d.token = true ∧ d.pc.inAdmit = true := by
  obtain ⟨_, hb⟩ := hok
  cases h with
  | giveUp hpc hc =>
    rw [hpc] at hb
    exact .inr ⟨Driver.refused_refuse hb, hc, by simp [hpc, Pc.inAdmit]⟩
  | runReturns hpc =>
    left
    rw [hpc] at hb
    simp [Driver.refused, hpc, show d.body = .unspawned from hb, Pc.refusing]
  | runPanics hpc =>
    left
    rw [hpc] at hb
    cases d.ticket.queued <;>
      simp [Driver.refused, hpc, show d.body = .unspawned from hb, Pc.refusing]
  | bodyEnds hrun => simp [Driver.refused, hrun]

/-- **What a task was refused with has its reason.** -/
theorem Reaches.refusal {ok : State Output → Action Output → Prop} (h : Reaches config ok s)
    {error : TaskError} (hd : s.drivers x = some d) (hr : d.refused = some error) :
    Refusal s d.token error := by
  have hinv : ∀ x d error, s.drivers x = some d → d.refused = some error →
      Refusal s d.token error := by
    refine h.invariant_from (I := fun s => ∀ x d error, s.drivers x = some d →
      d.refused = some error → Refusal s d.token error) (by simp [State.init]) ?_
    intro s a s' hreach hinv _ hstep x d' error hd' hr
    have hst := step_cases hstep
    have hwf := Reaches.wf hreach
    -- a reason that held before the step holds after it
    have hkeep : ∀ {token e}, Refusal s token e → Refusal s' token e := by
      rintro token e (hc | _ | _)
      · exact .cancelled (hst.isCancelled hc)
      · exact .gone
      · exact .unknown
    rcases hst.driver hd' with ⟨_, hstart⟩ | ⟨d, hd, hm⟩
    · cases hstart with
      | mk =>
        rw [State.started_driver] at hd'
        cases hd'
        simp [Driver.refused, Driver.start, Pc.refusing] at hr
    · rw [hm.sameStart.token]
      cases hm with
      | same => exact hkeep (hinv x d' error hd hr)
      | woken => exact hkeep (hinv x d error hd hr)
      | turn _ hturn =>
        rcases hturn.refused (hwf.ok x d hd) with heq | ⟨_, e, hadm, heq⟩
        · exact hkeep (hinv x d error hd (heq ▸ hr))
        · rw [heq] at hr
          cases hr
          rcases admission_fail hadm with rfl | rfl
          · exact .gone
          · exact .unknown
      | nudge hn =>
        rcases hn.refused (hwf.ok x d hd) with heq | ⟨heq, hc, _⟩
        · exact hkeep (hinv x d error hd (heq ▸ hr))
        · rw [heq] at hr
          cases hr
          exact hkeep (.cancelled hc)
  exact hinv x d error hd hr

/-- A refused driver's body was never spawned, and it passes its error on. -/
theorem Driver.refused_eq_some {error : TaskError} (h : d.refused = some error) :
    d.body = .unspawned ∧ (d.pc = .leaveQueue error ∨ d.pc = .leaveNotify error ∨
      d.pc = .settle (.error error) ∨ d.pc.settled = some (.error error)) := by
  unfold Driver.refused at h
  split at h
  · rename_i hb
    refine ⟨hb, ?_⟩
    cases hpc : d.pc <;> simp only [hpc, Pc.refusing, reduceCtorEq] at h
    case leaveQueue | leaveNotify => cases h; simp
    case settle o => cases o <;> simp_all [errorOf]
    case settleNotify o => cases o <;> simp_all [errorOf, Pc.settled]
    case deliver o => cases o <;> simp_all [errorOf, Pc.settled]
    case done o => cases o <;> simp_all [errorOf, Pc.settled]
  · cases h
  · cases h

end FilePeeker
