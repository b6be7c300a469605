import FilePeeker.Task.Cancellation
import Mathlib.Algebra.GroupWithZero.Nat
import Mathlib.Algebra.Order.BigOperators.Group.List
import Mathlib.Algebra.Order.Group.Nat

/-!
# The drivers come to rest

Left to itself, with nobody submitting, cancelling or ending a body, the
runtime makes finitely many moves.  Two measures say so.  `State.work` counts
the notifications still to come, the moves a driver still has before it on its
way through `drive`, and the tokens not yet cancelled; no move adds to it.  A
move that takes nothing from it is one round of a loop, and `State.rounds`
counts how much is left of these before somebody has to notify again.
-/

namespace FilePeeker

variable {Output : Type} {config : Config} {s s' : State Output} {id x : TaskId}
  {d d' : Driver Output} {op : Op} {a : Action Output}

/-- The moves of the runtime itself: its drivers', and the notifications of
resource changes. -/
def Internal (_ : State Output) : Action Output → Prop
  | .drive _ | .giveUp _ | .notifyWaiters => True
  | _ => False

/-- How much of `drive` is still before a driver, the loops aside. -/
def Pc.remaining : Pc Output → Nat
  | admitEnable | admitCheck | admitQueue _ | admitSleep _ => 20
  | admitNotify => 19
  | setRunning => 18
  | call => 17
  | pollBody | pollToken | joinSleep => 16
  | setCancelling => 15
  | joinCancelled => 14
  | dropSlot _ => 13
  | dropNotify _ => 12
  | finishEnable _ | finishCheck _ | finishSleep _ => 11
  | outcome _ => 10
  | leaveQueue _ => 9
  | leaveNotify _ => 8
  | settle _ => 7
  | settleNotify _ => 6
  | deliver _ => 5
  | unwindSlot => 4
  | unwindNotify => 3
  | done _ | dead => 0

/-- What a pending wakeup adds to the rounds left. -/
def Driver.woken (d : Driver Output) (cost : Nat) : Nat :=
  if d.notified = some true then cost else 0

/-- How much of the loop a driver is in is still before it. -/
def Driver.rounds (d : Driver Output) (cancelled : Bool) : Nat :=
  match d.pc with
  | .admitEnable => 3
  | .admitCheck => 2 + d.woken 4
  | .admitQueue _ => 1 + d.woken 4
  | .admitSleep _ => d.woken 4
  | .pollBody => if d.body.hasEnded || cancelled then 1 else 4
  | .pollToken => if cancelled then 0 else 3
  | .joinSleep => if d.body.hasEnded || cancelled then 2 else 0
  | .finishEnable _ => 2
  | .finishCheck _ => 1 + d.woken 3
  | .finishSleep _ => d.woken 3
  | _ => 0

/-- What one driver adds to the work left. -/
def State.workOf (s : State Output) (x : TaskId) : Nat :=
  (s.drivers x).elim 0 fun d => d.pc.remaining + if s.isCancelled d.token then 0 else 1

def State.roundsOf (s : State Output) (x : TaskId) : Nat :=
  (s.drivers x).elim 0 fun d => d.rounds (s.isCancelled d.token)

def State.work (s : State Output) : Nat := s.notifies + (s.ids.map s.workOf).sum

def State.rounds (s : State Output) : Nat := (s.ids.map s.roundsOf).sum

/-- How a move of a driver uses itself up. -/
inductive Spent (s : State Output) (d d' : Driver Output) : Op → Prop
  | forward {op : Op} (h : d'.pc.remaining < d.pc.remaining) : Spent s d d' op
  | round {op : Op} (hop : op ≠ .notify) (h : d'.pc.remaining = d.pc.remaining)
      (hr : d'.rounds (s.isCancelled d.token) < d.rounds (s.isCancelled d.token)) : Spent s d d' op

theorem Driver.remaining_refuse (d : Driver Output) (error : TaskError) :
    (d.refuse error).pc.remaining ≤ 9 := by
  unfold Driver.refuse
  cases d.ticket.queued <;> simp [Pc.remaining]

theorem Driver.remaining_join (d : Driver Output) (joined : Joined Output) :
    (d.join joined).pc.remaining ≤ 13 := by
  unfold Driver.join
  cases d.ticket.queued <;> simp [Pc.remaining]

/-- **Every move of a driver uses itself up.** -/
theorem Turn.spent (h : Turn config s id d op d') : Spent s d d' op := by
  cases h with
  | admitFail hpc =>
    refine .forward (Nat.lt_of_le_of_lt (d.remaining_refuse _) ?_)
    simp [hpc, Pc.remaining]
  | pollEnded hpc hb | joinCancelled hpc hb =>
    refine .forward (Nat.lt_of_le_of_lt (d.remaining_join _) ?_)
    simp [hpc, Pc.remaining]
  | admitEnable hpc | admitWait hpc hadm | admitQueue hpc | finishEnable hpc =>
    refine .round (by simp) (by simp [hpc, Pc.remaining]) ?_
    simp [Driver.rounds, Driver.woken, hpc]
  | admitWake hpc hn | finishWake hpc hn =>
    refine .round (by simp) (by simp [hpc, Pc.remaining]) ?_
    simp [Driver.rounds, Driver.woken, hpc, hn]
  | finishWait hpc he hl =>
    refine .round (by simp) (by simp [hpc, Pc.remaining]) ?_
    simp [Driver.rounds, Driver.woken, hpc]
  | pollPending hpc hb =>
    refine .round (by simp) (by simp [hpc, Pc.remaining]) ?_
    cases hc : s.isCancelled d.token <;> simp [Driver.rounds, hpc, hb]
  | tokenPending hpc hc =>
    refine .round (by simp) (by simp [hpc, Pc.remaining]) ?_
    cases hb : d.body.hasEnded <;> simp [Driver.rounds, hpc, hc, hb]
  | joinWake hpc hw =>
    refine .round (by simp) (by simp [hpc, Pc.remaining]) ?_
    simp only [Driver.rounds, hpc]
    rw [if_pos hw, if_pos hw]
    decide
  | _ =>
    rename_i hpc
    refine .forward ?_
    simp_all [Pc.remaining]

theorem Nudge.forward (h : Nudge s id d (.giveUp id) d') :
    d'.pc.remaining < d.pc.remaining := by
  cases h with
  | giveUp hpc hc =>
    exact Nat.lt_of_le_of_lt (d.remaining_refuse _) (by simp [hpc, Pc.remaining])

/-! ### One step -/

/-- The tasks whose driver a step left where it was have no more work than
before: their tokens can only have been cancelled. -/
theorem State.workOf_le (hfired : s.fired ⊆ s'.fired)
    (hd : s'.drivers x = s.drivers x ∨ s'.drivers x = (s.drivers x).map Driver.wake) :
    s'.workOf x ≤ s.workOf x := by
  have hterm : ∀ d : Driver Output,
      (d.pc.remaining + if s'.isCancelled d.token then 0 else 1) ≤
        d.pc.remaining + if s.isCancelled d.token then 0 else 1 := by
    intro d
    cases hc : s.isCancelled d.token with
    | false => split <;> simp
    | true =>
      have : s'.isCancelled d.token = true := CancelToken.isCancelled_mono hfired hc
      rw [this]
  unfold State.workOf
  cases hx : s.drivers x with
  | none =>
    rcases hd with hd | hd <;> rw [hd, hx] <;> simp
  | some d =>
    rcases hd with hd | hd
    · rw [hd, hx]
      exact hterm d
    · rw [hd, hx]
      exact hterm d.wake

theorem State.sum_lt (hids : s'.ids = s.ids) {f f' : TaskId → Nat}
    (hle : ∀ x ∈ s.ids, f' x ≤ f x) (hx : x ∈ s.ids) (hlt : f' x < f x) :
    (s'.ids.map f').sum < (s.ids.map f).sum := by
  rw [hids]
  exact List.sum_lt_sum _ _ hle ⟨x, hx, hlt⟩

theorem State.sum_le (hids : s'.ids = s.ids) {f f' : TaskId → Nat}
    (hle : ∀ x ∈ s.ids, f' x ≤ f x) : (s'.ids.map f').sum ≤ (s.ids.map f).sum := by
  rw [hids]
  exact List.sum_le_sum hle

theorem Wf.mem_ids_of_driver (hwf : Wf config s) (hd : s.drivers x = some d) : x ∈ s.ids :=
  (hwf.mem_ids x).mpr (by rw [hd]; rfl)

/-- A driver that went forward has less work before it. -/
theorem State.workOf_lt (hfired : s.fired ⊆ s'.fired) (hd : s.drivers x = some d)
    (hd' : s'.drivers x = some d') (hs : d.SameStart d')
    (hlt : d'.pc.remaining < d.pc.remaining) : s'.workOf x < s.workOf x := by
  unfold State.workOf
  rw [hd, hd', Option.elim_some, Option.elim_some, hs.token]
  cases hc : s.isCancelled d.token with
  | false => split <;> simp <;> omega
  | true =>
    rw [show s'.isCancelled d.token = true from CancelToken.isCancelled_mono hfired hc]
    simpa using hlt

theorem Turn.decreases (h : Turn config s id d op d') (hwf : Wf config s)
    (hd : s.drivers id = some d) (hs' : s' = (s.perform config id d op).setDriver id d') :
    s'.work < s.work ∨ s'.work ≤ s.work ∧ s'.rounds < s.rounds := by
  have hids : s'.ids = s.ids := by rw [hs']; exact s.perform_ids config id d op
  have hnotifies : s'.notifies = s.notifies := by rw [hs']; exact s.perform_notifies config id d op
  have hfired : s.fired ⊆ s'.fired := by rw [hs']; exact s.perform_fired config id d op
  have hself : s'.drivers id = some d' := by rw [hs']; simp
  have hothers : ∀ x, x ≠ id → s'.drivers x = s.drivers x ∨
      (op = .notify ∧ s'.drivers x = (s.drivers x).map Driver.wake) := by
    intro x hx
    rw [hs', State.setDriver_drivers, Function.update_of_ne hx]
    exact s.perform_drivers config id d op x
  have hle : ∀ x, x ≠ id → s'.workOf x ≤ s.workOf x := fun x hx =>
    State.workOf_le hfired ((hothers x hx).imp_right And.right)
  have hmem : id ∈ s.ids := hwf.mem_ids_of_driver hd
  have hlift : (s'.ids.map s'.workOf).sum < (s.ids.map s.workOf).sum → s'.work < s.work := by
    intro hlt
    rw [State.work, State.work, hnotifies]
    omega
  cases h.spent with
  | forward hlt =>
    have hid := State.workOf_lt hfired hd hself h.sameStart hlt
    refine .inl (hlift (State.sum_lt hids (fun x _ => ?_) hmem hid))
    by_cases hx : x = id
    · rw [hx]
      exact Nat.le_of_lt hid
    · exact hle x hx
  | round hop hsame hr =>
    have hdrivers : ∀ x, x ≠ id → s'.drivers x = s.drivers x := fun x hx =>
      (hothers x hx).resolve_right fun h => hop h.1
    have hidle : s'.workOf id ≤ s.workOf id := by
      unfold State.workOf
      rw [hd, hself, Option.elim_some, Option.elim_some, h.sameStart.token, hsame]
      cases hc : s.isCancelled d.token with
      | false => split <;> simp
      | true =>
        rw [show s'.isCancelled d.token = true from CancelToken.isCancelled_mono hfired hc]
    have hall : ∀ x ∈ s.ids, s'.workOf x ≤ s.workOf x := by
      intro x _
      by_cases hx : x = id
      · rw [hx]
        exact hidle
      · exact hle x hx
    -- the move cancelled a token, or left them all as they were
    by_cases hcan : ∀ x dx, s.drivers x = some dx →
        s'.isCancelled dx.token = s.isCancelled dx.token
    · refine .inr ⟨?_, State.sum_lt hids (fun x _ => ?_) hmem ?_⟩
      · rw [State.work, State.work, hnotifies]
        exact Nat.add_le_add_left (State.sum_le hids hall) _
      · by_cases hx : x = id
        · subst hx
          rw [State.roundsOf, State.roundsOf, hd, hself, Option.elim_some, Option.elim_some,
            h.sameStart.token, hcan x d hd]
          exact Nat.le_of_lt hr
        · rw [State.roundsOf, State.roundsOf, hdrivers x hx]
          cases hdx : s.drivers x with
          | none => exact Nat.le_refl _
          | some dx => rw [Option.elim_some, Option.elim_some, hcan x dx hdx]
      · rw [State.roundsOf, State.roundsOf, hd, hself, Option.elim_some, Option.elim_some,
          h.sameStart.token, hcan id d hd]
        exact hr
    · obtain ⟨y, hy⟩ := Classical.not_forall.mp hcan
      obtain ⟨dy, hy⟩ := Classical.not_forall.mp hy
      obtain ⟨hdy, hne⟩ := Classical.not_imp.mp hy
      have hflip : s.isCancelled dy.token = false ∧ s'.isCancelled dy.token = true := by
        cases hc : s.isCancelled dy.token with
        | true =>
          rw [hc] at hne
          exact absurd (CancelToken.isCancelled_mono hfired hc) hne
        | false =>
          rw [hc] at hne
          exact ⟨rfl, by simpa using hne⟩
      refine .inl (hlift (State.sum_lt hids hall (hwf.mem_ids_of_driver hdy) ?_))
      unfold State.workOf
      by_cases hyid : y = id
      · subst hyid
        rw [hd] at hdy
        cases hdy
        rw [hd, hself, Option.elim_some, Option.elim_some, h.sameStart.token, hflip.1, hflip.2,
          hsame]
        simp
      · rw [hdrivers y hyid, hdy, Option.elim_some, Option.elim_some, hflip.1, hflip.2]
        simp

/-- **Every move of the runtime itself uses something up.** -/
theorem Stepped.decreases (h : Stepped config s a s') (hwf : Wf config s) (hint : Internal s a) :
    s'.work < s.work ∨ s'.work ≤ s.work ∧ s'.rounds < s.rounds := by
  cases h with
  | drive hd hturn => exact hturn.decreases hwf hd rfl
  | notifyWaiters hn =>
    refine .inl ?_
    have hle : ((s.ids.map { s.notifyWaiters with notifies := s.notifies - 1 }.workOf).sum) ≤
        (s.ids.map s.workOf).sum :=
      List.sum_le_sum fun x _ => State.workOf_le (fun _ h => h) (.inr rfl)
    change s.notifies - 1 + _ < s.notifies + _
    exact Nat.add_lt_add_of_lt_of_le (by omega) hle
  | @nudge a id d d' hd hn =>
    cases a with
    | giveUp id' =>
      have hid : id' = id := by cases hn; rfl
      subst hid
      refine .inl (Nat.add_lt_add_left (State.sum_lt rfl (fun x _ => ?_)
        (hwf.mem_ids_of_driver hd) (x := id') ?_) _)
      · by_cases hx : x = id'
        · subst hx
          exact Nat.le_of_lt (State.workOf_lt (fun _ h => h) hd (by simp) hn.sameStart hn.forward)
        · exact State.workOf_le (fun _ h => h)
            (.inl (by rw [State.setDriver_drivers, Function.update_of_ne hx]))
      · exact State.workOf_lt (fun _ h => h) hd (by simp) hn.sameStart hn.forward
    | drive | notifyWaiters => cases hn
    | _ => exact hint.elim
  | start _ hsub _ => cases hsub <;> exact hint.elim
  | resources ha =>
    cases a with
    | addResource | setResourceState | setResourceReady => exact hint.elim
    | _ => cases ha
  | cancel | cancelIdle | cancelAll | idle | idleStep | progress | flush | tick =>
    exact hint.elim

/-- **The drivers come to rest**: from a state any run comes to, the runtime by
itself makes finitely many moves, in whatever order. -/
theorem Reaches.rests {ok : State Output → Action Output → Prop} (h : Reaches config ok s) :
    Rests (step config) Internal s :=
  Rests.of_measure (I := Wf config) State.work State.rounds
    (fun _ _ _ hwf _ hstep => (step_cases hstep).wf hwf)
    (fun _ _ _ hwf hint hstep => (step_cases hstep).decreases hwf hint) h.wf

end FilePeeker
