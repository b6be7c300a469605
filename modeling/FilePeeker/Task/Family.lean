import FilePeeker.Task.Cancellation
import FilePeeker.Task.Tree

/-!
# Parents and children

`Family` is what holds besides the forest's lists and counts once children are
submitted from live bodies only: a task that has not settled is retained, and
so is the parent of whatever is retained; past the wait of `finish_children`
every child has settled; and in that wait every child that has not settled has
its token cancelled.

The four carry each other.  The wait trusts the count of the parent's entry,
so the entry must still be there; it is, because eviction takes only what hangs
below a settled root; and that is settled, because no parent passes its wait
before its children have.
-/

namespace FilePeeker

variable {Output : Type} {config : Config} {s s' : State Output} {id x y : TaskId}
  {d d' : Driver Output} {op : Op} {a : Action Output}

/-- Past the wait of `finish_children`, or refused. -/
def Pc.finished : Pc Output → Bool
  | outcome _ | settle _ | settleNotify _ | deliver _ | done _ => true
  | _ => false

theorem Pc.finished_of_settled {pc : Pc Output} (h : pc.settled ≠ none) : pc.finished = true := by
  cases pc <;> simp_all [Pc.settled, Pc.finished]

structure Family (s : State Output) : Prop where
  retained : ∀ x d, s.drivers x = some d → d.pc.settled = none →
    ∃ e, s.registry.entry x = some e
  finished : ∀ x d c dc, s.drivers x = some d → d.pc.finished = true → s.drivers c = some dc →
    dc.token.parent = some x → ∃ o, dc.pc.settled = some o
  parent : ∀ c e p, s.registry.entry c = some e → e.info.parent = some p →
    ∃ ep, s.registry.entry p = some ep
  cancelled : ∀ x d joined c dc, s.drivers x = some d → d.pc = .finishSleep joined →
    s.drivers c = some dc → dc.token.parent = some x → dc.pc.settled = none →
    s.isCancelled dc.token = true

theorem Family.init : Family (State.init : State Output) := by
  constructor <;> simp [State.init]

/-! ### Moves past the wait -/

theorem Driver.called_refuse {error : TaskError} (hb : d.body = .unspawned) :
    (d.refuse error).called = false := by
  unfold Driver.called Driver.refuse
  rw [hb]
  cases d.ticket.queued <;> rfl

/-- How a driver comes past the wait: its check found no live child, or its
task never ran. -/
theorem Turn.finished (h : Turn config s id d op d') (hok : d.Ok) (hf : d'.pc.finished = true) :
    d.pc.finished = true ∨ d'.called = false ∨
      (d.pc.settled = none ∧ d'.pc.settled = none ∧ op = .none ∧
        ∀ e, s.registry.entry id = some e → e.liveChildren = 0) := by
  obtain ⟨_, hb⟩ := hok
  cases h with
  | admitFail hpc =>
    rw [hpc] at hb
    exact .inr (.inl (Driver.called_refuse hb))
  | leaveNotify hpc =>
    rw [hpc] at hb
    refine .inr (.inl ?_)
    simp [Driver.called, show d.body = .unspawned from hb]
  | finishDone hpc hl =>
    exact .inr (.inr ⟨by simp [hpc, Pc.settled], rfl, rfl, hl⟩)
  | pollEnded hpc | joinCancelled hpc =>
    unfold Driver.join at hf
    cases hq : d.ticket.queued <;> simp [hq, Pc.finished] at hf
  | outcome hpc | settle hpc he | settleGone hpc he | settleNotify hpc | deliver hpc =>
    exact .inl (by simp [hpc, Pc.finished])
  | _ => simp [Pc.finished] at hf

theorem Nudge.finished (h : Nudge s id d a d') (hok : d.Ok) (hf : d'.pc.finished = true) :
    d.pc.finished = true ∨ d'.called = false := by
  obtain ⟨_, hb⟩ := hok
  cases h with
  | giveUp hpc =>
    rw [hpc] at hb
    exact .inr (Driver.called_refuse hb)
  | runReturns => simp [Pc.finished] at hf
  | runPanics => cases hq : d.ticket.queued <;> simp [hq, Pc.finished] at hf
  | bodyEnds => exact .inl hf

/-- A driver whose body is under way is before the wait. -/
theorem Driver.before_wait_of_bodyLive (hok : d.Ok) (h : d.bodyLive = true) :
    d.pc.finished = false ∧ d.pc.settled = none ∧ ∀ joined, d.pc ≠ .finishSleep joined := by
  obtain ⟨_, hb⟩ := hok
  unfold Driver.bodyLive at h
  cases hpc : d.pc <;> cases hbody : d.body <;>
    simp_all [Pc.finished, Pc.settled, Pc.isCall, Pc.bodyOk, Body.isRunning]

theorem ChildrenInBody.bodyLive {kind : TaskKind} {submitted : SystemTime} {p : TaskId}
    {dp : Driver Output} (h : ChildrenInBody s a) (hsub : Submits id kind submitted a (some p))
    (hp : s.drivers p = some dp) : dp.bodyLive = true := by
  cases hsub with
  | submitChild => exact h dp hp

/-- The steps that start a child start it below a body under way. -/
theorem Started.bodyLive {p : TaskId} (h : Started config s a x s') (hwf : Wf config s)
    (hin : ChildrenInBody s a) (hd' : s'.drivers x = some d') (hp : d'.token.parent = some p) :
    p ≠ x ∧ ∃ dp, s.drivers p = some dp ∧ s'.drivers p = some dp ∧ dp.bodyLive = true := by
  cases h with
  | mk hfresh hsub hlin =>
    rw [State.started_driver] at hd'
    cases hd'
    cases hlin with
    | root => cases hp
    | child hq hcalled =>
      rw [Driver.start_token, CancelToken.child_parent, hwf.cell _ _ hq] at hp
      cases hp
      have hne : p ≠ x := fun h => by rw [h, hfresh] at hq; cases hq
      refine ⟨hne, _, hq, ?_, hin.bodyLive hsub hq⟩
      simp [State.started, Function.update_of_ne hne, hq]

/-! ### One step -/

/-- Past the wait every child has settled: after a step as before it. -/
theorem Stepped.family_finished (h : Stepped config s a s') (hwf : Wf config s) (ht : Tree s)
    (hfam : Family s) (hin : ChildrenInBody s a) {c : TaskId} {dc : Driver Output}
    (hd' : s'.drivers x = some d') (hf : d'.pc.finished = true) (hc : s'.drivers c = some dc)
    (hp : dc.token.parent = some x) : ∃ o, dc.pc.settled = some o := by
  have hwf' := h.wf hwf
  obtain ⟨dx, hdx, _, _, hcalled⟩ := hwf'.parent c dc x hc hp
  rw [hd'] at hdx
  cases hdx
  rcases h.driver hc with ⟨_, hstart⟩ | ⟨dc₀, hc₀, hmc⟩
  · obtain ⟨_, dp, _, hdp', hlive⟩ := hstart.bodyLive hwf hin hc hp
    rw [hd'] at hdp'
    cases hdp'
    rw [(Driver.before_wait_of_bodyLive (hwf'.ok x d' hd') hlive).1] at hf
    cases hf
  · rw [hmc.sameStart.token] at hp
    obtain ⟨dx₀, hdx₀, _⟩ := hwf.parent c dc₀ x hc₀ hp
    -- if the parent was past its wait before, the child had settled before
    have hbefore : dx₀.pc.finished = true → ∃ o, dc.pc.settled = some o := by
      intro hf₀
      obtain ⟨o, ho⟩ := hfam.finished x dx₀ c dc₀ hdx₀ hf₀ hc₀ hp
      exact ⟨o, hmc.settled ho⟩
    obtain ⟨dx', hdx', hmx⟩ := h.driver_forward hdx₀
    rw [hd'] at hdx'
    cases hdx'
    cases hmx with
    | same => exact hbefore hf
    | woken => exact hbefore hf
    | nudge hn =>
      rcases hn.finished (hwf.ok x dx₀ hdx₀) hf with hf₀ | hnc
      · exact hbefore hf₀
      · rw [hcalled] at hnc; cases hnc
    | turn ha hturn =>
      rcases hturn.finished (hwf.ok x dx₀ hdx₀) hf with hf₀ | hnc | ⟨hs₀, _, _, hzero⟩
      · exact hbefore hf₀
      · rw [hcalled] at hnc; cases hnc
      · -- its check found no live child, and its entry counts every child there is
        obtain ⟨e, he⟩ := hfam.retained x dx₀ hdx₀ hs₀
        have hcs : ∃ o, dc₀.pc.settled = some o := by
          cases hs : dc₀.pc.settled with
          | some o => exact ⟨o, rfl⟩
          | none =>
            obtain ⟨ec, hec⟩ := hfam.retained c dc₀ hc₀ hs
            have ho := hwf.entryOf hec hc₀
            have hchild : s.registry.forest.isChild x c :=
              Registry.forest_isChild.mpr ⟨ec, hec, ho.parent.trans hp⟩
            have hlive := ht.ok.not_live_of_zero hchild (Registry.forest_of_entry he) (hzero e he)
            rw [Registry.forest_isLive, hec, Option.any_some, ho.live, hs] at hlive
            cases hlive
        obtain ⟨o, ho⟩ := hcs
        exact ⟨o, hmc.settled ho⟩

/-- Whatever an eviction takes has settled. -/
theorem Stepped.settled_of_gone (h : Stepped config s a s') (hwf : Wf config s) (ht : Tree s)
    (hfam : Family s) (hin : ChildrenInBody s a) {e : Entry} (he : s.registry.entry x = some e)
    (hgone : s'.registry.entry x = none) :
    ∃ d o, s'.drivers x = some d ∧ d.pc.settled = some o := by
  obtain ⟨id, oldest, hev⟩ := h.evicts hwf ht he hgone
  have hok := ht.ok.settle hev.live
  -- by induction on the place in submission order: parents come before children
  have hall : ∀ n y dy, s.drivers y = some dy → dy.ticket.seq = n →
      ((s.registry.forest.settle id) y).isSome → s'.registry.forest y = none →
      ∃ d o, s'.drivers y = some d ∧ d.pc.settled = some o := by
    intro n
    induction n using Nat.strongRecOn with
    | ind n ih =>
      intro y dy hdy hseq hy hygone
      rcases hev.pruned.up y hy hygone with rfl | ⟨q, nq, hq, hqgone, hmem⟩
      · obtain ⟨d₁, o, hd₁, _, ho⟩ := hev.root
        exact ⟨d₁, o, hd₁, ho⟩
      · have hchild := (Forest.settle_isChild q y).mp (hok.child q nq y hq hmem)
        obtain ⟨ey, hey, hpar⟩ := Registry.forest_isChild.mp hchild
        have hpar' : dy.token.parent = some q := (hwf.entryOf hey hdy).parent.symm.trans hpar
        obtain ⟨dq, hdq, _, hlt, _⟩ := hwf.parent y dy q hdy hpar'
        obtain ⟨dq', o, hdq', ho⟩ := ih dq.ticket.seq (by omega) q dq hdq rfl
          (by rw [hq]; rfl) hqgone
        obtain ⟨dy', hdy', hmy⟩ := h.driver_forward hdy
        obtain ⟨o', ho'⟩ := h.family_finished hwf ht hfam hin hdq'
          (Pc.finished_of_settled (by rw [ho]; simp)) hdy'
          (by rw [hmy.sameStart.token]; exact hpar')
        exact ⟨dy', o', hdy', ho'⟩
  obtain ⟨dx, hdx, _⟩ := hwf.entry x e he
  refine hall _ x dx hdx rfl ?_ (by rw [Registry.forest, hgone, Option.map_none])
  rw [Forest.settle, Option.isSome_map, Registry.forest_isSome, he]
  rfl

/-- A task that is retained stays so until it has settled. -/
theorem Stepped.family_retained (h : Stepped config s a s') (hwf : Wf config s) (ht : Tree s)
    (hfam : Family s) (hin : ChildrenInBody s a) (hd' : s'.drivers x = some d')
    (hs : d'.pc.settled = none) : ∃ e, s'.registry.entry x = some e := by
  rcases h.driver hd' with ⟨_, hstart⟩ | ⟨d, hd, hm⟩
  · cases hstart with
    | @mk kind parent token submitted hfresh hsub hlin =>
      exact ⟨_, (s.registry.start_entry config x x kind parent token submitted).trans (if_pos rfl)⟩
  · have hs₀ : d.pc.settled = none := by
      cases h₀ : d.pc.settled with
      | none => rfl
      | some o => rw [hm.settled h₀] at hs; cases hs
    obtain ⟨e, he⟩ := hfam.retained x d hd hs₀
    cases he' : s'.registry.entry x with
    | some e' => exact ⟨e', rfl⟩
    | none =>
      obtain ⟨d₁, o, hd₁, ho⟩ := h.settled_of_gone hwf ht hfam hin he he'
      rw [hd'] at hd₁
      cases hd₁
      rw [hs] at ho
      cases ho

/-- Whatever leaves the registry takes its children with it. -/
theorem Stepped.children_gone (h : Stepped config s a s') (hwf : Wf config s) (ht : Tree s)
    {p c : TaskId} {ep : Entry} (hp : s.registry.entry p = some ep)
    (hgone : s'.registry.entry p = none) (hc : s.registry.forest.isChild p c) :
    s'.registry.entry c = none := by
  obtain ⟨id, oldest, hev⟩ := h.evicts hwf ht hp hgone
  have hok := ht.ok.settle hev.live
  obtain ⟨n, hn⟩ : ∃ n, (s.registry.forest.settle id) p = some n := by
    rw [Forest.settle, Registry.forest_of_entry hp]
    exact ⟨_, rfl⟩
  have hmem := hok.listed c p n ((Forest.settle_isChild p c).mpr hc) hn
  have hpf : s'.registry.forest p = none := by rw [Registry.forest, hgone, Option.map_none]
  exact Option.map_eq_none_iff.mp (hev.pruned.down p n hn hpf c hmem)

/-- The entries after a step are of tasks that had one, or were just started. -/
theorem Stepped.entry_or_started {e' : Entry} (h : Stepped config s a s')
    (he' : s'.registry.entry x = some e') :
    Started config s a x s' ∨ ∃ e, s.registry.entry x = some e ∧ e.Keeps e' := by
  rcases h.started_or_nothing with ⟨id, hstarted⟩ | hstart
  · by_cases hx : x = id
    · subst hx
      exact .inl hstarted
    · refine .inr ?_
      cases hstarted with
      | @mk kind parent token submitted hfresh hsub hlin =>
        have hentry :=
          (s.registry.start_entry config id x kind parent token submitted).symm.trans he'
        rw [if_neg hx] at hentry
        split at hentry
        · obtain ⟨e, he, rfl⟩ := Option.map_eq_some_iff.mp hentry
          exact ⟨e, he, ⟨rfl, rfl, rfl, rfl, rfl, rfl⟩⟩
        · exact ⟨e', hentry, .refl e'⟩
  · obtain ⟨e, he, hk, _⟩ := h.entry_back hstart he'
    exact .inr ⟨e, he, hk⟩

theorem Stepped.family_parent (h : Stepped config s a s') (hwf : Wf config s) (ht : Tree s)
    (hfam : Family s) (hin : ChildrenInBody s a) {c p : TaskId} {e' : Entry}
    (he' : s'.registry.entry c = some e') (hp : e'.info.parent = some p) :
    ∃ ep, s'.registry.entry p = some ep := by
  have hwf' := h.wf hwf
  obtain ⟨d', hd', ho'⟩ := hwf'.entry c e' he'
  rcases h.entry_or_started he' with hstart | ⟨e, he, hk⟩
  · obtain ⟨_, dp, _, hdp', hlive⟩ := hstart.bodyLive hwf hin hd' (ho'.parent.symm.trans hp)
    exact h.family_retained hwf ht hfam hin hdp'
      (Driver.before_wait_of_bodyLive (hwf'.ok p dp hdp') hlive).2.1
  · have hp₀ : e.info.parent = some p := hk.parent.symm.trans hp
    obtain ⟨ep, hep⟩ := hfam.parent c e p he hp₀
    cases hep' : s'.registry.entry p with
    | some ep' => exact ⟨ep', rfl⟩
    | none =>
      have := h.children_gone hwf ht hep hep' (Registry.forest_isChild.mpr ⟨e, he, hp₀⟩)
      rw [he'] at this
      cases this

/-- Only the wait of `finish_children` goes to sleep in it. -/
theorem Turn.finishSleep {joined : Joined Output} (h : Turn config s id d op d')
    (hpc : d'.pc = .finishSleep joined) :
    op = .cancelChildren ∧ d.pc.settled = none ∧ ∃ e, s.registry.entry id = some e := by
  cases h with
  | finishWait hpc₀ he hl => exact ⟨rfl, by simp [hpc₀, Pc.settled], _, he⟩
  | pollEnded | joinCancelled =>
    unfold Driver.join at hpc
    cases hq : d.ticket.queued <;> simp [hq] at hpc
  | admitFail =>
    unfold Driver.refuse at hpc
    cases hq : d.ticket.queued <;> simp [hq] at hpc
  | _ => simp at hpc

theorem Nudge.finishSleep {joined : Joined Output} (h : Nudge s id d a d')
    (hpc : d'.pc = .finishSleep joined) : d.pc = .finishSleep joined := by
  cases h with
  | bodyEnds => exact hpc
  | giveUp =>
    unfold Driver.refuse at hpc
    cases hq : d.ticket.queued <;> simp [hq] at hpc
  | runPanics => cases hq : d.ticket.queued <;> simp [hq] at hpc
  | runReturns => simp at hpc

theorem Stepped.family_cancelled (h : Stepped config s a s') (hwf : Wf config s) (ht : Tree s)
    (hfam : Family s) (hin : ChildrenInBody s a) {joined : Joined Output} {c : TaskId}
    {dc : Driver Output} (hd' : s'.drivers x = some d') (hpc : d'.pc = .finishSleep joined)
    (hc : s'.drivers c = some dc) (hp : dc.token.parent = some x)
    (hs : dc.pc.settled = none) : s'.isCancelled dc.token = true := by
  have hwf' := h.wf hwf
  rcases h.driver hc with ⟨_, hstart⟩ | ⟨dc₀, hc₀, hmc⟩
  · obtain ⟨_, dp, _, hdp', hlive⟩ := hstart.bodyLive hwf hin hc hp
    rw [hd'] at hdp'
    cases hdp'
    exact absurd hpc ((Driver.before_wait_of_bodyLive (hwf'.ok x d' hd') hlive).2.2 joined)
  · have hp₀ : dc₀.token.parent = some x := by rw [← hmc.sameStart.token]; exact hp
    have hs₀ : dc₀.pc.settled = none := by
      cases h₀ : dc₀.pc.settled with
      | none => rfl
      | some o => rw [hmc.settled h₀] at hs; cases hs
    obtain ⟨dx₀, hdx₀, _⟩ := hwf.parent c dc₀ x hc₀ hp₀
    rw [hmc.sameStart.token]
    have hbefore : dx₀.pc = .finishSleep joined → s'.isCancelled dc₀.token = true := fun hpc₀ =>
      h.isCancelled (hfam.cancelled x dx₀ joined c dc₀ hdx₀ hpc₀ hc₀ hp₀ hs₀)
    obtain ⟨dx', hdx', hmx⟩ := h.driver_forward hdx₀
    rw [hd'] at hdx'
    cases hdx'
    cases hmx with
    | same => exact hbefore hpc
    | woken => exact hbefore hpc
    | nudge hn => exact hbefore (hn.finishSleep hpc)
    | turn ha hturn =>
      subst ha
      obtain ⟨hop, _, e, he⟩ := hturn.finishSleep hpc
      obtain ⟨d₁, op₁, d₁', hd₁, hturn₁, hs'⟩ := h.drive_inv
      rw [hdx₀] at hd₁
      cases hd₁
      subst hs'
      rw [State.setDriver_drivers, Function.update_self] at hd'
      cases hd'
      obtain ⟨rfl, _, _⟩ := hturn₁.finishSleep hpc
      obtain ⟨ec, hec⟩ := hfam.retained c dc₀ hc₀ hs₀
      have ho := hwf.entryOf hec hc₀
      have hmem : c ∈ e.children := ht.ok.listed c x e.node
        (Registry.forest_isChild.mpr ⟨ec, hec, ho.parent.trans hp₀⟩)
        (Registry.forest_of_entry he)
      have hfire := Registry.mem_liveChildTokens he hmem hec (by rw [ho.live, hs₀]; rfl)
      rw [ho.token] at hfire
      exact CancelToken.isCancelled_of_mem (List.mem_append_right _ hfire)

/-- **One step keeps parents and children together.** -/
theorem Stepped.family (h : Stepped config s a s') (hwf : Wf config s) (ht : Tree s)
    (hfam : Family s) (hin : ChildrenInBody s a) : Family s' where
  retained _ _ hd hs := h.family_retained hwf ht hfam hin hd hs
  finished _ _ _ _ hd hf hc hp := h.family_finished hwf ht hfam hin hd hf hc hp
  parent _ _ _ he hp := h.family_parent hwf ht hfam hin he hp
  cancelled _ _ _ _ _ hd hpc hc hp hs := h.family_cancelled hwf ht hfam hin hd hpc hc hp hs

theorem Reaches.family {ok : State Output → Action Output → Prop}
    (hok : ∀ s a, ok s a → ChildrenInBody s a) (h : Reaches config ok s) : Family s :=
  h.invariant_from .init fun _ _ _ hreach hfam hin hstep =>
    (step_cases hstep).family (Reaches.wf hreach) (Reaches.tree hreach) hfam (hok _ _ hin)

/-! ### Descendants -/

/-- `y` was submitted below `x`, at any depth. -/
def State.Beneath (s : State Output) (x y : TaskId) : Prop :=
  ∃ d, s.drivers y = some d ∧ x ∈ d.token.ancestors

/-- The rule for descendants: what a task hands to its children, it hands to
everything beneath it. -/
theorem Wf.beneath_induction (hwf : Wf config s) {P : TaskId → Driver Output → Prop}
    (hchild : ∀ c dc, s.drivers c = some dc → dc.token.parent = some x → P c dc)
    (hstep : ∀ q dq c dc, s.drivers q = some dq → s.drivers c = some dc →
      dc.token.parent = some q → P q dq → P c dc) :
    ∀ y d, s.drivers y = some d → x ∈ d.token.ancestors → P y d := by
  have hall : ∀ n y d, s.drivers y = some d → d.ticket.seq = n → x ∈ d.token.ancestors →
      P y d := by
    intro n
    induction n using Nat.strongRecOn with
    | ind n ih =>
      intro y d hd hseq hx
      obtain ⟨q, hq⟩ : ∃ q, d.token.parent = some q := by
        cases hp : d.token.parent with
        | none =>
          rw [CancelToken.parent_eq_none.mp hp] at hx
          cases hx
        | some q => exact ⟨q, rfl⟩
      obtain ⟨dq, hdq, hanc, hlt, _⟩ := hwf.parent y d q hd hq
      rw [hanc, CancelToken.lineage, hwf.cell q dq hdq] at hx
      rcases List.mem_cons.mp hx with rfl | hx
      · exact hchild y d hd hq
      · exact hstep q dq y d hdq hd hq (ih dq.ticket.seq (by omega) q dq hdq rfl hx)
  exact fun y d hd hx => hall d.ticket.seq y d hd rfl hx

/-- Whatever is beneath a child is beneath its parent. -/
theorem Wf.beneath_of_child (hwf : Wf config s) {c : TaskId} {dc : Driver Output}
    (hc : s.drivers c = some dc) (hp : dc.token.parent = some x) (hy : y = c ∨ s.Beneath c y) :
    s.Beneath x y := by
  obtain ⟨dp, hdp, hanc, _⟩ := hwf.parent c dc x hc hp
  have hx : x ∈ dc.token.ancestors := by
    rw [hanc, ← hwf.cell x dp hdp]
    exact dp.token.cell_mem_lineage
  rcases hy with rfl | ⟨d, hd, hmem⟩
  · exact ⟨dc, hc, hx⟩
  · refine ⟨d, hd, ?_⟩
    refine hwf.beneath_induction (P := fun _ d => x ∈ d.token.ancestors) ?_ ?_ y d hd hmem
    · intro b db hb hpb
      obtain ⟨dc', hdc', hancb, _⟩ := hwf.parent b db c hb hpb
      rw [hc] at hdc'
      cases hdc'
      rw [hancb]
      exact List.mem_cons_of_mem _ hx
    · intro q dq b db hq hb hpb ih
      obtain ⟨dq', hdq', hancb, _⟩ := hwf.parent b db q hb hpb
      rw [hq] at hdq'
      cases hdq'
      rw [hancb]
      exact List.mem_cons_of_mem _ ih

/-- Past the wait of a task everything beneath it has settled. -/
theorem Family.beneath_settled (hfam : Family s) (hwf : Wf config s) (hd : s.drivers x = some d)
    (hf : d.pc.finished = true) {dy : Driver Output} (hy : s.drivers y = some dy)
    (hx : x ∈ dy.token.ancestors) : ∃ o, dy.pc.settled = some o := by
  refine hwf.beneath_induction (P := fun _ dy => ∃ o, dy.pc.settled = some o) ?_ ?_ y dy hy hx
  · intro c dc hc hp
    exact hfam.finished x d c dc hd hf hc hp
  · rintro q dq c dc hq hc hp ⟨o, ho⟩
    exact hfam.finished q dq c dc hq (Pc.finished_of_settled (by rw [ho]; simp)) hc hp

/-- While a task waits for its children, whatever beneath it has not settled
has its token cancelled. -/
theorem Family.beneath_cancelled (hfam : Family s) (hwf : Wf config s) (hd : s.drivers x = some d)
    {joined : Joined Output} (hpc : d.pc = .finishSleep joined) {dy : Driver Output}
    (hy : s.drivers y = some dy) (hx : x ∈ dy.token.ancestors) (hs : dy.pc.settled = none) :
    s.isCancelled dy.token = true := by
  refine hwf.beneath_induction
    (P := fun _ dy => dy.pc.settled = none → s.isCancelled dy.token = true) ?_ ?_ y dy hy hx hs
  · intro c dc hc hp hs
    exact hfam.cancelled x d joined c dc hd hpc hc hp hs
  · intro q dq c dc hq hc hp ih hs
    have hsq : dq.pc.settled = none := by
      cases ho : dq.pc.settled with
      | none => rfl
      | some o =>
        obtain ⟨o', ho'⟩ := hfam.finished q dq c dc hq (Pc.finished_of_settled (by rw [ho]; simp))
          hc hp
        rw [hs] at ho'
        cases ho'
    obtain ⟨dq', hdq', hanc, _⟩ := hwf.parent c dc q hc hp
    rw [hq] at hdq'
    cases hdq'
    refine CancelToken.isCancelled_of_suffix (ih hsq) ?_
    change dq.token.lineage ⊆ dc.token.cell :: dc.token.ancestors
    rw [hanc]
    exact List.subset_cons_self _ _

/-! ### The task tree -/

/-- **The task tree.**  In every state of a run whose children are submitted
from live bodies: every entry counts its live children, so settling one never
saturates; a terminal task has only terminal tasks beneath it; every entry but
a root's has its parent's beside it and is listed there once; while a task
waits for its children, whatever beneath it is not terminal has its token
cancelled; and past that wait everything beneath it is terminal. -/
theorem task_tree_kept (h : Reaches config ChildrenInBody s) :
    (∀ x e, s.registry.entry x = some e →
      e.liveChildren = e.children.countP fun c => (s.registry.entry c).any Entry.live) ∧
    (∀ c e p, s.registry.entry c = some e → e.live = true → e.info.parent = some p →
      ∃ ep, s.registry.entry p = some ep ∧ 0 < ep.liveChildren) ∧
    (∀ x y ex ey, s.registry.entry x = some ex → s.registry.entry y = some ey → s.Beneath x y →
      ex.info.state.isTerminal = true → ey.info.state.isTerminal = true) ∧
    (∀ c e p, s.registry.entry c = some e → e.info.parent = some p →
      ∃ ep, s.registry.entry p = some ep ∧ ep.children.count c = 1) ∧
    (∀ x e c, s.registry.entry x = some e → c ∈ e.children →
      ∃ ec, s.registry.entry c = some ec ∧ ec.info.parent = some x) ∧
    (∀ x d joined y ey, s.drivers x = some d → d.pc = .finishSleep joined →
      s.registry.entry y = some ey → s.Beneath x y → ey.info.state.isTerminal = false →
      s.isCancelled ey.token = true) ∧
    (∀ x d y ey, s.drivers x = some d → d.pc.finished = true → s.registry.entry y = some ey →
      s.Beneath x y → ey.info.state.isTerminal = true) := by
  have hwf := h.wf
  have ht := h.tree
  have hfam := h.family fun _ _ hin => hin
  have hsettled : ∀ {y ey dy}, s.registry.entry y = some ey → s.drivers y = some dy →
      ey.info.state.isTerminal = dy.pc.settled.isSome := fun hey hdy =>
    Pc.shows_isTerminal (hwf.entryOf hey hdy).shows
  have hpast : ∀ x d y ey, s.drivers x = some d → d.pc.finished = true →
      s.registry.entry y = some ey → s.Beneath x y → ey.info.state.isTerminal = true := by
    rintro x d y ey hd hf hey ⟨dy, hdy, hx⟩
    obtain ⟨o, ho⟩ := hfam.beneath_settled hwf hd hf hdy hx
    rw [hsettled hey hdy, ho]
    rfl
  refine ⟨?_, ?_, ?_, ?_, ?_, ?_, hpast⟩
  · intro x e he
    refine (ht.ok.count x e.node (Registry.forest_of_entry he)).trans ?_
    exact List.countP_congr fun c _ => by rw [Registry.forest_isLive]
  · intro c e p he hl hp
    obtain ⟨ep, hep⟩ := hfam.parent c e p he hp
    refine ⟨ep, hep, ht.ok.liveChildren_pos (Registry.forest_isChild.mpr ⟨e, he, hp⟩) ?_
      (Registry.forest_of_entry hep)⟩
    rw [Registry.forest_isLive, he]
    exact hl
  · intro x y ex ey hex hey hb hterm
    obtain ⟨d, hd, _⟩ := hwf.entry x ex hex
    refine hpast x d y ey hd (Pc.finished_of_settled fun hn => ?_) hey hb
    rw [hsettled hex hd, hn] at hterm
    cases hterm
  · intro c e p he hp
    obtain ⟨ep, hep⟩ := hfam.parent c e p he hp
    exact ⟨ep, hep, ht.ok.count_listed (Registry.forest_isChild.mpr ⟨e, he, hp⟩)
      (Registry.forest_of_entry hep)⟩
  · intro x e c he hc
    exact Registry.forest_isChild.mp (ht.ok.child x e.node c (Registry.forest_of_entry he) hc)
  · rintro x d joined y ey hd hpc hey ⟨dy, hdy, hx⟩ hterm
    rw [(hwf.entryOf hey hdy).token]
    refine hfam.beneath_cancelled hwf hd hpc hdy hx ?_
    rw [hsettled hey hdy] at hterm
    exact Option.isNone_iff_eq_none.mp (by simpa using hterm)

/-- A root and its child, both running, and the root's body just over. -/
def bodyOverChildRunning : State Nat :=
  State.init.run .default ChildrenInBody
    [.submit ⟨1⟩ ⟨⟨"copy", [], .interactive⟩, []⟩ 0, .drive ⟨1⟩, .drive ⟨1⟩, .drive ⟨1⟩,
      .runReturns ⟨1⟩, .submitChild ⟨1⟩ ⟨2⟩ ⟨⟨"scan", [], .interactive⟩, []⟩ 0, .drive ⟨2⟩,
      .drive ⟨2⟩, .drive ⟨2⟩, .runReturns ⟨2⟩, .bodyEnds ⟨1⟩ (.ok 0)]

theorem running_child_is_counted :
    ∃ e, bodyOverChildRunning.registry.entry ⟨1⟩ = some e ∧ e.liveChildren = 1 ∧
      e.liveChildren =
        e.children.countP fun c => (bodyOverChildRunning.registry.entry c).any Entry.live := by
  have hr : Reaches .default ChildrenInBody bodyOverChildRunning := State.steps_run _ _ _ _
  have h := task_tree_kept hr
  exact ⟨(bodyOverChildRunning.registry.entry ⟨1⟩).get (by decide), by simp, by decide,
    h.1 ⟨1⟩ _ (by simp)⟩

/-- The child's body returns by itself before the root looks at its children. -/
def childReturnsByItself : State Nat :=
  bodyOverChildRunning.run .default ChildrenInBody
    [.bodyEnds ⟨2⟩ (.ok 0), .drive ⟨2⟩, .drive ⟨2⟩, .drive ⟨2⟩, .drive ⟨2⟩, .drive ⟨2⟩,
      .drive ⟨1⟩, .drive ⟨1⟩, .drive ⟨1⟩, .drive ⟨1⟩, .drive ⟨1⟩]

/-- **Not every descendant still running when a body ends is cancelled**: one
that settles before the check of `finish_children` never is. -/
theorem running_child_not_cancelled :
    ¬ ∀ (s t : State Nat) (x y : TaskId) (d d' : Driver Nat) (joined : Joined Nat)
        (ey : Entry), Reaches .default ChildrenInBody s → s.drivers x = some d →
      d.body = .ended joined → s.registry.entry y = some ey → s.Beneath x y →
      ey.info.state = .running → Steps (step .default) ChildrenInBody s t →
      t.drivers x = some d' → d'.pc.settled.isSome → t.isCancelled ey.token = true := by
  intro h
  have := h bodyOverChildRunning childReturnsByItself ⟨1⟩ ⟨2⟩
    ((bodyOverChildRunning.drivers ⟨1⟩).get (by decide))
    ((childReturnsByItself.drivers ⟨1⟩).get (by decide)) (.ok 0)
    ((bodyOverChildRunning.registry.entry ⟨2⟩).get (by decide)) (State.steps_run _ _ _ _)
    (by simp) (by decide) (by simp)
    ⟨(bodyOverChildRunning.drivers ⟨2⟩).get (by decide), by simp, by decide⟩ (by decide)
    (State.steps_run _ _ _ _) (by simp) (by decide)
  exact absurd this (by decide)

end FilePeeker
