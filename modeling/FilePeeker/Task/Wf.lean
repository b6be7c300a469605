import FilePeeker.Task.Phases

/-!
# What holds in every run

`Wf` ties the parts of a state together: identifiers, submission order, tokens
and tickets, and the registry's entries with their drivers.  It holds in every
state of every run (`Reaches.wf`), whatever the task code does with its
contexts.  `Entry.Keeps` is what no step ever changes of an entry.
-/

namespace FilePeeker

variable {Output : Type} {config : Config} {s s' : State Output} {id x : TaskId}
  {d d' : Driver Output} {op : Op} {a : Action Output}

/-- What an entry is for good: all but its state, progress and children. -/
structure Entry.Keeps (e e' : Entry) : Prop where
  seq : e'.seq = e.seq
  id : e'.info.id = e.info.id
  parent : e'.info.parent = e.info.parent
  descriptor : e'.info.descriptor = e.info.descriptor
  submitted : e'.info.submitted = e.info.submitted
  token : e'.token = e.token

theorem Entry.Keeps.refl (e : Entry) : e.Keeps e := ⟨rfl, rfl, rfl, rfl, rfl, rfl⟩

/-- The state a driver's lock section writes, if it writes one. -/
def Op.newState : Op → Option TaskState
  | setQueued on => some (.queued on)
  | setState st | settle st => some st
  | none | notify | admitTicket | leave | release | cancelChildren => Option.none

/-- An entry after a driver's move, from the one before it. -/
theorem State.perform_entry {e' : Entry}
    (h : (s.perform config id d op).registry.entry x = some e') :
    ∃ e, s.registry.entry x = some e ∧ e.Keeps e' ∧
      e'.info.state = if x = id then op.newState.getD e.info.state else e.info.state := by
  cases op with
  | none | notify | admitTicket | leave | release | cancelChildren =>
    exact ⟨e', h, .refl e', by simp [Op.newState]⟩
  | setQueued on =>
    have h' := (Registry.setQueued_entry s.registry id x on).symm.trans h
    by_cases hx : x = id
    · subst hx
      rw [if_pos rfl, Option.map_eq_some_iff] at h'
      obtain ⟨e, he, rfl⟩ := h'
      exact ⟨e, he, ⟨rfl, rfl, rfl, rfl, rfl, rfl⟩, by simp [Op.newState, Entry.setState]⟩
    · rw [if_neg hx] at h'
      exact ⟨e', h', .refl e', by simp [hx]⟩
  | setState st =>
    have h' := (Registry.setState_entry s.registry id x st).symm.trans h
    by_cases hx : x = id
    · subst hx
      rw [if_pos rfl, Option.map_eq_some_iff] at h'
      obtain ⟨e, he, rfl⟩ := h'
      exact ⟨e, he, ⟨rfl, rfl, rfl, rfl, rfl, rfl⟩, by simp [Op.newState, Entry.setState]⟩
    · rw [if_neg hx] at h'
      exact ⟨e', h', .refl e', by simp [hx]⟩
  | settle st =>
    have h1 : (s.registry.settle config id st s.wall).1.entry x = some e' := h
    cases hid : s.registry.entry id with
    | none =>
      rw [Registry.settle_none _ _ _ hid] at h1
      have hx : x ≠ id := fun hx => by rw [hx, hid] at h1; cases h1
      exact ⟨e', h1, .refl e', by simp [hx]⟩
    | some ei =>
      have h2 := (s.registry.settle_shrinks config id hid st s.wall).some h1
      rw [Registry.mark_lookup] at h2
      have h3 : ∃ e, s.registry.entry x = some e ∧
          (e' = (if x = id then e.settle st s.wall else e) ∨
            e' = (if x = id then e.settle st s.wall else e).loseChild) := by
        by_cases hx : x = id
        · subst hx
          simp only [if_true] at h2 ⊢
          refine ⟨ei, hid, ?_⟩
          split at h2
          · exact .inr (Option.some.inj h2).symm
          · exact .inl (Option.some.inj h2).symm
        · simp only [hx, if_false] at h2 ⊢
          split at h2
          · obtain ⟨e, he, rfl⟩ := Option.map_eq_some_iff.mp h2
            exact ⟨e, he, .inr rfl⟩
          · exact ⟨e', h2, .inl rfl⟩
      obtain ⟨e, he, he'⟩ := h3
      refine ⟨e, he, ?_, ?_⟩
      · rcases he' with rfl | rfl <;> by_cases hx : x = id <;>
          simp only [hx, if_true, if_false] <;> exact ⟨rfl, rfl, rfl, rfl, rfl, rfl⟩
      · rcases he' with rfl | rfl <;> by_cases hx : x = id <;>
          simp only [hx, if_true, if_false, Op.newState] <;> rfl

/-- **The state a move writes is one its driver's new place can show.** -/
theorem Turn.shows {st : TaskState} (h : Turn config s id d op d') (hok : d.Ok)
    (hs : d.pc.shows d.body st) : d'.pc.shows d'.body (op.newState.getD st) := by
  obtain ⟨_, hb⟩ := hok
  cases h with
  | admitFail hpc =>
    rw [hpc] at hs hb
    unfold Driver.refuse
    cases d.ticket.queued with
    | true => exact hs
    | false =>
      rw [show d.body = .unspawned from hb]
      exact hs
  | leaveNotify hpc =>
    rw [hpc] at hs hb
    rw [show d.body = .unspawned from hb]
    exact hs
  | pollEnded hpc =>
    rw [hpc] at hs
    unfold Driver.join
    cases d.ticket.queued <;> exact .inl hs
  | joinCancelled hpc =>
    rw [hpc] at hs
    unfold Driver.join
    cases d.ticket.queued <;> exact .inr hs
  | outcome hpc =>
    rw [hpc] at hs hb
    rw [show d.body = .ended _ from hb]
    exact hs
  | settleGone hpc | settle hpc => exact rfl
  | admitQueue hpc => exact rfl
  | admitWake hpc =>
    rw [hpc] at hs
    exact ⟨_, hs⟩
  | setRunning | setCancelling => exact rfl
  | _ =>
    rename_i hpc
    simp_all [Pc.shows, Op.newState]

theorem Nudge.shows {st : TaskState} (h : Nudge s id d a d') (hok : d.Ok)
    (hs : d.pc.shows d.body st) : d'.pc.shows d'.body st := by
  obtain ⟨_, hb⟩ := hok
  cases h with
  | giveUp hpc =>
    rw [hpc] at hs hb
    unfold Driver.refuse
    cases d.ticket.queued with
    | true => exact ⟨_, hs⟩
    | false =>
      rw [show d.body = .unspawned from hb]
      exact ⟨_, hs⟩
  | runReturns hpc =>
    rw [hpc] at hs
    exact hs
  | runPanics hpc =>
    rw [hpc] at hs
    cases d.ticket.queued <;> exact hs
  | bodyEnds hrun =>
    rw [hrun] at hb hs
    cases hpc : d.pc <;> simp_all [Pc.shows, Pc.bodyOk]

/-- A context once made stays made. -/
theorem Moved.called (h : Moved config s a x d d') (hok : d.Ok) (hd : d.called = true) :
    d'.called = true := by
  obtain ⟨_, hb⟩ := hok
  cases h with
  | same => exact hd
  | woken => exact hd
  | turn _ h =>
    have hbody := h.body
    unfold Driver.called at hd ⊢
    rw [hbody]
    cases hu : d.body with
    | running => rfl
    | ended j => rfl
    | unspawned =>
      simp only [hu] at hd
      cases h <;> rename_i hpc <;> simp_all
  | nudge h =>
    unfold Driver.called at hd ⊢
    cases h with
    | giveUp hpc hc =>
      rw [hpc] at hb hd
      simp [show d.body = .unspawned from hb] at hd
    | runReturns hpc => rfl
    | runPanics hpc =>
      rw [hpc] at hb
      rw [show d.body = .unspawned from hb]
      cases d.ticket.queued <;> rfl
    | bodyEnds => rfl

/-! ### The parts of a state fit together -/

/-- The entry of a task and its driver. -/
structure EntryOf (x : TaskId) (d : Driver Output) (e : Entry) : Prop where
  seq : e.seq = d.ticket.seq
  id : e.info.id = x
  parent : e.info.parent = d.token.parent
  token : e.token = d.token
  shows : d.pc.shows d.body e.info.state

theorem EntryOf.live {e : Entry} (h : EntryOf x d e) : e.live = d.pc.settled.isNone := by
  rw [Entry.live, Pc.shows_isTerminal h.shows]
  cases d.pc.settled <;> rfl

structure Wf (config : Config) (s : State Output) : Prop where
  ids_nodup : s.ids.Nodup
  mem_ids : ∀ x, x ∈ s.ids ↔ (s.drivers x).isSome
  ids_length : s.ids.length = s.registry.nextSeq
  seq : ∀ x d, s.drivers x = some d → s.ids[d.ticket.seq]? = some x
  cell : ∀ x d, s.drivers x = some d → d.token.cell = x
  parent : ∀ x d p, s.drivers x = some d → d.token.parent = some p →
    ∃ dp, s.drivers p = some dp ∧ d.token.ancestors = dp.token.lineage ∧
      dp.ticket.seq < d.ticket.seq ∧ dp.called = true
  queued : ∀ x d, s.drivers x = some d →
    d.ticket.queued = (d.token.parent.isNone && (config.cap d.ticket.scope.1).isSome)
  ok : ∀ x d, s.drivers x = some d → d.Ok
  entry : ∀ x e, s.registry.entry x = some e → ∃ d, s.drivers x = some d ∧ EntryOf x d e
  roots : s.registry.settledRoots.length ≤ config.retainedRoots

theorem Wf.init : Wf config (State.init : State Output) where
  ids_nodup := List.nodup_nil
  mem_ids := by simp [State.init]
  ids_length := rfl
  seq := by simp [State.init]
  cell := by simp [State.init]
  parent := by simp [State.init]
  queued := by simp [State.init]
  ok := by simp [State.init]
  entry := by simp [State.init]
  roots := by simp [State.init, Registry.default]

namespace Wf

theorem seq_lt (h : Wf config s) (hd : s.drivers x = some d) :
    d.ticket.seq < s.registry.nextSeq := by
  rw [← h.ids_length]
  exact (List.getElem?_eq_some_iff.mp (h.seq x d hd)).1

/-- Submission numbers name tasks. -/
theorem seq_inj (h : Wf config s) {y : TaskId} {dy : Driver Output} (hd : s.drivers x = some d)
    (hy : s.drivers y = some dy) (hseq : d.ticket.seq = dy.ticket.seq) : x = y := by
  have h1 := h.seq x d hd
  have h2 := h.seq y dy hy
  rw [hseq, h2] at h1
  exact (Option.some.inj h1).symm

/-- The driver of a retained task, with its entry. -/
theorem entryOf (h : Wf config s) {e : Entry} (he : s.registry.entry x = some e)
    (hd : s.drivers x = some d) : EntryOf x d e := by
  obtain ⟨d', hd', ho⟩ := h.entry x e he
  rw [hd] at hd'
  cases hd'
  exact ho

end Wf

/-- A step that starts nothing. -/
def Action.StartsNothing (a : Action Output) : Prop :=
  ∀ id kind submitted parent, ¬Submits id kind submitted a parent

/-- A step starts a task, or none. -/
theorem Stepped.started_or_nothing (h : Stepped config s a s') :
    (∃ x, Started config s a x s') ∨ a.StartsNothing := by
  by_cases hstart : a.StartsNothing
  · exact .inr hstart
  · cases h with
    | start hfresh hsub hlin => exact .inl ⟨_, .mk hfresh hsub hlin⟩
    | resources ha => exact absurd (by rintro _ _ _ _ (_ | _) <;> cases ha) hstart
    | nudge _ hn => exact absurd (by rintro _ _ _ _ (_ | _) <;> cases hn) hstart
    | _ => exact absurd (by rintro _ _ _ _ (_ | _)) hstart

/-- A step that starts nothing leaves the list of submitted tasks alone. -/
theorem Stepped.ids_eq (h : Stepped config s a s') (hstart : a.StartsNothing) :
    s'.ids = s.ids ∧ s'.registry.nextSeq = s.registry.nextSeq := by
  cases h with
  | start hfresh hsub hlin => exact absurd hsub (hstart _ _ _ _)
  | @drive id dm dm' op hdm hturn =>
    cases op with
    | setQueued on => exact ⟨rfl, (s.registry.agree_setQueued id on).nextSeq⟩
    | setState st => exact ⟨rfl, (s.registry.agree_setState id st).nextSeq⟩
    | settle st => exact ⟨rfl, (s.registry.agree_settle config id st s.wall).nextSeq⟩
    | _ => exact ⟨rfl, rfl⟩
  | progress => exact ⟨rfl, (s.registry.agree_reportProgress config _ s.now _).nextSeq⟩
  | flush => exact ⟨rfl, (s.registry.agree_flushProgress _ s.now).nextSeq⟩
  | nudge | notifyWaiters | cancel | cancelIdle | cancelAll | resources | idle | idleStep
  | tick => exact ⟨rfl, rfl⟩

/-- Without a start, the drivers after a step are the ones before it, moved. -/
theorem Stepped.driver_of_startsNothing (h : Stepped config s a s') (hstart : a.StartsNothing)
    (hd : s'.drivers x = some d') : ∃ d, s.drivers x = some d ∧ Moved config s a x d d' := by
  rcases h.driver hd with ⟨_, hst⟩ | hm
  · cases hst with
    | mk _ hsub _ => exact absurd hsub (hstart _ _ _ _)
  · exact hm

theorem Stepped.isSome_of_startsNothing (h : Stepped config s a s') (hstart : a.StartsNothing)
    (x : TaskId) : (s'.drivers x).isSome = (s.drivers x).isSome := by
  cases hx : s.drivers x with
  | some d =>
    obtain ⟨d', hd', _⟩ := h.driver_forward hx
    rw [hd']
    rfl
  | none =>
    cases hx' : s'.drivers x with
    | none => rfl
    | some d' =>
      obtain ⟨d, hd, _⟩ := h.driver_of_startsNothing hstart hx'
      rw [hx] at hd
      cases hd

/-- An entry after a step that starts nothing was there before it, and only its
own driver has written its state. -/
theorem Stepped.entry_back {e' : Entry} (h : Stepped config s a s') (hstart : a.StartsNothing)
    (he' : s'.registry.entry x = some e') :
    ∃ e, s.registry.entry x = some e ∧ e.Keeps e' ∧
      (a ≠ .drive x → e'.info.state = e.info.state) := by
  cases h with
  | start hfresh hsub hlin => exact absurd hsub (hstart _ _ _ _)
  | @drive id dm dm' op hdm hturn =>
    obtain ⟨e, he, hk, hst⟩ := State.perform_entry he'
    refine ⟨e, he, hk, fun hne => ?_⟩
    rw [hst, if_neg (fun hx => hne (by rw [hx]))]
  | @progress id p =>
    have h' := (s.registry.reportProgress_entry config id x s.now p).symm.trans he'
    by_cases hx : x = id
    · rw [if_pos hx, Option.map_eq_some_iff] at h'
      obtain ⟨e, he, rfl⟩ := h'
      refine ⟨e, by rw [hx]; exact he, ?_, fun _ => ?_⟩ <;> split
      · exact ⟨rfl, rfl, rfl, rfl, rfl, rfl⟩
      · exact .refl e
      · rfl
      · rfl
    · rw [if_neg hx] at h'
      exact ⟨e', h', .refl e', fun _ => rfl⟩
  | @flush id =>
    have h' := (s.registry.flushProgress_entry id x s.now).symm.trans he'
    by_cases hx : x = id
    · rw [if_pos hx, Option.map_eq_some_iff] at h'
      obtain ⟨e, he, rfl⟩ := h'
      exact ⟨e, by rw [hx]; exact he, ⟨rfl, rfl, rfl, rfl, rfl, rfl⟩, fun _ => rfl⟩
    · rw [if_neg hx] at h'
      exact ⟨e', h', .refl e', fun _ => rfl⟩
  | nudge | notifyWaiters | cancel | cancelIdle | cancelAll | resources | idle | idleStep
  | tick => exact ⟨e', he', .refl e', fun _ => rfl⟩

/-- The entry and the driver of a task after a step that starts nothing. -/
theorem Stepped.entryOf_of_startsNothing {e' : Entry} (h : Stepped config s a s')
    (hwf : Wf config s) (hstart : a.StartsNothing) (he' : s'.registry.entry x = some e') :
    ∃ d', s'.drivers x = some d' ∧ EntryOf x d' e' := by
  obtain ⟨e, he, hk, hst⟩ := h.entry_back hstart he'
  obtain ⟨d, hd, ho⟩ := hwf.entry x e he
  obtain ⟨d', hd', hm⟩ := h.driver_forward hd
  have hs := hm.sameStart
  refine ⟨d', hd', ?_, ?_, ?_, ?_, ?_⟩
  · rw [hk.seq, ho.seq, hs.ticket]
  · rw [hk.id, ho.id]
  · rw [hk.parent, ho.parent, hs.token]
  · rw [hk.token, ho.token, hs.token]
  · by_cases ha : a = .drive x
    · -- its own driver's move wrote the state the new place shows
      subst ha
      obtain ⟨dm, op, dm', hdm, hturn, rfl⟩ := h.drive_inv
      rw [hd] at hdm
      cases hdm
      obtain ⟨e₁, he₁, _, hst'⟩ := State.perform_entry he'
      rw [he] at he₁
      cases he₁
      rw [State.setDriver_drivers, Function.update_self] at hd'
      cases hd'
      rw [hst', if_pos rfl]
      exact hturn.shows (hwf.ok x d hd) ho.shows
    · rw [hst ha]
      cases hm with
      | same | woken => exact ho.shows
      | turn ha' _ => exact absurd ha' ha
      | nudge hn => exact hn.shows (hwf.ok x d hd) ho.shows

section
variable {kind : TaskKind} {parent : Option TaskId} {token : CancelToken TaskId}
  {submitted : SystemTime}

/-- The drivers after a `start`: the one it adds, and those there were. -/
theorem State.started_driver_cases
    (hd : (s.started config id kind parent token submitted).drivers x = some d) :
    x = id ∧ d = .start kind (s.registry.ticket config kind parent) token ∨
      x ≠ id ∧ s.drivers x = some d := by
  by_cases hx : x = id
  · subst hx
    rw [State.started_driver] at hd
    exact .inl ⟨rfl, (Option.some.inj hd).symm⟩
  · rw [show (s.started config id kind parent token submitted).drivers x = s.drivers x from
      Function.update_of_ne hx _ _] at hd
    exact .inr ⟨hx, hd⟩

/-- A driver there was is there after a `start` of a new task. -/
theorem State.started_keeps_driver (hfresh : s.drivers id = none) (hd : s.drivers x = some d) :
    (s.started config id kind parent token submitted).drivers x = some d := by
  have hx : x ≠ id := by
    rintro rfl
    rw [hfresh] at hd
    cases hd
  exact (Function.update_of_ne hx _ _).trans hd

/-- The entry a `start` adds is its driver's, and the others stay so. -/
theorem Wf.started_entry {e : Entry} (hwf : Wf config s) (hfresh : s.drivers id = none)
    (hpar : token.parent = parent)
    (he : (s.started config id kind parent token submitted).registry.entry x = some e) :
    ∃ d, (s.started config id kind parent token submitted).drivers x = some d ∧
      EntryOf x d e := by
  have he' := (s.registry.start_entry config id x kind parent token submitted).symm.trans he
  by_cases hx : x = id
  · rw [if_pos hx] at he'
    cases he'
    subst hx
    exact ⟨_, State.started_driver .., rfl, rfl, hpar.symm, rfl, none, rfl⟩
  · rw [if_neg hx] at he'
    have hold : ∃ e₀, s.registry.entry x = some e₀ ∧ e₀.Keeps e ∧
        e.info.state = e₀.info.state := by
      split at he'
      · obtain ⟨e₀, he₀, rfl⟩ := Option.map_eq_some_iff.mp he'
        exact ⟨e₀, he₀, ⟨rfl, rfl, rfl, rfl, rfl, rfl⟩, rfl⟩
      · exact ⟨e, he', .refl e, rfl⟩
    obtain ⟨e₀, he₀, hk, hst⟩ := hold
    obtain ⟨d, hd, ho⟩ := hwf.entry x e₀ he₀
    refine ⟨d, State.started_keeps_driver hfresh hd, ?_, ?_, ?_, ?_, ?_⟩
    · rw [hk.seq, ho.seq]
    · rw [hk.id, ho.id]
    · rw [hk.parent, ho.parent]
    · rw [hk.token, ho.token]
    · rw [hst]; exact ho.shows

/-- What `start` adds fits with what there was. -/
theorem Wf.started (hwf : Wf config s) (hfresh : s.drivers id = none)
    (hlin : Lineage s id parent token) :
    Wf config (s.started config id kind parent token submitted) := by
  have hcell : token.cell = id := by cases hlin <;> rfl
  have hpar : token.parent = parent := by
    cases hlin with
    | root => rfl
    | child hp _ => rw [CancelToken.child_parent, hwf.cell _ _ hp]
  have hnew : id ∉ s.ids := by
    intro h
    have hsome := (hwf.mem_ids id).mp h
    rw [hfresh] at hsome
    cases hsome
  have hids : (s.started config id kind parent token submitted).ids = s.ids ++ [id] := rfl
  exact {
    ids_nodup := by
      refine List.nodup_append.mpr ⟨hwf.ids_nodup, List.nodup_singleton id, ?_⟩
      rintro y hy z hz rfl
      exact hnew (List.mem_singleton.mp hz ▸ hy)
    mem_ids := by
      intro x
      rw [hids, List.mem_append, List.mem_singleton, hwf.mem_ids x]
      change _ ↔ (Function.update s.drivers id _ x).isSome = true
      by_cases hx : x = id <;> simp [hx]
    ids_length := by
      rw [hids, List.length_append, hwf.ids_length]
      rfl
    seq := by
      intro x d hd
      rw [hids]
      rcases State.started_driver_cases hd with ⟨rfl, rfl⟩ | ⟨_, hd⟩
      · rw [Driver.start_ticket, show (s.registry.ticket config kind parent).seq =
          s.registry.nextSeq from rfl, ← hwf.ids_length, List.getElem?_concat_length]
      · have hseq := hwf.seq x d hd
        rw [List.getElem?_append_left (List.getElem?_eq_some_iff.mp hseq).1, hseq]
    cell := by
      intro x d hd
      rcases State.started_driver_cases hd with ⟨rfl, rfl⟩ | ⟨_, hd⟩
      · exact hcell
      · exact hwf.cell x d hd
    parent := by
      intro x d p hd hp
      rcases State.started_driver_cases hd with ⟨rfl, rfl⟩ | ⟨_, hd⟩
      · cases hlin with
        | root => cases hp
        | @child q dq hq hcalled =>
          rw [Driver.start_token, CancelToken.child_parent, hwf.cell _ _ hq] at hp
          cases hp
          exact ⟨dq, State.started_keeps_driver hfresh hq, rfl, hwf.seq_lt hq, hcalled⟩
      · obtain ⟨dp, hdp, h1, h2, h3⟩ := hwf.parent x d p hd hp
        exact ⟨dp, State.started_keeps_driver hfresh hdp, h1, h2, h3⟩
    queued := by
      intro x d hd
      rcases State.started_driver_cases hd with ⟨rfl, rfl⟩ | ⟨_, hd⟩
      · rw [Driver.start_token, hpar]
        rfl
      · exact hwf.queued x d hd
    ok := by
      intro x d hd
      rcases State.started_driver_cases hd with ⟨rfl, rfl⟩ | ⟨_, hd⟩
      · exact ⟨by simp [Driver.start, Pc.needsQueue], rfl⟩
      · exact hwf.ok x d hd
    entry := fun x e he => hwf.started_entry hfresh hpar he
    roots := hwf.roots }

end

/-- The bound on the settled roots kept is never passed. -/
theorem Stepped.roots (h : Stepped config s a s')
    (hr : s.registry.settledRoots.length ≤ config.retainedRoots) :
    s'.registry.settledRoots.length ≤ config.retainedRoots := by
  cases h with
  | @drive id dm dm' op hdm hturn =>
    cases op with
    | setQueued on => exact (s.registry.settledRoots_setQueued id on).symm ▸ hr
    | setState st => exact (s.registry.settledRoots_setState id st).symm ▸ hr
    | settle st => exact s.registry.settle_settledRoots_length config id st s.wall hr
    | _ => exact hr
  | @progress id p =>
    exact (s.registry.settledRoots_reportProgress config id s.now p).symm ▸ hr
  | @flush id => exact (s.registry.settledRoots_flushProgress id s.now).symm ▸ hr
  | _ => exact hr

/-- **One step keeps the parts of a state together.** -/
theorem Stepped.wf (h : Stepped config s a s') (hwf : Wf config s) : Wf config s' := by
  rcases h.started_or_nothing with ⟨x, hstarted⟩ | hstart
  · cases hstarted with
    | mk hfresh hsub hlin => exact hwf.started hfresh hlin
  · have hids := h.ids_eq hstart
    have hback : ∀ {x d'}, s'.drivers x = some d' →
        ∃ d, s.drivers x = some d ∧ Moved config s a x d d' :=
      h.driver_of_startsNothing hstart
    exact {
      ids_nodup := by
        rw [hids.1]
        exact hwf.ids_nodup
      mem_ids := by
        intro x
        rw [hids.1, h.isSome_of_startsNothing hstart]
        exact hwf.mem_ids x
      ids_length := by
        rw [hids.1, hids.2]
        exact hwf.ids_length
      seq := by
        intro x d' hd'
        obtain ⟨d, hd, hm⟩ := hback hd'
        rw [hids.1, hm.sameStart.ticket]
        exact hwf.seq x d hd
      cell := by
        intro x d' hd'
        obtain ⟨d, hd, hm⟩ := hback hd'
        rw [hm.sameStart.token]
        exact hwf.cell x d hd
      parent := by
        intro x d' p hd' hp
        obtain ⟨d, hd, hm⟩ := hback hd'
        rw [hm.sameStart.token] at hp
        obtain ⟨dp, hdp, h1, h2, h3⟩ := hwf.parent x d p hd hp
        obtain ⟨dp', hdp', hmp⟩ := h.driver_forward hdp
        refine ⟨dp', hdp', ?_, ?_, hmp.called (hwf.ok p dp hdp) h3⟩
        · rw [hm.sameStart.token, hmp.sameStart.token, h1]
        · rw [hm.sameStart.ticket, hmp.sameStart.ticket]
          exact h2
      queued := by
        intro x d' hd'
        obtain ⟨d, hd, hm⟩ := hback hd'
        rw [hm.sameStart.ticket, hm.sameStart.token]
        exact hwf.queued x d hd
      ok := by
        intro x d' hd'
        obtain ⟨d, hd, hm⟩ := hback hd'
        exact hm.ok (hwf.ok x d hd)
      entry := fun x e' he' => h.entryOf_of_startsNothing hwf hstart he'
      roots := h.roots hwf.roots }

theorem Reaches.wf {ok : State Output → Action Output → Prop} (h : Reaches config ok s) :
    Wf config s :=
  h.invariant (fun _ _ _ hwf _ hstep => (step_cases hstep).wf hwf) .init

/-- Only the tasks submitted so far can keep a state from being quiet. -/
theorem Wf.quiet (hwf : Wf config s) (hn : s.notifies = 0)
    (hall : ∀ x ∈ s.ids, (step config s (.drive x)).isNone = true ∧
      (step config s (.giveUp x)).isNone = true) : s.Quiet config := by
  refine ⟨fun x => ?_, hn⟩
  by_cases hx : x ∈ s.ids
  · exact ⟨Option.isNone_iff_eq_none.mp (hall x hx).1, Option.isNone_iff_eq_none.mp (hall x hx).2⟩
  · have hnone : s.drivers x = none := by
      cases hd : s.drivers x with
      | none => rfl
      | some d => exact absurd ((hwf.mem_ids x).mpr (by rw [hd]; rfl)) hx
    constructor <;> simp [step, hnone]

end FilePeeker
