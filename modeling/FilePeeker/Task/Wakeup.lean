import FilePeeker.Task.Admission
import FilePeeker.Task.Tree

/-!
# No lost wakeup

Drivers in `admit` and in `finish_children`, and callers of `idle`, register
with `changed`, look at the registry, and sleep until somebody notifies.
`Alert` is the invariant of the sleepers: whoever is registered and not woken
still has the reason to sleep that its look found, or a `notify_waiters` is on
its way (`State.NotifyPending`).

A step either wakes everyone, or keeps what is on its way on its way; and a
step after which nothing is on its way changed nothing a sleeper looked at
(`Stepped.decision_eq`, `Stepped.live_kept`).
-/

namespace FilePeeker

variable {Output : Type} {config : Config} {s s' : State Output} {id x : TaskId}
  {d d' : Driver Output} {op : Op} {a : Action Output}

/-- A `notify_waiters` is still to come: a driver's, or that of a resource
change. -/
def State.NotifyPending (s : State Output) : Prop :=
  0 < s.notifies ∨ ∃ y dy, s.drivers y = some dy ∧ dy.pc.isNotifying = true

/-- Places where the driver is registered with `changed`. -/
def Pc.listens : Pc Output → Bool
  | admitCheck | admitQueue _ | admitSleep _ | finishCheck _ | finishSleep _ => true
  | _ => false

/-- Decided to wait, and what for. -/
def Pc.waitsFor : Pc Output → Option (Option ResourceId)
  | admitQueue on | admitSleep on => some on
  | _ => none

/-- A live child whose token is cancelled: what a wait of `finish_children`
waits for. -/
structure State.CancelledChild (s : State Output) (x : TaskId) : Prop where
  parent : ∃ e, s.registry.entry x = some e ∧ e.live = true
  child : ∃ c e, s.registry.entry c = some e ∧ e.info.parent = some x ∧ e.live = true ∧
    s.isCancelled e.token = true

structure Alert (config : Config) (s : State Output) : Prop where
  registered : ∀ x d, s.drivers x = some d → d.pc.listens = true → d.notified ≠ none
  waiting : ∀ x d on, s.drivers x = some d → d.pc.waitsFor = some on → d.notified = some false →
    s.NotifyPending ∨ d.decision config s.registry = .wait on
  finish : ∀ x d joined, s.drivers x = some d → d.pc = .finishSleep joined →
    d.notified = some false → s.NotifyPending ∨ s.CancelledChild x
  idleRegistered : ∀ i ∈ s.idlers, i.pc = .check ∨ i.pc = .sleep → i.notified ≠ none
  idle : ∀ i ∈ s.idlers, i.pc = .sleep → i.notified = some false →
    s.NotifyPending ∨ ∃ y, s.registry.forest.isLive y = true

theorem Alert.init : Alert config (State.init : State Output) := by
  constructor <;> simp [State.init]

/-! ### What wakes, and what is on its way -/

/-- Nobody who listens is unwoken. -/
structure AllWoken (s : State Output) : Prop where
  drivers : ∀ x d, s.drivers x = some d → d.pc.listens = true → d.notified ≠ some false
  idlers : ∀ i ∈ s.idlers, i.notified ≠ some false

theorem wake_ne (o : Option Bool) : wake o ≠ some false := by
  cases o <;> simp [wake]

theorem State.notifyWaiters_allWoken (s : State Output) : AllWoken s.notifyWaiters := by
  constructor
  · intro x d hd _
    obtain ⟨d₀, _, rfl⟩ := Option.map_eq_some_iff.mp hd
    exact wake_ne d₀.notified
  · intro i hi
    obtain ⟨i₀, _, rfl⟩ := List.mem_map.mp hi
    exact wake_ne i₀.notified

/-- A driver about to notify notifies next. -/
theorem Turn.notify_of_isNotifying (h : Turn config s id d op d') (hn : d.pc.isNotifying = true) :
    op = .notify ∧ d'.pc.listens = false := by
  cases h with
  | pollEnded hpc | joinCancelled hpc | admitFail hpc => simp [hpc, Pc.isNotifying] at hn
  | _ =>
    rename_i hpc
    simp_all [Pc.isNotifying, Pc.listens]

theorem Turn.isNotifying_of_notify (h : Turn config s id d .notify d') :
    d.pc.isNotifying = true := by
  generalize hop : Op.notify = op at h
  cases h with
  | admitNotify hpc | leaveNotify hpc | dropNotify hpc | settleNotify hpc | unwindNotify hpc =>
    rw [hpc]
    rfl
  | _ => cases hop

theorem Nudge.isNotifying (h : Nudge s id d a d') (hn : d.pc.isNotifying = true) :
    d'.pc.isNotifying = true := by
  cases h with
  | bodyEnds => exact hn
  | giveUp hpc | runReturns hpc | runPanics hpc => simp [hpc, Pc.isNotifying] at hn

/-- **A step wakes everyone, or what was on its way still is.** -/
theorem Stepped.allWoken_or_pending (h : Stepped config s a s') :
    AllWoken s' ∨ (s.NotifyPending → s'.NotifyPending) := by
  -- a driver about to notify that is left where it is
  have hkeep : ∀ {s' : State Output}, s'.notifies = s.notifies →
      (∀ y dy, s.drivers y = some dy → dy.pc.isNotifying = true →
        ∃ dy', s'.drivers y = some dy' ∧ dy'.pc.isNotifying = true) →
      s.NotifyPending → s'.NotifyPending := by
    rintro s' hn hd (hpos | ⟨y, dy, hy, hpc⟩)
    · exact .inl (hn ▸ hpos)
    · obtain ⟨dy', hy', hpc'⟩ := hd y dy hy hpc
      exact .inr ⟨y, dy', hy', hpc'⟩
  cases h with
  | @start _ id kind parent token submitted hfresh _ _ =>
    refine .inr (hkeep rfl fun y dy hy hpc => ⟨dy, ?_, hpc⟩)
    have hne : y ≠ id := fun h => by rw [h, hfresh] at hy; cases hy
    simpa [State.started, Function.update_of_ne hne] using hy
  | notifyWaiters =>
    exact .inl ⟨s.notifyWaiters_allWoken.drivers, s.notifyWaiters_allWoken.idlers⟩
  | resources => exact .inr fun _ => .inl (Nat.succ_pos _)
  | @drive id dm dm' op hdm hturn =>
    by_cases hop : op = .notify
    · subst hop
      refine .inl ⟨fun x d hd hl => ?_, s.notifyWaiters_allWoken.idlers⟩
      rw [State.setDriver_drivers] at hd
      by_cases hx : x = id
      · subst hx
        rw [Function.update_self] at hd
        cases hd
        rw [(hturn.notify_of_isNotifying hturn.isNotifying_of_notify).2] at hl
        cases hl
      · rw [Function.update_of_ne hx] at hd
        exact s.notifyWaiters_allWoken.drivers x d hd hl
    · refine .inr (hkeep (s.perform_notifies config id dm op) fun y dy hy hpc => ?_)
      by_cases hyid : y = id
      · subst hyid
        rw [hdm] at hy
        cases hy
        exact absurd (hturn.notify_of_isNotifying hpc).1 hop
      · refine ⟨dy, ?_, hpc⟩
        rw [State.setDriver_drivers, Function.update_of_ne hyid]
        rcases s.perform_drivers config id dm op y with h | ⟨h, _⟩
        · rw [h, hy]
        · exact absurd h hop
  | @nudge _ id dm dm' hdm hn =>
    refine .inr (hkeep rfl fun y dy hy hpc => ?_)
    rw [State.setDriver_drivers]
    by_cases hyid : y = id
    · subst hyid
      rw [hdm] at hy
      cases hy
      exact ⟨dm', Function.update_self .., hn.isNotifying hpc⟩
    · exact ⟨dy, by rw [Function.update_of_ne hyid, hy], hpc⟩
  | cancel | cancelIdle | cancelAll | idle | idleStep | progress | flush | tick => exact .inr id

/-! ### What does not change while nothing is on its way -/

theorem Driver.decision_congr {reg reg' : Registry} (hres : reg'.resources = reg.resources)
    (hadm : reg'.admitted = reg.admitted) (hq : reg'.queues = reg.queues) :
    d.decision config reg' = d.decision config reg := by
  unfold Driver.decision
  generalize d.requires = requires
  induction requires with
  | nil => simp only [admission, hadm, hq]
  | cons r rest ih => simp only [admission, hres, ih]

theorem Driver.decision_agree {reg reg' : Registry} (h : AgreeOnAdmission reg reg') :
    d.decision config reg' = d.decision config reg :=
  Driver.decision_congr h.resources h.admitted h.queues

/-- A queued driver in line has its ticket in its scope's queue. -/
theorem Gated.mem_queue (hg : Gated config s) (hd : s.drivers x = some d)
    (hq : d.ticket.queued = true) (hin : d.pc.inQueue = true) :
    d.ticket.seq ∈ s.registry.queues d.ticket.scope := by
  refine (hg.keeps.queues _ _).mpr ⟨x, ?_⟩
  rw [s.gate_slip_of hd hq, Driver.standing_eq_waiting.mpr hin]

/-- A later ticket does not change the head of a line that another is in. -/
theorem Driver.decision_insert {reg reg' : Registry} {k : Scope} {n : Nat}
    (hres : reg'.resources = reg.resources) (hadm : reg'.admitted = reg.admitted)
    (hq : ∀ k', reg'.queues k' = if k' = k then insert n (reg.queues k') else reg.queues k')
    (hmem : d.ticket.queued = true → d.ticket.seq ∈ reg.queues d.ticket.scope)
    (hlt : d.ticket.seq < n) : d.decision config reg' = d.decision config reg := by
  have hmin : d.ticket.queued = true →
      (reg'.queues d.ticket.scope).min = (reg.queues d.ticket.scope).min := by
    intro hqueued
    rw [hq]
    split
    · rw [Finset.min_insert]
      have hle := Finset.min_le (hmem hqueued)
      exact min_eq_right (le_trans hle (by exact_mod_cast hlt.le))
    · rfl
  unfold Driver.decision
  generalize d.requires = requires
  induction requires with
  | nil =>
    simp only [admission, hadm]
    unfold Ticket.cap
    cases hqueued : d.ticket.queued with
    | false => rfl
    | true => simp only [if_true, hmin hqueued]
  | cons r rest ih => simp only [admission, hres, ih]

/-- **While no notification is on its way, decisions stay as they are.** -/
theorem Stepped.decision_eq (h : Stepped config s a s') (hwf : Wf config s)
    (hg : Gated config s) (hnp : ¬s'.NotifyPending) (hd : s.drivers x = some d)
    (hin : d.pc.inQueue = true) :
    d.decision config s'.registry = d.decision config s.registry := by
  cases h with
  | @start _ id kind parent token submitted hfresh hsub hlin =>
    have hqueues := s.registry.start_queues config id kind parent token submitted
    cases hq : (s.registry.ticket config kind parent).queued with
    | false =>
      refine Driver.decision_congr rfl rfl (funext fun k => (hqueues k).trans ?_)
      rw [if_neg (by simp [hq])]
    | true =>
      refine Driver.decision_insert (k := (s.registry.ticket config kind parent).scope) rfl rfl
        (fun k => (hqueues k).trans ?_) (fun hqueued => hg.mem_queue hd hqueued hin)
        (hwf.seq_lt hd)
      simp only [hq, true_and]
  | resources => exact absurd (.inl (Nat.succ_pos _)) hnp
  | @drive id dm dm' op hdm hturn =>
    by_cases hop : op ≠ .admitTicket ∧ op ≠ .leave ∧ op ≠ .release
    · exact Driver.decision_agree (s.perform_agree config id dm hop).1
    · -- the three moves that change what a decision reads notify next
      refine absurd (.inr ⟨id, dm', by simp, ?_⟩) hnp
      cases hturn <;> first | rfl | simp at hop
  | progress => exact Driver.decision_agree (s.registry.agree_reportProgress config _ s.now _)
  | flush => exact Driver.decision_agree (s.registry.agree_flushProgress _ s.now)
  | cancel | cancelIdle | cancelAll | notifyWaiters | idle | idleStep | nudge | tick => rfl

/-- **While no notification is on its way, what is live stays live.** -/
theorem Stepped.live_kept {e : Entry} (h : Stepped config s a s') (hwf : Wf config s)
    (hnp : ¬s'.NotifyPending) (he : s.registry.entry x = some e) (hl : e.live = true) :
    ∃ e', s'.registry.entry x = some e' ∧ e'.info.parent = e.info.parent ∧ e'.live = true ∧
      e'.token = e.token := by
  have hf := Registry.forest_of_entry he
  obtain ⟨d, hd, ho⟩ := hwf.entry x e he
  -- the token is the driver's, before and after
  have htoken : ∀ e', s'.registry.entry x = some e' → e'.token = e.token := by
    intro e' he'
    obtain ⟨d', hd', hm⟩ := h.driver_forward hd
    rw [((h.wf hwf).entryOf he' hd').token, hm.sameStart.token, ho.token]
  -- a settling notifies next
  have hsettle : ∀ {id}, (∃ d' o, s'.drivers id = some d' ∧ d'.pc = .settleNotify o) → False := by
    rintro id ⟨d', o, hd', hpc⟩
    exact hnp (.inr ⟨id, d', hd', by rw [hpc]; rfl⟩)
  cases h.forest hwf with
  | same hsame hr =>
    rw [← hsame] at hf
    obtain ⟨e', he', hnode⟩ := Registry.forest_inv hf
    exact ⟨e', he', congrArg Node.parent hnode, (congrArg Node.live hnode).trans hl, htoken e' he'⟩
  | @start id kind parent token submitted hfresh hsub hlin hadd hr =>
    have hne : x ≠ id := by
      rintro rfl
      rw [hfresh] at hd
      cases hd
    have hf' : ∃ n, s'.registry.forest x = some n ∧ n.parent = e.info.parent ∧ n.live = true := by
      rw [hadd, Forest.add_of_ne parent hne, hf]
      split
      · exact ⟨_, rfl, rfl, hl⟩
      · exact ⟨_, rfl, rfl, hl⟩
    obtain ⟨n, hn, hp, hlive⟩ := hf'
    obtain ⟨e', he', rfl⟩ := Registry.forest_inv hn
    exact ⟨e', he', hp, hlive, htoken e' he'⟩
  | settleChild ha hd hd' | settleRoot ha hd hd' | evict ha hd hd' => exact (hsettle hd').elim

theorem Stepped.cancelledChild_kept (h : Stepped config s a s') (hwf : Wf config s)
    (hnp : ¬s'.NotifyPending) (hc : s.CancelledChild x) : s'.CancelledChild x := by
  obtain ⟨⟨ex, hex, hlx⟩, c, e, he, hp, hl, hcan⟩ := hc
  obtain ⟨ex', hex', _, hlx', _⟩ := h.live_kept hwf hnp hex hlx
  obtain ⟨e', he', hp', hl', ht'⟩ := h.live_kept hwf hnp he hl
  exact ⟨⟨ex', hex', hlx'⟩, c, e', he', hp'.trans hp, hl', by rw [ht']; exact h.isCancelled hcan⟩

/-! ### One step -/

/-- A driver that listens after its move registered in it, or listened before. -/
theorem Turn.listens (h : Turn config s id d op d') (hl : d'.pc.listens = true) :
    d'.notified = some false ∨ (d.pc.listens = true ∧ d'.notified = d.notified) := by
  cases h with
  | admitEnable | finishEnable => exact .inl rfl
  | admitWait hpc | admitQueue hpc | finishWait hpc => exact .inr ⟨by simp [hpc, Pc.listens], rfl⟩
  | admitFail =>
    unfold Driver.refuse at hl
    cases hq : d.ticket.queued <;> simp [hq, Pc.listens] at hl
  | pollEnded | joinCancelled =>
    unfold Driver.join at hl
    cases hq : d.ticket.queued <;> simp [hq, Pc.listens] at hl
  | _ => simp [Pc.listens] at hl

theorem Nudge.listens (h : Nudge s id d a d') (hl : d'.pc.listens = true) :
    d.pc.listens = true ∧ d'.notified = d.notified ∧ d'.pc = d.pc := by
  cases h with
  | bodyEnds => exact ⟨hl, rfl, rfl⟩
  | giveUp =>
    unfold Driver.refuse at hl
    cases hq : d.ticket.queued <;> simp [hq, Pc.listens] at hl
  | runPanics => cases hq : d.ticket.queued <;> simp [hq, Pc.listens] at hl
  | runReturns => simp [Pc.listens] at hl

theorem wake_ne_none {o : Option Bool} (h : o ≠ none) : wake o ≠ none := by
  cases o <;> simp_all [wake]

theorem Stepped.alert_registered (h : Stepped config s a s') (hal : Alert config s)
    (hd' : s'.drivers x = some d') (hl : d'.pc.listens = true) : d'.notified ≠ none := by
  rcases h.driver hd' with ⟨_, hstart⟩ | ⟨d, hd, hm⟩
  · cases hstart with
    | mk =>
      rw [State.started_driver] at hd'
      cases hd'
      cases hl
  · cases hm with
    | same => exact hal.registered x d' hd hl
    | woken => exact wake_ne_none (hal.registered x d hd hl)
    | turn _ hturn =>
      rcases hturn.listens hl with hn | ⟨hl₀, hn⟩
      · rw [hn]; simp
      · rw [hn]; exact hal.registered x d hd hl₀
    | nudge hn =>
      obtain ⟨hl₀, hnot, _⟩ := hn.listens hl
      rw [hnot]
      exact hal.registered x d hd hl₀

/-- How a driver comes to wait for admission, unwoken: it did before, or its
check has just decided so. -/
theorem Turn.waitsFor {on : Option ResourceId} (h : Turn config s id d op d')
    (hw : d'.pc.waitsFor = some on) : d'.notified = d.notified ∧
    (d.pc.waitsFor = some on ∨
      (d.pc = .admitCheck ∧ d.decision config s.registry = .wait on)) := by
  cases h with
  | admitWait hpc hadm => exact ⟨rfl, .inr ⟨hpc, by rw [hadm]; simpa [Pc.waitsFor] using hw⟩⟩
  | admitQueue hpc => exact ⟨rfl, .inl (by rw [hpc]; exact hw)⟩
  | admitFail =>
    unfold Driver.refuse at hw
    cases hq : d.ticket.queued <;> simp [hq, Pc.waitsFor] at hw
  | pollEnded | joinCancelled =>
    unfold Driver.join at hw
    cases hq : d.ticket.queued <;> simp [hq, Pc.waitsFor] at hw
  | _ => simp [Pc.waitsFor] at hw

theorem Pc.listens_of_waitsFor {pc : Pc Output} {on : Option ResourceId}
    (h : pc.waitsFor = some on) : pc.listens = true ∧ pc.inQueue = true := by
  cases pc <;> simp_all [Pc.waitsFor, Pc.listens, Pc.inQueue, Pc.inAdmit]

theorem Stepped.alert_admit {on : Option ResourceId} (h : Stepped config s a s')
    (hwf : Wf config s) (hg : Gated config s) (hal : Alert config s)
    (hd' : s'.drivers x = some d') (hw : d'.pc.waitsFor = some on)
    (hn : d'.notified = some false) :
    s'.NotifyPending ∨ d'.decision config s'.registry = .wait on := by
  by_cases hnp : s'.NotifyPending
  · exact .inl hnp
  refine .inr ?_
  have hpend : ¬s.NotifyPending := by
    rcases h.allWoken_or_pending with hall | hkeep
    · exact absurd hn (hall.drivers x d' hd' (Pc.listens_of_waitsFor hw).1)
    · exact fun hp => hnp (hkeep hp)
  rcases h.driver hd' with ⟨_, hstart⟩ | ⟨d, hd, hm⟩
  · cases hstart with
    | mk =>
      rw [State.started_driver] at hd'
      cases hd'
      cases hw
  -- one that waited before waits for the same
  have hbefore : d.pc.waitsFor = some on → d.notified = some false →
      d'.decision config s'.registry = .wait on := by
    intro hw₀ hn₀
    have hdec := (hal.waiting x d on hd hw₀ hn₀).resolve_left hpend
    rw [← hdec, ← h.decision_eq hwf hg hnp hd (Pc.listens_of_waitsFor hw₀).2]
    unfold Driver.decision
    rw [hm.sameStart.requires, hm.sameStart.ticket]
  cases hm with
  | same => exact hbefore hw hn
  | woken => exact absurd hn (wake_ne d.notified)
  | nudge hnudge =>
    obtain ⟨_, hnot, hpc⟩ := hnudge.listens (Pc.listens_of_waitsFor hw).1
    exact hbefore (hpc ▸ hw) (hnot ▸ hn)
  | turn ha hturn =>
    obtain ⟨hnot, hw₀ | ⟨hpc, hdec⟩⟩ := hturn.waitsFor hw
    · exact hbefore hw₀ (hnot ▸ hn)
    · rw [← hdec, ← h.decision_eq hwf hg hnp hd (by rw [hpc]; rfl)]
      unfold Driver.decision
      rw [hturn.sameStart.requires, hturn.sameStart.ticket]

/-- A driver that goes to sleep in `finish_children` has cancelled a live child. -/
theorem Turn.cancelledChild {joined : Joined Output} (h : Turn config s id d op d')
    (hwf : Wf config s) (ht : Tree s) (hd : s.drivers id = some d)
    (hpc : d'.pc = .finishSleep joined) : d'.notified = d.notified ∧
    ((s.perform config id d op).setDriver id d').CancelledChild id := by
  cases h with
  | @finishWait joined e hpc₀ he hl =>
    refine ⟨rfl, ?_⟩
    obtain ⟨c, hc, hlive⟩ := ht.ok.exists_live (Registry.forest_of_entry he) hl
    obtain ⟨ec, hec, hp⟩ :=
      Registry.forest_isChild.mp (ht.ok.child id _ c (Registry.forest_of_entry he) hc)
    rw [Registry.forest_isLive, hec] at hlive
    refine ⟨⟨e, he, ?_⟩, c, ec, hec, hp, hlive, CancelToken.isCancelled_of_mem ?_⟩
    · rw [(hwf.entryOf he hd).live, hpc₀]
      rfl
    exact List.mem_append_right _ (Registry.mem_liveChildTokens he hc hec hlive)
  | pollEnded | joinCancelled =>
    unfold Driver.join at hpc
    cases hq : d.ticket.queued <;> simp [hq] at hpc
  | admitFail =>
    unfold Driver.refuse at hpc
    cases hq : d.ticket.queued <;> simp [hq] at hpc
  | _ => simp at hpc

theorem Stepped.alert_finish {joined : Joined Output} (h : Stepped config s a s')
    (hwf : Wf config s) (ht : Tree s) (hal : Alert config s) (hd' : s'.drivers x = some d')
    (hpc : d'.pc = .finishSleep joined) (hn : d'.notified = some false) :
    s'.NotifyPending ∨ s'.CancelledChild x := by
  by_cases hnp : s'.NotifyPending
  · exact .inl hnp
  refine .inr ?_
  have hl : d'.pc.listens = true := by rw [hpc]; rfl
  have hpend : ¬s.NotifyPending := by
    rcases h.allWoken_or_pending with hall | hkeep
    · exact absurd hn (hall.drivers x d' hd' hl)
    · exact fun hp => hnp (hkeep hp)
  rcases h.driver hd' with ⟨_, hstart⟩ | ⟨d, hd, hm⟩
  · cases hstart with
    | mk =>
      rw [State.started_driver] at hd'
      cases hd'
      cases hpc
  have hbefore : d.pc = .finishSleep joined → d.notified = some false → s'.CancelledChild x :=
    fun hpc₀ hn₀ =>
      h.cancelledChild_kept hwf hnp ((hal.finish x d joined hd hpc₀ hn₀).resolve_left hpend)
  cases hm with
  | same => exact hbefore hpc hn
  | woken => exact absurd hn (wake_ne d.notified)
  | nudge hnudge =>
    obtain ⟨_, hnot, hpc₀⟩ := hnudge.listens hl
    exact hbefore (hpc₀ ▸ hpc) (hnot ▸ hn)
  | turn ha hturn =>
    subst ha
    obtain ⟨d₁, op₁, d₁', hd₁, hturn₁, rfl⟩ := h.drive_inv
    rw [hd] at hd₁
    cases hd₁
    rw [State.setDriver_drivers, Function.update_self] at hd'
    cases hd'
    exact (hturn₁.cancelledChild hwf ht hd hpc).2

/-- What a step of a caller of `idle` leaves. -/
theorem Stepped.idler {i : Idler} (h : Stepped config s a s') (hi : i ∈ s'.idlers) :
    i ∈ s.idlers ∨ (∃ i₀ ∈ s.idlers, i = i₀.wake) ∨ i = ⟨none, .enable⟩ ∨
      (s'.registry = s.registry ∧ ∃ i₀ ∈ s.idlers, i₀.step s.registry = some i) := by
  cases h with
  | notifyWaiters =>
    obtain ⟨i₀, hi₀, rfl⟩ := List.mem_map.mp hi
    exact .inr (.inl ⟨i₀, hi₀, rfl⟩)
  | @drive id dm dm' op hdm hturn =>
    cases op with
    | notify =>
      obtain ⟨i₀, hi₀, rfl⟩ := List.mem_map.mp hi
      exact .inr (.inl ⟨i₀, hi₀, rfl⟩)
    | _ => exact .inl hi
  | idle =>
    rcases List.mem_append.mp hi with hi | hi
    · exact .inl hi
    · exact .inr (.inr (.inl (List.mem_singleton.mp hi)))
  | @idleStep index i₀ i' hi₀ hi' =>
    rcases List.mem_or_eq_of_mem_set hi with hi | rfl
    · exact .inl hi
    · exact .inr (.inr (.inr ⟨rfl, i₀, List.mem_of_getElem? hi₀, hi'⟩))
  | _ => exact .inl hi

theorem Registry.busy_iff {reg : Registry} :
    reg.busy = true ↔ ∃ y, reg.forest.isLive y = true := by
  unfold Registry.busy
  rw [List.any_eq_true]
  constructor
  · rintro ⟨e, hmem, hl⟩
    obtain ⟨y, hy⟩ := Table.mem_values.mp hmem
    exact ⟨y, by rw [Registry.forest_isLive, Registry.entry, hy]; exact hl⟩
  · rintro ⟨y, hy⟩
    rw [Registry.forest_isLive] at hy
    obtain ⟨e, he, hl⟩ := (Option.any_eq_true ..).mp hy
    exact ⟨e, Table.mem_values.mpr ⟨y, he⟩, hl⟩

theorem Stepped.alert_idleRegistered {i : Idler} (h : Stepped config s a s')
    (hal : Alert config s) (hi : i ∈ s'.idlers) (hpc : i.pc = .check ∨ i.pc = .sleep) :
    i.notified ≠ none := by
  rcases h.idler hi with hi | ⟨i₀, hi₀, rfl⟩ | rfl | ⟨_, i₀, hi₀, hstep⟩
  · exact hal.idleRegistered i hi hpc
  · exact wake_ne_none (hal.idleRegistered i₀ hi₀ hpc)
  · simp at hpc
  · unfold Idler.step at hstep
    split at hstep
    · cases hstep; simp
    · rename_i hcheck
      split at hstep
      · cases hstep
        exact hal.idleRegistered i₀ hi₀ (.inl hcheck)
      · cases hstep; simp at hpc
    · split at hstep
      · cases hstep; simp at hpc
      · cases hstep
    · cases hstep

theorem Stepped.alert_idle {i : Idler} (h : Stepped config s a s') (hwf : Wf config s)
    (hal : Alert config s) (hi : i ∈ s'.idlers) (hpc : i.pc = .sleep)
    (hn : i.notified = some false) :
    s'.NotifyPending ∨ ∃ y, s'.registry.forest.isLive y = true := by
  by_cases hnp : s'.NotifyPending
  · exact .inl hnp
  refine .inr ?_
  have hpend : ¬s.NotifyPending := by
    rcases h.allWoken_or_pending with hall | hkeep
    · exact absurd hn (hall.idlers i hi)
    · exact fun hp => hnp (hkeep hp)
  have hkept : (∃ y, s.registry.forest.isLive y = true) →
      ∃ y, s'.registry.forest.isLive y = true := by
    rintro ⟨y, hy⟩
    rw [Registry.forest_isLive] at hy
    obtain ⟨e, he, hl⟩ := (Option.any_eq_true ..).mp hy
    obtain ⟨e', he', _, hl', _⟩ := h.live_kept hwf hnp he hl
    exact ⟨y, by rw [Registry.forest_isLive, he']; exact hl'⟩
  rcases h.idler hi with hi | ⟨i₀, hi₀, rfl⟩ | rfl | ⟨hreg, i₀, hi₀, hstep⟩
  · exact hkept ((hal.idle i hi hpc hn).resolve_left hpend)
  · exact absurd hn (wake_ne i₀.notified)
  · cases hpc
  · rw [hreg]
    unfold Idler.step at hstep
    split at hstep
    · cases hstep; cases hpc
    · split at hstep
      · exact Registry.busy_iff.mp ‹_›
      · cases hstep; cases hpc
    · split at hstep
      · cases hstep; cases hpc
      · cases hstep
    · cases hstep

/-- **One step keeps the sleepers' reasons.** -/
theorem Stepped.alert (h : Stepped config s a s') (hwf : Wf config s) (ht : Tree s)
    (hg : Gated config s) (hal : Alert config s) : Alert config s' where
  registered _ _ hd hl := h.alert_registered hal hd hl
  waiting _ _ _ hd hw hn := h.alert_admit hwf hg hal hd hw hn
  finish _ _ _ hd hpc hn := h.alert_finish hwf ht hal hd hpc hn
  idleRegistered _ hi hpc := h.alert_idleRegistered hal hi hpc
  idle _ hi hpc hn := h.alert_idle hwf hal hi hpc hn

theorem Reaches.alert {ok : State Output → Action Output → Prop} (h : Reaches config ok s) :
    Alert config s :=
  h.invariant_from .init fun _ _ _ hreach hal _ hstep =>
    (step_cases hstep).alert (Reaches.wf hreach) (Reaches.tree hreach) (Reaches.gated hreach) hal

/-! ### Quiet states -/

/-- In a quiet state nothing is on its way. -/
theorem State.Quiet.not_pending (hq : s.Quiet config) : ¬s.NotifyPending := by
  rintro (hpos | ⟨y, dy, hy, hpc⟩)
  · exact absurd hq.notifies (by omega)
  · rcases (hq.stuck y).cases hy with ⟨_, h, _⟩ | h | ⟨h, _⟩ | ⟨h, _⟩ | ⟨_, h, _⟩ | ⟨_, h⟩ | h <;>
      simp [h, Pc.isNotifying] at hpc

/-- Where a driver sleeps in a quiet state it has not been woken. -/
theorem Alert.unwoken (hal : Alert config s) (hd : s.drivers x = some d)
    (hl : d.pc.listens = true) (hn : d.notified ≠ some true) : d.notified = some false := by
  have := hal.registered x d hd hl
  cases hnot : d.notified with
  | none => exact absurd hnot this
  | some b => cases b <;> simp_all

/-- Whoever sleeps in a quiet state has not been woken. -/
theorem State.Quiet.not_woken (hq : s.Quiet config) (hd : s.drivers x = some d)
    (hpc : d.pc.waitsFor ≠ none ∨ ∃ joined, d.pc = .finishSleep joined) :
    d.notified ≠ some true := by
  rcases (hq.stuck x).cases hd with ⟨_, _, hn, _⟩ | h | ⟨h, _⟩ | ⟨h, _⟩ | ⟨_, _, hn⟩ | ⟨_, h⟩ | h
  · exact hn
  · simp [h, Pc.waitsFor] at hpc
  · simp [h, Pc.waitsFor] at hpc
  · simp [h, Pc.waitsFor] at hpc
  · exact hn
  · simp [h, Pc.waitsFor] at hpc
  · simp [h, Pc.waitsFor] at hpc

/-- At rest, who sleeps in `admit` would decide the same again. -/
theorem Alert.decision_at_rest (hal : Alert config s) (hq : s.Quiet config)
    {on : Option ResourceId} (hd : s.drivers x = some d) (hpc : d.pc = .admitSleep on) :
    d.decision config s.registry = .wait on := by
  have hw : d.pc.waitsFor = some on := by rw [hpc]; rfl
  have hn := hal.unwoken hd (Pc.listens_of_waitsFor hw).1 (hq.not_woken hd (.inl (by simp [hw])))
  exact (hal.waiting x d on hd hw hn).resolve_left hq.not_pending

/-- At rest, who sleeps in `finish_children` has a live child it cancelled. -/
theorem Alert.child_at_rest (hal : Alert config s) (hq : s.Quiet config) {joined : Joined Output}
    (hd : s.drivers x = some d) (hpc : d.pc = .finishSleep joined) : s.CancelledChild x := by
  have hl : d.pc.listens = true := by rw [hpc]; rfl
  have hn := hal.unwoken hd hl (hq.not_woken hd (.inr ⟨joined, hpc⟩))
  exact (hal.finish x d joined hd hpc hn).resolve_left hq.not_pending

/-- At rest, who sleeps in `idle` has a live task to wait for. -/
theorem Alert.live_at_rest (hal : Alert config s) (hq : s.Quiet config) {i : Idler}
    (hi : i ∈ s.idlers) (hpc : i.pc = .sleep) (hstep : i.step s.registry = none) :
    ∃ y e, s.registry.entry y = some e ∧ e.live = true := by
  have hn : i.notified = some false := by
    have := hal.idleRegistered i hi (.inr hpc)
    unfold Idler.step at hstep
    simp only [hpc] at hstep
    split at hstep
    · cases hstep
    · cases hnot : i.notified with
      | none => exact absurd hnot this
      | some b => cases b <;> simp_all
  obtain ⟨y, hy⟩ := (hal.idle i hi hpc hn).resolve_left hq.not_pending
  rw [Registry.forest_isLive] at hy
  obtain ⟨e, he, hl⟩ := (Option.any_eq_true ..).mp hy
  exact ⟨y, e, he, hl⟩

/-- **No lost wakeup.**  In every state of every run where no driver has a next
move and no notification is on its way: whoever sleeps in `admit` would decide
the same again, to wait for what its `TaskInfo` says; whoever sleeps in
`finish_children` has a live child; and whoever sleeps in `idle` has a task to
wait for. -/
theorem sleepers_have_reason (h : Reaches config anyRun s) (hq : s.Quiet config) :
    (∀ x d on, s.drivers x = some d → d.pc = .admitSleep on →
      d.decision config s.registry = .wait on ∧
      ∀ e, s.registry.entry x = some e → e.info.state = .queued on) ∧
    (∀ x d joined, s.drivers x = some d → d.pc = .finishSleep joined →
      ∃ e, s.registry.entry x = some e ∧ 0 < e.liveChildren) ∧
    (∀ i ∈ s.idlers, i.pc = .sleep → i.step s.registry = none →
      ∃ y e, s.registry.entry y = some e ∧ e.info.state.isTerminal = false) := by
  have hal := h.alert
  refine ⟨?_, ?_, ?_⟩
  · intro x d on hd hpc
    refine ⟨hal.decision_at_rest hq hd hpc, fun e he => ?_⟩
    have hs := (h.wf.entryOf he hd).shows
    rw [hpc] at hs
    exact hs
  · intro x d joined hd hpc
    obtain ⟨⟨ex, hex, _⟩, c, e, he, hp, hlive, _⟩ := hal.child_at_rest hq hd hpc
    refine ⟨ex, hex, h.tree.ok.liveChildren_pos (Registry.forest_isChild.mpr ⟨e, he, hp⟩) ?_
      (Registry.forest_of_entry hex)⟩
    rw [Registry.forest_isLive, he]
    exact hlive
  · intro i hi hpc hstep
    obtain ⟨y, e, he, hl⟩ := hal.live_at_rest hq hi hpc hstep
    exact ⟨y, e, he, by simpa [Entry.live] using hl⟩

/-- A background root runs, a second one waits for its place, and a caller of
`idle` for both. -/
def placeTaken : State Nat :=
  State.init.run .default anyRun
    [.submit ⟨1⟩ (plainKind .background) 0, .submit ⟨2⟩ (plainKind .background) 0, .drive ⟨1⟩,
      .drive ⟨1⟩, .drive ⟨1⟩, .drive ⟨1⟩, .runReturns ⟨1⟩, .drive ⟨1⟩, .drive ⟨1⟩, .drive ⟨2⟩,
      .drive ⟨2⟩, .drive ⟨2⟩, .idle, .idleStep 0, .idleStep 0]

theorem second_sleeper_has_reason :
    (∃ d, placeTaken.drivers ⟨2⟩ = some d ∧
      d.decision .default placeTaken.registry = .wait none) ∧
    ∃ y e, placeTaken.registry.entry y = some e ∧ e.info.state.isTerminal = false := by
  have hr : Reaches .default anyRun placeTaken := State.steps_run _ _ _ _
  have hq : placeTaken.Quiet .default := hr.wf.quiet (by decide) (by decide)
  obtain ⟨hline, _, hidle⟩ := sleepers_have_reason hr hq
  refine ⟨⟨(placeTaken.drivers ⟨2⟩).get (by decide), by simp, ?_⟩, ?_⟩
  · exact (hline ⟨2⟩ _ none (by simp) (by decide)).1
  · exact hidle ⟨some false, .sleep⟩ (by decide) rfl (by decide)

end FilePeeker
