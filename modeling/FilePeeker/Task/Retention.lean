import FilePeeker.Task.Family

/-!
# Retention

Every task settles at most once (`Settled`), and of the roots that have settled
the registry keeps the last ones, as many as the policy says, each with every
task that was ever submitted beneath it.  Roots that have not settled are kept
the same way, and nothing else is.
-/

namespace FilePeeker

variable {Output : Type} {config : Config} {s s' : State Output} {id x y : TaskId}
  {d d' : Driver Output} {op : Op} {a : Action Output}

/-! ### Settling once -/

/-- The driver is past the lock section of its `settle`. -/
def State.HasSettled (s : State Output) (x : TaskId) : Prop :=
  ∃ d o, s.drivers x = some d ∧ d.pc.settled = some o

/-- The tasks that settled, each once. -/
structure Settled (s : State Output) : Prop where
  nodup : s.settles.Nodup
  mem : ∀ x, x ∈ s.settles ↔ s.HasSettled x

theorem Settled.init : Settled (State.init : State Output) :=
  ⟨List.nodup_nil, by simp [State.init, State.HasSettled]⟩

/-- The lock section of `settle`, run by a driver that has not settled, is the
only way to settle. -/
theorem Turn.settles (h : Turn config s id d op d') :
    (d'.pc.settled = d.pc.settled ∧ (s.perform config id d op).settles = s.settles) ∨
    (d.pc.settled = none ∧ (∃ o, d'.pc.settled = some o) ∧
      (s.perform config id d op).settles = s.settles ++ [id]) := by
  cases h with
  | settle hpc he => exact .inr ⟨by simp [hpc, Pc.settled], ⟨_, rfl⟩, rfl⟩
  | settleGone hpc he => exact .inr ⟨by simp [hpc, Pc.settled], ⟨_, rfl⟩, rfl⟩
  | pollEnded hpc | joinCancelled hpc =>
    refine .inl ⟨?_, rfl⟩
    unfold Driver.join
    cases hq : d.ticket.queued <;> simp [hpc, Pc.settled]
  | admitFail hpc =>
    refine .inl ⟨?_, rfl⟩
    unfold Driver.refuse
    cases hq : d.ticket.queued <;> simp [hpc, Pc.settled]
  | _ =>
    rename_i hpc
    exact .inl ⟨by simp_all [Pc.settled], rfl⟩

theorem Nudge.settled (h : Nudge s id d a d') : d'.pc.settled = d.pc.settled := by
  cases h with
  | giveUp hpc =>
    unfold Driver.refuse
    cases hq : d.ticket.queued <;> simp [hpc, Pc.settled]
  | runReturns hpc => simp [hpc, Pc.settled]
  | runPanics hpc => cases hq : d.ticket.queued <;> simp [hpc, Pc.settled]
  | bodyEnds => rfl

/-- The step is the settling of this task. -/
structure SettleStep (s s' : State Output) (id : TaskId) : Prop where
  before : ¬s.HasSettled id
  after : s'.HasSettled id
  others : ∀ x, x ≠ id → (s'.HasSettled x ↔ s.HasSettled x)
  settles : s'.settles = s.settles ++ [id]

theorem State.hasSettled_iff (hd : s.drivers x = some d) :
    s.HasSettled x ↔ d.pc.settled ≠ none := by
  constructor
  · rintro ⟨d₀, o, hd₀, ho⟩
    rw [hd] at hd₀
    cases hd₀
    rw [ho]
    simp
  · intro h
    obtain ⟨o, ho⟩ := Option.ne_none_iff_exists'.mp h
    exact ⟨d, o, hd, ho⟩

/-- **A step settles one task or none.** -/
theorem Stepped.settleStep (h : Stepped config s a s') :
    (s'.settles = s.settles ∧ ∀ x, s'.HasSettled x ↔ s.HasSettled x) ∨
    ∃ id, a = .drive id ∧ SettleStep s s' id := by
  -- tasks whose driver is woken, or left alone
  have hwoken : ∀ {s' : State Output} {x}, (s'.drivers x = s.drivers x ∨
      s'.drivers x = (s.drivers x).map Driver.wake) → (s'.HasSettled x ↔ s.HasSettled x) := by
    intro s' x hx
    unfold State.HasSettled
    rcases hx with hx | hx
    · rw [hx]
    · rw [hx]
      cases s.drivers x <;> simp
  cases h with
  | @start _ id kind parent token submitted hfresh _ _ =>
    refine .inl ⟨rfl, fun x => ?_⟩
    by_cases hx : x = id
    · subst hx
      constructor
      · rintro ⟨d, o, hd, ho⟩
        rw [State.started_driver] at hd
        cases hd
        cases ho
      · rintro ⟨d, o, hd, ho⟩
        rw [hfresh] at hd
        cases hd
    · exact hwoken (.inl (Function.update_of_ne hx _ _))
  | notifyWaiters => exact .inl ⟨rfl, fun x => hwoken (.inr rfl)⟩
  | @drive id dm dm' op hdm hturn =>
    have hothers : ∀ x, x ≠ id →
        (((s.perform config id dm op).setDriver id dm').HasSettled x ↔ s.HasSettled x) := by
      intro x hx
      refine hwoken ?_
      rw [State.setDriver_drivers, Function.update_of_ne hx]
      exact (s.perform_drivers config id dm op x).imp_right And.right
    have hself : ((s.perform config id dm op).setDriver id dm').drivers id = some dm' := by simp
    rcases hturn.settles with ⟨hsame, hset⟩ | ⟨hnone, ⟨o, ho⟩, hset⟩
    · refine .inl ⟨hset, fun x => ?_⟩
      by_cases hx : x = id
      · subst hx
        rw [State.hasSettled_iff hself, State.hasSettled_iff hdm, hsame]
      · exact hothers x hx
    · refine .inr ⟨id, rfl, ?_, ⟨dm', o, hself, ho⟩, hothers, hset⟩
      rw [State.hasSettled_iff hdm, hnone]
      simp
  | @nudge _ id dm dm' hdm hn =>
    refine .inl ⟨rfl, fun x => ?_⟩
    by_cases hx : x = id
    · subst hx
      rw [State.hasSettled_iff hdm, State.hasSettled_iff (d := dm') (by simp), hn.settled]
    · exact hwoken (.inl (by rw [State.setDriver_drivers, Function.update_of_ne hx]))
  | cancel | cancelIdle | cancelAll | resources | idle | idleStep | progress | flush | tick =>
    exact .inl ⟨rfl, fun x => Iff.rfl⟩

theorem Stepped.settledOnce (h : Stepped config s a s') (hset : Settled s) : Settled s' := by
  rcases h.settleStep with ⟨hsame, hiff⟩ | ⟨id, _, hbefore, hafter, hothers, hsettles⟩
  · exact ⟨by rw [hsame]; exact hset.nodup, fun x => by rw [hsame, hiff, hset.mem]⟩
  · have hnew : id ∉ s.settles := fun hmem => hbefore ((hset.mem id).mp hmem)
    refine ⟨?_, fun x => ?_⟩
    · rw [hsettles]
      exact List.nodup_append.mpr ⟨hset.nodup, List.nodup_singleton id, fun y hy z hz hyz =>
        hnew (by rw [← List.mem_singleton.mp hz, ← hyz]; exact hy)⟩
    · rw [hsettles, List.mem_append, List.mem_singleton, hset.mem]
      by_cases hx : x = id
      · subst hx
        exact ⟨fun _ => hafter, fun _ => .inr rfl⟩
      · rw [hothers x hx]
        simp [hx]

/-- **A task settles at most once.** -/
theorem Reaches.settled {ok : State Output → Action Output → Prop} (h : Reaches config ok s) :
    Settled s :=
  h.invariant (fun _ _ _ hset _ hstep => (step_cases hstep).settledOnce hset) .init

/-! ### The roots kept -/

/-- The roots that have settled, in the order of their `settle` lock sections. -/
def State.rootSettles (s : State Output) : List TaskId :=
  s.settles.filter fun x => (s.drivers x).any fun d => d.token.parent.isNone

/-- The last `n` of a list. -/
def lastOf (n : Nat) (l : List TaskId) : List TaskId := l.drop (l.length - n)

theorem lastOf_length (n : Nat) (l : List TaskId) : (lastOf n l).length = min n l.length := by
  rw [lastOf, List.length_drop]
  omega

theorem lastOf_push_of_lt {n : Nat} {l : List TaskId} (h : (lastOf n l).length + 1 ≤ n)
    (i : TaskId) : lastOf n (l ++ [i]) = lastOf n l ++ [i] := by
  rw [lastOf_length] at h
  have h1 : l.length - n = 0 := by omega
  have h2 : (l ++ [i]).length - n = 0 := by rw [List.length_append, List.length_singleton]; omega
  rw [lastOf, lastOf, h1, h2, List.drop_zero, List.drop_zero]

theorem lastOf_push_of_full {n : Nat} {l : List TaskId} {i oldest : TaskId} {rest : List TaskId}
    (h : lastOf n l ++ [i] = oldest :: rest) (hlen : rest.length = n) :
    lastOf n (l ++ [i]) = rest := by
  have hl := congrArg List.length h
  rw [List.length_append, lastOf_length, List.length_singleton, List.length_cons, hlen] at hl
  have h1 : (l ++ [i]).length - n = (l.length - n) + 1 := by
    rw [List.length_append, List.length_singleton]; omega
  rw [lastOf, h1, ← List.drop_drop, List.drop_append_of_le_length (by omega)]
  rw [lastOf] at h
  rw [h]
  rfl

/-- What the registry keeps, root by root. -/
structure Kept (config : Config) (s : State Output) : Prop where
  roots : s.registry.settledRoots = lastOf config.retainedRoots s.rootSettles
  held : ∀ r ∈ s.registry.settledRoots, ∃ e, s.registry.entry r = some e
  listed : ∀ r d e, s.drivers r = some d → d.token.parent = none → s.HasSettled r →
    s.registry.entry r = some e → r ∈ s.registry.settledRoots
  child : ∀ c dc p, s.drivers c = some dc → dc.token.parent = some p →
    (∃ e, s.registry.entry p = some e) → ∃ e, s.registry.entry c = some e

theorem Kept.init : Kept config (State.init : State Output) where
  roots := by simp [State.init, Registry.default, State.rootSettles, lastOf]
  held := by simp [State.init, Registry.default]
  listed := by simp [State.init]
  child := by simp [State.init]

/-- Whether a task is a root does not change. -/
theorem Stepped.root_iff (h : Stepped config s a s') (hd : s.drivers x = some d) :
    ((s'.drivers x).any fun d => d.token.parent.isNone) = d.token.parent.isNone := by
  obtain ⟨d', hd', hm⟩ := h.driver_forward hd
  rw [hd', Option.any_some, hm.sameStart.token]

theorem Stepped.rootSettles_same (h : Stepped config s a s') (hset : Settled s)
    (hsame : s'.settles = s.settles) : s'.rootSettles = s.rootSettles := by
  unfold State.rootSettles
  rw [hsame]
  refine List.filter_congr fun x hx => ?_
  obtain ⟨d, _, hd, _⟩ := (hset.mem x).mp hx
  rw [h.root_iff hd, hd, Option.any_some]

theorem Stepped.rootSettles_push (h : Stepped config s a s') (hset : Settled s)
    (hpush : s'.settles = s.settles ++ [id]) (hd : s.drivers id = some d) :
    s'.rootSettles = s.rootSettles ++ if d.token.parent.isNone then [id] else [] := by
  unfold State.rootSettles
  rw [hpush, List.filter_append]
  congr 1
  · refine List.filter_congr fun x hx => ?_
    obtain ⟨d, _, hd, _⟩ := (hset.mem x).mp hx
    rw [h.root_iff hd, hd, Option.any_some]
  · rw [List.filter_singleton, h.root_iff hd, Bool.cond_eq_ite]

/-- A task that settles is still in the registry, if it is a task of a family. -/
theorem SettleStep.live (hsettle : SettleStep s s' id) (hwf : Wf config s) (hfam : Family s)
    (hd : s.drivers id = some d) : s.registry.forest.isLive id = true := by
  have hnone : d.pc.settled = none := by
    have := hsettle.before
    rw [State.hasSettled_iff hd] at this
    exact Classical.not_not.mp this
  obtain ⟨e, he⟩ := hfam.retained id d hd hnone
  rw [Registry.forest_isLive, he, Option.any_some, (hwf.entryOf he hd).live, hnone]
  rfl

/-- A settled task is live in no registry. -/
theorem Wf.not_live_of_settled (hwf : Wf config s) (h : s.HasSettled x) :
    s.registry.forest.isLive x = false := by
  obtain ⟨d, o, hd, ho⟩ := h
  rw [Registry.forest_isLive]
  cases he : s.registry.entry x with
  | none => rfl
  | some e =>
    rw [Option.any_some, (hwf.entryOf he hd).live, ho]
    rfl

/-- The settled roots stay the last ones of all roots that settled. -/
theorem Stepped.kept_roots (h : Stepped config s a s') (hwf : Wf config s)
    (hfam : Family s) (hset : Settled s) (hk : Kept config s) :
    s'.registry.settledRoots = lastOf config.retainedRoots s'.rootSettles := by
  -- the roots that settled are the same, unless a task the registry holds settles
  have hcases : s'.rootSettles = s.rootSettles ∨ ∃ id d, a = .drive id ∧
      s.drivers id = some d ∧ SettleStep s s' id ∧
      s'.rootSettles = s.rootSettles ++ if d.token.parent.isNone then [id] else [] := by
    rcases h.settleStep with ⟨hsame, _⟩ | ⟨id, ha, hsettle⟩
    · exact .inl (h.rootSettles_same hset hsame)
    · subst ha
      obtain ⟨d, _, _, hd, _⟩ := h.drive_inv
      exact .inr ⟨id, d, rfl, hd, hsettle, h.rootSettles_push hset hsettle.settles hd⟩
  have hsettles : ∀ {id d e}, a = .drive id → s.drivers id = some d →
      (∃ d' o, s'.drivers id = some d' ∧ d'.pc = .settleNotify o) →
      s.registry.entry id = some e → e.live = true →
      s'.rootSettles = s.rootSettles ++ if d.token.parent.isNone then [id] else [] := by
    intro id d e ha hd hd' he hl
    have hbefore : ¬s.HasSettled id := by
      rw [State.hasSettled_iff hd]
      rw [(hwf.entryOf he hd).live] at hl
      simpa using hl
    rcases h.settleStep with ⟨_, hiff⟩ | ⟨id', ha', hsettle⟩
    · obtain ⟨d', o, hd', ho⟩ := hd'
      exact absurd ((hiff id).mp ⟨d', o, hd', by rw [ho]; rfl⟩) hbefore
    · rw [ha] at ha'
      cases ha'
      exact h.rootSettles_push hset hsettle.settles hd
  cases h.forest hwf with
  | same hf hr =>
    rw [hr, hk.roots]
    rcases hcases with hsame | ⟨id, d, _, hd, hsettle, _⟩
    · rw [hsame]
    · have hl := hsettle.live hwf hfam hd
      rw [← hf, (h.wf hwf).not_live_of_settled hsettle.after] at hl
      cases hl
  | start hfresh hsub hlin hf hr =>
    rw [hr, hk.roots]
    rcases hcases with hsame | ⟨id, d, ha, _⟩
    · rw [hsame]
    · subst ha
      cases hsub
  | @settleChild id d e ha hd hd' he hl hp hf hr =>
    rw [hr, hk.roots, hsettles ha hd hd' he hl, ← (hwf.entryOf he hd).parent,
      Option.isNone_eq_false_iff.mpr hp, if_neg (by simp), List.append_nil]
  | @settleRoot id d e ha hd hd' he hl hp hf hlen hr =>
    rw [hr, hsettles ha hd hd' he hl, ← (hwf.entryOf he hd).parent, hp, Option.isNone_none,
      if_pos rfl, hk.roots]
    rw [hk.roots] at hlen
    exact (lastOf_push_of_lt hlen id).symm
  | @evict id oldest d e rest ha hd hd' he hl hp hroots hlen hpr hr =>
    rw [hr, hsettles ha hd hd' he hl, ← (hwf.entryOf he hd).parent, hp, Option.isNone_none,
      if_pos rfl]
    rw [hk.roots] at hroots
    exact (lastOf_push_of_full hroots hlen).symm

/-- A root that an eviction takes is the oldest of the settled ones. -/
theorem Evicts.root_gone {oldest : TaskId} {e : Entry} (hev : Evicts s a s' id oldest) (ht : Tree s)
    (he : s.registry.entry x = some e) (hp : e.info.parent = none)
    (hgone : s'.registry.entry x = none) : x = oldest := by
  have hsome : ((s.registry.forest.settle id) x).isSome := by
    rw [Forest.settle, Option.isSome_map, Registry.forest_isSome, he]
    rfl
  have hnone : s'.registry.forest x = none := by rw [Registry.forest, hgone, Option.map_none]
  rcases hev.pruned.up x hsome hnone with h | ⟨q, nq, hq, _, hmem⟩
  · exact h
  · have hchild := (ht.ok.settle hev.live).child q nq x hq hmem
    obtain ⟨e', he', hp'⟩ := Registry.forest_isChild.mp ((Forest.settle_isChild q x).mp hchild)
    rw [he] at he'
    cases he'
    rw [hp] at hp'
    cases hp'

/-- What was held and is not evicted is held. -/
theorem Stepped.held_or_evicted {e : Entry} (h : Stepped config s a s') (hwf : Wf config s)
    (ht : Tree s) (he : s.registry.entry x = some e) :
    (∃ e', s'.registry.entry x = some e') ∨
      s'.registry.entry x = none ∧ ∃ id oldest, Evicts s a s' id oldest := by
  cases he' : s'.registry.entry x with
  | some e' => exact .inl ⟨e', rfl⟩
  | none => exact .inr ⟨rfl, h.evicts hwf ht he he'⟩

theorem State.rootSettles_nodup (hset : Settled s) : s.rootSettles.Nodup := hset.nodup.filter _

theorem lastOf_nodup {n : Nat} {l : List TaskId} (h : l.Nodup) : (lastOf n l).Nodup :=
  h.sublist (List.drop_sublist _ _)

/-- Every settled root the registry lists is held. -/
theorem Stepped.kept_held (h : Stepped config s a s') (hwf : Wf config s) (ht : Tree s)
    (hset : Settled s) (hk : Kept config s) :
    ∀ r ∈ s'.registry.settledRoots, ∃ e, s'.registry.entry r = some e := by
  intro r hmem
  have ht' := h.tree hwf ht
  obtain ⟨d', _, hd', hp', _⟩ := ht'.roots r hmem
  -- it was held before the step
  have hheld : ∃ e, s.registry.entry r = some e := by
    cases h.forest hwf with
    | same hf hr | start hfresh hsub hlin hf hr | settleChild ha hd hd'' he hl hp hf hr =>
      rw [hr] at hmem
      exact hk.held r hmem
    | @settleRoot id d e ha hd hd'' he hl hp hf hlen hr =>
      rw [hr] at hmem
      rcases List.mem_append.mp hmem with hmem | hmem
      · exact hk.held r hmem
      · exact ⟨e, by rw [List.mem_singleton.mp hmem]; exact he⟩
    | @evict id oldest d e rest ha hd hd'' he hl hp hroots hlen hpr hr =>
      rw [hr] at hmem
      have hmem' : r ∈ s.registry.settledRoots ++ [id] := by
        rw [hroots]
        exact List.mem_cons_of_mem _ hmem
      rcases List.mem_append.mp hmem' with hmem' | hmem'
      · exact hk.held r hmem'
      · exact ⟨e, by rw [List.mem_singleton.mp hmem']; exact he⟩
  obtain ⟨e, he⟩ := hheld
  rcases h.held_or_evicted hwf ht he with hkept | ⟨hgone, id, oldest, hev⟩
  · exact hkept
  · -- the oldest root leaves once, and is not among the rest
    obtain ⟨d, hd, ho⟩ := hwf.entry r e he
    obtain ⟨d₁, hd₁, hm⟩ := h.driver_forward hd
    rw [hd'] at hd₁
    cases hd₁
    have hpar : e.info.parent = none := by rw [ho.parent, ← hm.sameStart.token, hp']
    have hr := hev.root_gone ht he hpar hgone
    subst hr
    have hnodup : (s.registry.settledRoots ++ [id]).Nodup := by
      rw [hk.roots]
      refine List.nodup_append.mpr ⟨lastOf_nodup (State.rootSettles_nodup hset),
        List.nodup_singleton id, ?_⟩
      intro y hy z hz hyz
      rw [List.mem_singleton.mp hz] at hyz
      subst hyz
      have hsettled := (hset.mem y).mp (List.mem_filter.mp (List.mem_of_mem_drop hy)).1
      have := hwf.not_live_of_settled hsettled
      rw [hev.live] at this
      cases this
    rw [hev.roots] at hnodup
    exact absurd hmem (List.nodup_cons.mp hnodup).1

/-- A settled root that is held is listed. -/
theorem Stepped.kept_listed (h : Stepped config s a s') (hwf : Wf config s)
    (hk : Kept config s) {r : TaskId} {e' : Entry} (hd' : s'.drivers r = some d')
    (hp : d'.token.parent = none) (hs : s'.HasSettled r) (he' : s'.registry.entry r = some e') :
    r ∈ s'.registry.settledRoots := by
  have hwf' := h.wf hwf
  have hdead : s'.registry.forest.isLive r = false := hwf'.not_live_of_settled hs
  rcases h.entry_or_started he' with hstart | ⟨e, he, hkeep⟩
  · cases hstart with
    | mk =>
      obtain ⟨d, o, hd, ho⟩ := hs
      rw [State.started_driver] at hd
      cases hd
      cases ho
  obtain ⟨d, hd, ho⟩ := hwf.entry r e he
  obtain ⟨d₁, hd₁, hm⟩ := h.driver_forward hd
  rw [hd'] at hd₁
  cases hd₁
  have hpd : d.token.parent = none := by rw [← hm.sameStart.token]; exact hp
  -- one that had settled before was listed before
  have hbefore : s.registry.forest.isLive r = false → r ∈ s.registry.settledRoots := by
    intro hl
    refine hk.listed r d e hd hpd ?_ he
    rw [State.hasSettled_iff hd]
    rw [Registry.forest_isLive, he, Option.any_some, ho.live] at hl
    intro hn
    rw [hn] at hl
    cases hl
  cases h.forest hwf with
  | same hf hr =>
    rw [hr]
    exact hbefore (by rw [← hf]; exact hdead)
  | @start id kind parent token submitted hfresh hsub hlin hf hr =>
    rw [hr]
    have hne : r ≠ id := by
      rintro rfl
      rw [hfresh] at hd
      cases hd
    exact hbefore (by rw [hf, Forest.add_isLive parent hne] at hdead; exact hdead)
  | @settleChild id d₀ e₀ ha hd₀ hd'' he₀ hl hpar hf hr =>
    rw [hr]
    have hne : r ≠ id := by
      rintro rfl
      rw [he] at he₀
      cases he₀
      rw [ho.parent, hpd] at hpar
      cases hpar
    exact hbefore (by rw [hf, Forest.settle_isLive] at hdead; simpa [hne] using hdead)
  | @settleRoot id d₀ e₀ ha hd₀ hd'' he₀ hl hpar hf hlen hr =>
    rw [hr]
    by_cases hne : r = id
    · exact List.mem_append_right _ (List.mem_singleton.mpr hne)
    · refine List.mem_append_left _ (hbefore ?_)
      rw [hf, Forest.settle_isLive] at hdead
      simpa [hne] using hdead
  | @evict id oldest d₀ e₀ rest ha hd₀ hd'' he₀ hl hpar hroots hlen hpr hr =>
    have hmem : r ∈ s.registry.settledRoots ++ [id] := by
      by_cases hne : r = id
      · exact List.mem_append_right _ (List.mem_singleton.mpr hne)
      · refine List.mem_append_left _ (hbefore ?_)
        have hsame := hpr.of_some (Registry.forest_of_entry he')
        unfold Forest.isLive at hdead
        rw [Registry.forest_of_entry he', ← hsame] at hdead
        change (s.registry.forest.settle id).isLive r = false at hdead
        rw [Forest.settle_isLive] at hdead
        simpa [hne] using hdead
    rw [hroots] at hmem
    rcases List.mem_cons.mp hmem with rfl | hmem
    · have := hpr.gone
      rw [Registry.forest_of_entry he'] at this
      cases this
    · rw [hr]
      exact hmem

/-- A child stays as long as its parent. -/
theorem Stepped.kept_child (h : Stepped config s a s') (hwf : Wf config s) (ht : Tree s)
    (hk : Kept config s) {c p : TaskId} {dc : Driver Output} (hc : s'.drivers c = some dc)
    (hp : dc.token.parent = some p) (hep : ∃ e, s'.registry.entry p = some e) :
    ∃ e, s'.registry.entry c = some e := by
  obtain ⟨ep', hep'⟩ := hep
  rcases h.driver hc with ⟨_, hstart⟩ | ⟨dc₀, hc₀, hm⟩
  · cases hstart with
    | @mk kind parent token submitted hfresh hsub hlin =>
      exact ⟨_, (s.registry.start_entry config c c kind parent token submitted).trans (if_pos rfl)⟩
  · have hp₀ : dc₀.token.parent = some p := by rw [← hm.sameStart.token]; exact hp
    have hep₀ : ∃ e, s.registry.entry p = some e := by
      rcases h.entry_or_started hep' with hstart | ⟨e, he, _⟩
      · obtain ⟨dp, hdp, _⟩ := hwf.parent c dc₀ p hc₀ hp₀
        cases hstart with
        | mk hfresh => rw [hfresh] at hdp; cases hdp
      · exact ⟨e, he⟩
    obtain ⟨ec, hec⟩ := hk.child c dc₀ p hc₀ hp₀ hep₀
    have hpar : ec.info.parent = some p := (hwf.entryOf hec hc₀).parent.trans hp₀
    rcases h.held_or_evicted hwf ht hec with hkept | ⟨hgone, id, oldest, hev⟩
    · exact hkept
    · exfalso
      have hok := ht.ok.settle hev.live
      have hsome : ((s.registry.forest.settle id) c).isSome := by
        rw [Forest.settle, Option.isSome_map, Registry.forest_isSome, hec]
        rfl
      have hnone : s'.registry.forest c = none := by rw [Registry.forest, hgone, Option.map_none]
      -- it left as the oldest root, which it is not, or with its parent, which stayed
      rcases hev.pruned.up c hsome hnone with rfl | ⟨q, nq, hq, hqgone, hmem⟩
      · obtain ⟨d₁, _, hd₁, hp₁, _⟩ := hev.root
        rw [hc] at hd₁
        cases hd₁
        rw [hp] at hp₁
        cases hp₁
      · obtain ⟨e', he', hp'⟩ :=
          Registry.forest_isChild.mp ((Forest.settle_isChild q c).mp (hok.child q nq c hq hmem))
        rw [hec] at he'
        cases he'
        rw [hpar] at hp'
        cases hp'
        rw [Registry.forest_of_entry hep'] at hqgone
        cases hqgone

theorem Stepped.kept (h : Stepped config s a s') (hwf : Wf config s) (ht : Tree s)
    (hfam : Family s) (hset : Settled s) (hk : Kept config s) : Kept config s' where
  roots := h.kept_roots hwf hfam hset hk
  held := h.kept_held hwf ht hset hk
  listed _ _ _ hd hp hs he := h.kept_listed hwf hk hd hp hs he
  child _ _ _ hc hp hep := h.kept_child hwf ht hk hc hp hep

theorem Reaches.kept {ok : State Output → Action Output → Prop}
    (hok : ∀ s a, ok s a → ChildrenInBody s a) (h : Reaches config ok s) : Kept config s :=
  h.invariant_from .init fun _ _ _ hreach hk _ hstep =>
    (step_cases hstep).kept (Reaches.wf hreach) (Reaches.tree hreach)
      (Reaches.family hok hreach) (Reaches.settled hreach) hk

/-! ### What is retained -/

/-- Every task has a root it was submitted beneath, or is one. -/
theorem Wf.exists_root (hwf : Wf config s) (hd : s.drivers y = some d) :
    ∃ r dr, s.drivers r = some dr ∧ dr.token.parent = none ∧ r ∈ d.token.lineage := by
  have hall : ∀ n y d, s.drivers y = some d → d.ticket.seq = n →
      ∃ r dr, s.drivers r = some dr ∧ dr.token.parent = none ∧ r ∈ d.token.lineage := by
    intro n
    induction n using Nat.strongRecOn with
    | ind n ih =>
      intro y d hd hseq
      cases hp : d.token.parent with
      | none =>
        refine ⟨y, d, hd, hp, ?_⟩
        rw [← hwf.cell y d hd]
        exact d.token.cell_mem_lineage
      | some q =>
        obtain ⟨dq, hdq, hanc, hlt, _⟩ := hwf.parent y d q hd hp
        obtain ⟨r, dr, hdr, hpr, hmem⟩ := ih dq.ticket.seq (by omega) q dq hdq rfl
        refine ⟨r, dr, hdr, hpr, List.mem_cons_of_mem _ ?_⟩
        rw [hanc]
        exact hmem
  exact hall _ y d hd rfl

/-- A task is retained with whatever it was submitted beneath. -/
theorem Kept.held_iff (hk : Kept config s) (hwf : Wf config s) (hfam : Family s) {r : TaskId}
    (hd : s.drivers y = some d) (hr : r ∈ d.token.lineage) :
    (∃ e, s.registry.entry y = some e) ↔ ∃ e, s.registry.entry r = some e := by
  have hlink : ∀ {q c : TaskId} {dc : Driver Output}, s.drivers c = some dc →
      dc.token.parent = some q →
      ((∃ e, s.registry.entry c = some e) ↔ ∃ e, s.registry.entry q = some e) := by
    intro q c dc hc hp
    constructor
    · rintro ⟨e, he⟩
      exact hfam.parent c e q he ((hwf.entryOf he hc).parent.trans hp)
    · exact hk.child c dc q hc hp
  rcases List.mem_cons.mp hr with rfl | hr
  · rw [hwf.cell y d hd]
  · refine hwf.beneath_induction (P := fun y _ =>
      (∃ e, s.registry.entry y = some e) ↔ ∃ e, s.registry.entry r = some e) ?_ ?_ y d hd hr
    · intro c dc hc hp
      exact hlink hc hp
    · intro q dq c dc _ hc hp ih
      exact (hlink hc hp).trans ih

/-- **Retention.**  In every state of a run whose children are submitted from
live bodies: the settled roots kept are the last of all roots that settled, in
the order they did and as many as the policy retains; no root settles twice; a
task is retained exactly when the root it was submitted beneath is unsettled or
kept; nothing else is; what has not settled is retained; and what has settled
shows a terminal state. -/
theorem retained_roots_and_descendants (h : Reaches config ChildrenInBody s) :
    s.registry.settledRoots = lastOf config.retainedRoots s.rootSettles ∧
    s.registry.settledRoots.length = min config.retainedRoots s.rootSettles.length ∧
    s.rootSettles.Nodup ∧
    (∀ r d, s.drivers r = some d → d.token.parent = none →
      (r ∈ s.rootSettles ↔ s.HasSettled r)) ∧
    (∀ y d, s.drivers y = some d → ((∃ e, s.registry.entry y = some e) ↔
      ∃ r dr, s.drivers r = some dr ∧ dr.token.parent = none ∧ r ∈ d.token.lineage ∧
        (¬s.HasSettled r ∨ r ∈ s.registry.settledRoots))) ∧
    (∀ y e, s.registry.entry y = some e → (∃ d, s.drivers y = some d) ∧
      (e.info.state.isTerminal = true ↔ s.HasSettled y)) ∧
    (∀ y d, s.drivers y = some d → ¬s.HasSettled y → ∃ e, s.registry.entry y = some e) := by
  have hwf := h.wf
  have hfam := h.family fun _ _ hin => hin
  have hk := h.kept fun _ _ hin => hin
  have hset := h.settled
  have hunsettled : ∀ y d, s.drivers y = some d → ¬s.HasSettled y →
      ∃ e, s.registry.entry y = some e := by
    intro y d hd hs
    rw [State.hasSettled_iff hd] at hs
    exact hfam.retained y d hd (Classical.not_not.mp hs)
  refine ⟨hk.roots, ?_, State.rootSettles_nodup hset, ?_, ?_, ?_, hunsettled⟩
  · rw [hk.roots, lastOf_length]
  · intro r d hd hp
    rw [State.rootSettles, List.mem_filter, hset.mem r, hd, Option.any_some, hp]
    simp
  · intro y d hd
    constructor
    · intro hy
      obtain ⟨r, dr, hdr, hp, hr⟩ := hwf.exists_root hd
      obtain ⟨e, he⟩ := (hk.held_iff hwf hfam hd hr).mp hy
      refine ⟨r, dr, hdr, hp, hr, ?_⟩
      by_cases hs : s.HasSettled r
      · exact .inr (hk.listed r dr e hdr hp hs he)
      · exact .inl hs
    · rintro ⟨r, dr, hdr, hp, hr, hs | hmem⟩
      · exact (hk.held_iff hwf hfam hd hr).mpr (hunsettled r dr hdr hs)
      · exact (hk.held_iff hwf hfam hd hr).mpr (hk.held r hmem)
  · intro y e he
    obtain ⟨d, hd, ho⟩ := hwf.entry y e he
    refine ⟨⟨d, hd⟩, ?_⟩
    rw [State.hasSettled_iff hd, Pc.shows_isTerminal ho.shows, Option.isSome_iff_ne_none]

/-- Two roots that both fail on a resource that does not exist, where one
settled root is retained. -/
def twoFailedRoots : State Nat :=
  State.init.run { Config.default with retainedRoots := 1 } ChildrenInBody
    [.submit ⟨1⟩ ⟨⟨"list", [], .interactive⟩, [⟨7⟩]⟩ 0,
      .submit ⟨2⟩ ⟨⟨"list", [], .interactive⟩, [⟨7⟩]⟩ 0,
      .drive ⟨2⟩, .drive ⟨2⟩, .drive ⟨2⟩, .drive ⟨1⟩, .drive ⟨1⟩, .drive ⟨1⟩]

theorem last_settled_root_retained :
    twoFailedRoots.settles = [⟨2⟩, ⟨1⟩] ∧ twoFailedRoots.registry.settledRoots = [⟨1⟩] ∧
    twoFailedRoots.registry.settledRoots = lastOf 1 twoFailedRoots.rootSettles := by
  have hr : Reaches { Config.default with retainedRoots := 1 } ChildrenInBody twoFailedRoots :=
    State.steps_run _ _ _ _
  exact ⟨by decide, by decide, (retained_roots_and_descendants hr).1⟩

end FilePeeker
