import FilePeeker.Lib.Forest
import FilePeeker.Task.Wf

/-!
# The registry as a forest

An entry's parent, children, count and liveness are a node of a `Forest`, and
every step of the runtime is one of the forest's operations on it: a
registration adds a node, a settling settles one, and an eviction takes a tree
away (`Stepped.forest`).  So the lists and counts are right in every run
(`Reaches.tree`), whatever the task code does with its contexts.
-/

namespace FilePeeker

variable {Output : Type} {config : Config} {s s' : State Output} {id x : TaskId}
  {d d' : Driver Output} {op : Op} {a : Action Output}

/-- What the forest holds of an entry. -/
def Entry.node (e : Entry) : Node TaskId := ⟨e.info.parent, e.children, e.liveChildren, e.live⟩

def forestOf (t : Table TaskId Entry) : Forest TaskId := fun x => (t.lookup x).map Entry.node

def Registry.forest (reg : Registry) : Forest TaskId := fun x => (reg.entry x).map Entry.node

theorem Registry.forest_of_entry {reg : Registry} {e : Entry} (he : reg.entry x = some e) :
    reg.forest x = some e.node := by
  rw [Registry.forest, he, Option.map_some]

theorem Registry.forest_inv {reg : Registry} {n : Node TaskId} (h : reg.forest x = some n) :
    ∃ e, reg.entry x = some e ∧ e.node = n := Option.map_eq_some_iff.mp h

theorem Registry.forest_isSome {reg : Registry} :
    (reg.forest x).isSome = (reg.entry x).isSome := by
  unfold Registry.forest
  cases reg.entry x <;> rfl

theorem Registry.forest_isLive {reg : Registry} :
    reg.forest.isLive x = (reg.entry x).any Entry.live := by
  unfold Forest.isLive Registry.forest
  cases reg.entry x <;> rfl

theorem Registry.forest_isChild {reg : Registry} {p : TaskId} :
    reg.forest.isChild p x ↔ ∃ e, reg.entry x = some e ∧ e.info.parent = some p := by
  unfold Forest.isChild Registry.forest
  cases reg.entry x <;> simp [Entry.node]

/-! ### The lock sections on the forest -/

namespace Registry

variable (reg : Registry) (config : Config) (id : TaskId)

theorem start_forest (kind : TaskKind) (parent : Option TaskId) (token : CancelToken TaskId)
    (submitted : SystemTime) :
    (reg.start config id kind parent token submitted).1.forest = reg.forest.add id parent := by
  funext x
  unfold Registry.forest
  rw [start_entry]
  by_cases hx : x = id
  · subst hx
    rw [if_pos rfl]
    exact (Forest.add_self parent).symm
  · rw [if_neg hx, Forest.add_of_ne parent hx]
    split
    · cases reg.entry x <;> rfl
    · rfl

/-- Rewriting one entry's state, with its liveness kept. -/
theorem setQueued_forest (waitingOn : Option ResourceId)
    (hlive : ∀ e, reg.entry id = some e → e.live = true) :
    (reg.setQueued id waitingOn).1.forest = reg.forest := by
  funext x
  unfold Registry.forest
  rw [setQueued_entry]
  by_cases hx : x = id
  · subst hx
    rw [if_pos rfl]
    cases he : reg.entry x with
    | none => rfl
    | some e =>
      have := hlive e he
      simp only [Entry.live] at this
      simp [Entry.node, Entry.setState, Entry.live, this]
      rfl
  · rw [if_neg hx]

theorem setState_forest {state : TaskState} (hst : state.isTerminal = false)
    (hlive : ∀ e, reg.entry id = some e → e.live = true) :
    (reg.setState id state).1.forest = reg.forest := by
  funext x
  unfold Registry.forest
  rw [setState_entry]
  by_cases hx : x = id
  · subst hx
    rw [if_pos rfl]
    cases he : reg.entry x with
    | none => rfl
    | some e =>
      have := hlive e he
      simp only [Entry.live] at this
      simp [Entry.node, Entry.setState, Entry.live, hst, this]
  · rw [if_neg hx]

theorem reportProgress_forest (now : Instant) (progress : Progress) :
    (reg.reportProgress config now id progress).1.forest = reg.forest := by
  funext x
  unfold Registry.forest
  rw [reportProgress_entry]
  by_cases hx : x = id
  · subst hx
    rw [if_pos rfl]
    cases reg.entry x with
    | none => rfl
    | some e =>
      rw [Option.map_some, Option.map_some, Option.map_some]
      split <;> rfl
  · rw [if_neg hx]

theorem flushProgress_forest (now : Instant) :
    (reg.flushProgress now id).1.forest = reg.forest := by
  funext x
  unfold Registry.forest
  rw [flushProgress_entry]
  by_cases hx : x = id
  · subst hx
    rw [if_pos rfl]
    cases reg.entry x <;> rfl
  · rw [if_neg hx]

theorem mark_forest {e : Entry} (he : reg.entry id = some e) {state : TaskState}
    (hst : state.isTerminal = true) (now : SystemTime) :
    forestOf (reg.mark id e state now) = reg.forest.settle id := by
  funext x
  unfold forestOf Forest.settle Registry.forest
  rw [mark_lookup, he]
  have hpar : ((some e).map Entry.node).bind Node.parent = e.info.parent := rfl
  simp only [hpar]
  by_cases hx : x = id
  · subst hx
    simp only [if_true, he]
    split <;> simp_all [Entry.node, Entry.settle, Entry.loseChild, Entry.live]
  · simp only [if_neg hx]
    cases reg.entry x with
    | none => simp
    | some ex =>
      split
      · simp_all [Entry.node, Entry.loseChild, Entry.live]
      · simp_all [Entry.node]

end Registry

theorem Pruned.forest {t t' : Table TaskId Entry} {root : TaskId} (h : Pruned t t' root) :
    Forest.Pruned (forestOf t) (forestOf t') root := by
  have hnone : ∀ {u : Table TaskId Entry} {x}, forestOf u x = none ↔ u.lookup x = none := by
    intro u x
    exact Option.map_eq_none_iff
  refine ⟨fun x => ?_, hnone.mpr h.gone, ?_, ?_⟩
  · rcases h.lookup x with hx | hx
    · exact .inl (hnone.mpr hx)
    · exact .inr (by rw [forestOf, forestOf, hx])
  · intro q n hq hgone c hc
    obtain ⟨e, he, rfl⟩ := Option.map_eq_some_iff.mp hq
    exact hnone.mpr (h.down q e he (hnone.mp hgone) c hc)
  · intro x hx hgone
    have hx' : (t.lookup x).isSome := by
      rw [forestOf, Option.isSome_map] at hx
      exact hx
    rcases h.up x hx' (hnone.mp hgone) with hroot | ⟨q, e, hq, hqgone, hmem⟩
    · exact .inl hroot
    · exact .inr ⟨q, e.node, by rw [forestOf, hq, Option.map_some], hnone.mpr hqgone, hmem⟩

/-! ### The steps of the runtime on the forest -/

/-- What a step does to the forest and to the list of settled roots. -/
inductive Forested (config : Config) (s : State Output) (a : Action Output) (s' : State Output) :
    Prop
  | same (h : s'.registry.forest = s.registry.forest)
      (hr : s'.registry.settledRoots = s.registry.settledRoots)
  | start {id : TaskId} {kind : TaskKind} {parent : Option TaskId} {token : CancelToken TaskId}
      {submitted : SystemTime} (hfresh : s.drivers id = none)
      (hsub : Submits id kind submitted a parent) (hlin : Lineage s id parent token)
      (h : s'.registry.forest = s.registry.forest.add id parent)
      (hr : s'.registry.settledRoots = s.registry.settledRoots)
  | settleChild {id : TaskId} {d : Driver Output} {e : Entry} (ha : a = .drive id)
      (hd : s.drivers id = some d)
      (hd' : ∃ d' o, s'.drivers id = some d' ∧ d'.pc = .settleNotify o)
      (he : s.registry.entry id = some e) (hl : e.live = true) (hp : e.info.parent.isSome)
      (h : s'.registry.forest = s.registry.forest.settle id)
      (hr : s'.registry.settledRoots = s.registry.settledRoots)
  | settleRoot {id : TaskId} {d : Driver Output} {e : Entry} (ha : a = .drive id)
      (hd : s.drivers id = some d)
      (hd' : ∃ d' o, s'.drivers id = some d' ∧ d'.pc = .settleNotify o)
      (he : s.registry.entry id = some e) (hl : e.live = true) (hp : e.info.parent = none)
      (h : s'.registry.forest = s.registry.forest.settle id)
      (hlen : s.registry.settledRoots.length + 1 ≤ config.retainedRoots)
      (hr : s'.registry.settledRoots = s.registry.settledRoots ++ [id])
  | evict {id oldest : TaskId} {d : Driver Output} {e : Entry} {rest : List TaskId}
      (ha : a = .drive id) (hd : s.drivers id = some d)
      (hd' : ∃ d' o, s'.drivers id = some d' ∧ d'.pc = .settleNotify o)
      (he : s.registry.entry id = some e) (hl : e.live = true) (hp : e.info.parent = none)
      (hroots : s.registry.settledRoots ++ [id] = oldest :: rest)
      (hlen : rest.length = config.retainedRoots)
      (h : Forest.Pruned (s.registry.forest.settle id) s'.registry.forest oldest)
      (hr : s'.registry.settledRoots = rest)

theorem Turn.forested (hturn : Turn config s id d op d') (hwf : Wf config s)
    (hd : s.drivers id = some d) :
    Forested config s (.drive id) ((s.perform config id d op).setDriver id d') := by
  have hlive : d.pc.settled = none → ∀ e, s.registry.entry id = some e → e.live = true := by
    intro hpc e he
    rw [(hwf.entryOf he hd).live, hpc]
    rfl
  cases hturn with
  | admitQueue hpc =>
    exact .same (s.registry.setQueued_forest id _ (hlive (by simp [hpc, Pc.settled])))
      (s.registry.settledRoots_setQueued id _)
  | setRunning hpc | setCancelling hpc =>
    exact .same (s.registry.setState_forest id rfl (hlive (by simp [hpc, Pc.settled])))
      (s.registry.settledRoots_setState id _)
  | @settle outcome e hpc he =>
    have hl := hlive (by simp [hpc, Pc.settled]) e he
    have hmark := s.registry.mark_forest id he (stateOfOutcome_isTerminal outcome) s.wall
    have hd' : ∃ d' o, ((s.perform config id d (.settle (stateOfOutcome outcome))).setDriver id
        { d with pc := .settleNotify outcome }).drivers id = some d' ∧ d'.pc = .settleNotify o :=
      ⟨{ d with pc := .settleNotify outcome }, outcome, by simp, rfl⟩
    cases hp : e.info.parent with
    | some p =>
      have hreg := s.registry.settle_child config id he hp (stateOfOutcome outcome) s.wall
      refine .settleChild rfl hd hd' he hl (by rw [hp]; rfl) ?_ ?_
      · rw [← hmark]
        exact congrArg Registry.forest hreg
      · exact (congrArg Registry.settledRoots hreg :)
    | none =>
      rcases s.registry.settle_root config id he hp (stateOfOutcome outcome) s.wall hwf.roots with
        ⟨hlen, hr, hent⟩ | ⟨oldest, rest, hroots, hlen, hr, hpr⟩
      · refine .settleRoot rfl hd hd' he hl hp ?_ hlen hr
        rw [← hmark]
        exact congrArg forestOf hent
      · refine .evict rfl hd hd' he hl hp hroots hlen ?_ hr
        rw [← hmark]
        exact hpr.forest
  | @settleGone outcome hpc he =>
    have hreg := s.registry.settle_none config id he (stateOfOutcome outcome) s.wall
    exact .same (congrArg (fun r => Registry.forest r.1) hreg)
      (congrArg (fun r => Registry.settledRoots r.1) hreg)
  | _ => exact .same rfl rfl

/-- **Every step of the runtime is an operation of the forest.** -/
theorem Stepped.forest (h : Stepped config s a s') (hwf : Wf config s) :
    Forested config s a s' := by
  cases h with
  | start hfresh hsub hlin =>
    exact .start hfresh hsub hlin (s.registry.start_forest config _ _ _ _ _) rfl
  | drive hd hturn => exact hturn.forested hwf hd
  | progress =>
    exact .same (s.registry.reportProgress_forest config _ s.now _)
      (s.registry.settledRoots_reportProgress config _ s.now _)
  | flush =>
    exact .same (s.registry.flushProgress_forest _ s.now)
      (s.registry.settledRoots_flushProgress _ s.now)
  | cancel | cancelIdle | cancelAll | resources | notifyWaiters | idle | idleStep | nudge
  | tick => exact .same rfl rfl

/-! ### Any run -/

/-- The lists and counts are right, and the settled roots are settled roots. -/
structure Tree (s : State Output) : Prop where
  ok : s.registry.forest.Ok
  roots : ∀ r ∈ s.registry.settledRoots,
    ∃ d o, s.drivers r = some d ∧ d.token.parent = none ∧ d.pc.settled = some o

theorem Tree.init : Tree (State.init : State Output) where
  ok := .empty
  roots := by simp [State.init, Registry.default]

theorem Moved.settled {o : Outcome Output} (h : Moved config s a x d d')
    (hd : d.pc.settled = some o) : d'.pc.settled = some o := by
  cases h with
  | same | woken => exact hd
  | turn _ h =>
    cases h with
    | pollEnded hpc | joinCancelled hpc => simp [hpc, Pc.settled] at hd
    | _ =>
      rename_i hpc
      simp_all [Pc.settled]
  | nudge h =>
    cases h with
    | bodyEnds => exact hd
    | giveUp hpc | runReturns hpc | runPanics hpc => simp [hpc, Pc.settled] at hd

/-- What was a settled root before a step is one after it. -/
theorem Stepped.settled_root {r : TaskId} (h : Stepped config s a s')
    (hr : ∃ d o, s.drivers r = some d ∧ d.token.parent = none ∧ d.pc.settled = some o) :
    ∃ d o, s'.drivers r = some d ∧ d.token.parent = none ∧ d.pc.settled = some o := by
  obtain ⟨d, o, hd, hp, ho⟩ := hr
  obtain ⟨d', hd', hm⟩ := h.driver_forward hd
  exact ⟨d', o, hd', by rw [hm.sameStart.token]; exact hp, hm.settled ho⟩

/-- A root that settles in a step is a settled root after it. -/
theorem Stepped.settles_root {e : Entry} (h : Stepped config s a s') (hwf : Wf config s)
    (hd : s.drivers id = some d)
    (hd' : ∃ d' o, s'.drivers id = some d' ∧ d'.pc = .settleNotify o)
    (he : s.registry.entry id = some e) (hp : e.info.parent = none) :
    ∃ d o, s'.drivers id = some d ∧ d.token.parent = none ∧ d.pc.settled = some o := by
  obtain ⟨d', o, hd', ho⟩ := hd'
  obtain ⟨d'', hd'', hm⟩ := h.driver_forward hd
  rw [hd'] at hd''
  cases hd''
  exact ⟨d', o, hd', by rw [hm.sameStart.token, ← (hwf.entryOf he hd).parent, hp],
    by rw [ho]; rfl⟩

theorem Wf.no_child_of_fresh (hwf : Wf config s) (hfresh : s.drivers id = none) (c : TaskId) :
    ¬s.registry.forest.isChild id c := by
  rw [Registry.forest_isChild]
  rintro ⟨e, he, hp⟩
  obtain ⟨d, hd, ho⟩ := hwf.entry c e he
  obtain ⟨dp, hdp, _⟩ := hwf.parent c d id hd (ho.parent.symm.trans hp)
  rw [hfresh] at hdp
  cases hdp

theorem Wf.forest_of_fresh (hwf : Wf config s) (hfresh : s.drivers id = none) :
    s.registry.forest id = none := by
  rw [Registry.forest, Option.map_eq_none_iff]
  cases he : s.registry.entry id with
  | none => rfl
  | some e =>
    obtain ⟨d, hd, _⟩ := hwf.entry id e he
    rw [hfresh] at hd
    cases hd

/-- **One step keeps the lists and counts right.** -/
theorem Stepped.tree (h : Stepped config s a s') (hwf : Wf config s) (ht : Tree s) : Tree s' := by
  have hold := fun r hr => h.settled_root (r := r) (ht.roots r hr)
  have hlive : ∀ {id e}, s.registry.entry id = some e → e.live = true →
      s.registry.forest.isLive id = true := by
    intro id e he hl
    rw [Registry.forest_isLive, he]
    exact hl
  cases h.forest hwf with
  | same hf hr =>
    refine ⟨by rw [hf]; exact ht.ok, fun r hmem => ?_⟩
    rw [hr] at hmem
    exact hold r hmem
  | @start id kind parent token submitted hfresh hsub hlin hf hr =>
    refine ⟨?_, fun r hmem => ?_⟩
    · rw [hf]
      refine ht.ok.add (hwf.forest_of_fresh hfresh) (hwf.no_child_of_fresh hfresh) ?_
      rintro rfl
      cases hlin with
      | child hp _ => rw [hfresh] at hp; cases hp
    · rw [hr] at hmem
      exact hold r hmem
  | settleChild ha hd hd' he hl hp hf hr =>
    refine ⟨by rw [hf]; exact ht.ok.settle (hlive he hl), fun r hmem => ?_⟩
    rw [hr] at hmem
    exact hold r hmem
  | settleRoot ha hd hd' he hl hp hf hlen hr =>
    refine ⟨by rw [hf]; exact ht.ok.settle (hlive he hl), fun r hmem => ?_⟩
    rw [hr] at hmem
    rcases List.mem_append.mp hmem with hmem | hmem
    · exact hold r hmem
    · rw [List.mem_singleton.mp hmem]
      exact h.settles_root hwf hd hd' he hp
  | @evict id oldest d e rest ha hd hd' he hl hp hroots hlen hf hr =>
    have hall : ∀ r ∈ oldest :: rest,
        ∃ d o, s'.drivers r = some d ∧ d.token.parent = none ∧ d.pc.settled = some o := by
      intro r hmem
      rw [← hroots] at hmem
      rcases List.mem_append.mp hmem with hmem | hmem
      · exact hold r hmem
      · rw [List.mem_singleton.mp hmem]
        exact h.settles_root hwf hd hd' he hp
    refine ⟨(ht.ok.settle (hlive he hl)).pruned hf ?_, fun r hmem => ?_⟩
    · intro n hn
      obtain ⟨d₁, _, hd₁, hp₁, _⟩ := hall oldest List.mem_cons_self
      obtain ⟨n₀, hn₀, hpar, _⟩ := Forest.settle_inv hn
      obtain ⟨e₀, he₀, rfl⟩ := Registry.forest_inv hn₀
      obtain ⟨d₀, hd₀, ho⟩ := hwf.entry oldest e₀ he₀
      obtain ⟨d₂, hd₂, hm⟩ := h.driver_forward hd₀
      rw [hd₁] at hd₂
      cases hd₂
      rw [hpar, show e₀.node.parent = e₀.info.parent from rfl, ho.parent, ← hm.sameStart.token, hp₁]
    · rw [hr] at hmem
      exact hall r (List.mem_cons_of_mem _ hmem)

/-- A step that evicts: which root settled in it, and which one left. -/
structure Evicts (s : State Output) (a : Action Output) (s' : State Output)
    (id oldest : TaskId) : Prop where
  drive : a = .drive id
  live : s.registry.forest.isLive id = true
  roots : s.registry.settledRoots ++ [id] = oldest :: s'.registry.settledRoots
  root : ∃ d o, s'.drivers oldest = some d ∧ d.token.parent = none ∧ d.pc.settled = some o
  pruned : Forest.Pruned (s.registry.forest.settle id) s'.registry.forest oldest

/-- **Entries leave by eviction only.** -/
theorem Stepped.evicts {e : Entry} (h : Stepped config s a s') (hwf : Wf config s) (ht : Tree s)
    (he : s.registry.entry x = some e) (hgone : s'.registry.entry x = none) :
    ∃ id oldest, Evicts s a s' id oldest := by
  have hnone : s'.registry.forest x = none := by rw [Registry.forest, hgone, Option.map_none]
  have hsome := Registry.forest_of_entry he
  cases h.forest hwf with
  | same hf hr => rw [← hf, hnone] at hsome; cases hsome
  | @start id kind parent token submitted hfresh hsub hlin hf hr =>
    have hne : x ≠ id := by
      rintro rfl
      rw [hwf.forest_of_fresh hfresh] at hsome
      cases hsome
    rw [hf, Forest.add_of_ne parent hne, hsome] at hnone
    split at hnone <;> cases hnone
  | settleChild ha hd hd' he₀ hl hp hf hr | settleRoot ha hd hd' he₀ hl hp hf hlen hr =>
    rw [hf, Forest.settle, hsome] at hnone
    cases hnone
  | @evict id oldest d e₀ rest ha hd hd' he₀ hl hp hroots hlen hpr hr =>
    have hroot : ∃ d o, s'.drivers oldest = some d ∧ d.token.parent = none ∧
        d.pc.settled = some o := by
      have hmem : oldest ∈ s.registry.settledRoots ++ [id] := by rw [hroots]; simp
      rcases List.mem_append.mp hmem with hmem | hmem
      · exact h.settled_root (ht.roots oldest hmem)
      · rw [List.mem_singleton.mp hmem]
        exact h.settles_root hwf hd hd' he₀ hp
    exact ⟨id, oldest, ha, by rw [Registry.forest_isLive, he₀]; exact hl, hr ▸ hroots, hroot, hpr⟩

theorem Reaches.tree {ok : State Output → Action Output → Prop} (h : Reaches config ok s) :
    Tree s :=
  h.invariant_from .init fun _ _ _ hreach ht _ hstep =>
    (step_cases hstep).tree (Reaches.wf hreach) ht

/-- The tokens of the live children are among those the wait cancels. -/
theorem Registry.mem_liveChildTokens {reg : Registry} {e ec : Entry} {c : TaskId}
    (he : reg.entry x = some e) (hmem : c ∈ e.children) (hec : reg.entry c = some ec)
    (hl : ec.live = true) : ec.token.cell ∈ reg.liveChildTokens x := by
  unfold Registry.liveChildTokens
  rw [he]
  refine List.mem_filterMap.mpr ⟨ec, List.mem_filterMap.mpr ⟨c, hmem, hec⟩, ?_⟩
  rw [if_pos hl]

end FilePeeker
