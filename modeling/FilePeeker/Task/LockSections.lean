import FilePeeker.Task.Registry

/-!
# What each lock section changes

One lemma for each function of `Registry.lean`: the entry of every task after
it, in terms of the entries before it, and the fields it leaves alone
(`AgreeOnAdmission`).

Eviction is the only one that removes entries.  `Pruned t t' root` says what
`remove_subtree` does to a table, with nothing assumed about its shape: entries
only disappear, the root is gone, the children of whatever is gone are gone
too, and whatever is gone is the root or a child of something gone.
-/

namespace FilePeeker

/-- The two registries hold the same of everything admission reads. -/
structure AgreeOnAdmission (reg reg' : Registry) : Prop where
  nextSeq : reg'.nextSeq = reg.nextSeq
  resources : reg'.resources = reg.resources
  admitted : reg'.admitted = reg.admitted
  queues : reg'.queues = reg.queues

namespace Registry

variable (reg : Registry) (config : Config) (id x : TaskId)

@[simp] theorem entry_mk (n : Nat) (entries : Table TaskId Entry) (roots : List TaskId)
    (resources : Table ResourceId Resource) (admitted : Scope → Nat)
    (queues : Scope → Finset Nat) :
    (Registry.mk n entries roots resources admitted queues).entry x = entries.lookup x := rfl

@[simp] theorem default_entry : Registry.default.entry x = none := rfl

/-! ### Sections that leave the entries alone -/

@[simp] theorem admitTicket_entry (ticket : Ticket) :
    (reg.admitTicket ticket).entry x = reg.entry x := rfl

@[simp] theorem dequeue_entry (ticket : Ticket) : (dequeue reg ticket).entry x = reg.entry x := rfl

@[simp] theorem release_entry (scope : Scope) : (reg.release scope).entry x = reg.entry x := rfl

/-! ### Sections that rewrite one entry -/

theorem entry_insert (e : Entry) :
    (reg.entries.insert id e).lookup x = if x = id then some e else reg.entry x :=
  Table.lookup_insert_if _ _ _ _

theorem setQueued_entry (waitingOn : Option ResourceId) :
    (reg.setQueued id waitingOn).1.entry x =
      if x = id then (reg.entry id).map (·.setState (.queued waitingOn)) else reg.entry x := by
  unfold setQueued
  cases he : reg.entry id with
  | none => by_cases hx : x = id <;> simp [hx, he]
  | some e =>
    by_cases hs : e.info.state = .queued waitingOn
    · simp only [hs, if_true]
      by_cases hx : x = id
      · rw [if_pos hx, hx, he, Option.map_some]
        simp [Entry.setState, ← hs]
      · rw [if_neg hx]
    · simp only [hs, if_false, entry_mk, entry_insert, Option.map_some]

theorem setState_entry (state : TaskState) :
    (reg.setState id state).1.entry x =
      if x = id then (reg.entry id).map (·.setState state) else reg.entry x := by
  unfold setState
  cases he : reg.entry id with
  | none => by_cases hx : x = id <;> simp [hx, he]
  | some e =>
    simp only [entry_mk, entry_insert, Option.map_some]

/-- A report rewrites only the entry of a live task. -/
theorem reportProgress_entry (now : Instant) (progress : Progress) :
    (reg.reportProgress config now id progress).1.entry x =
      if x = id then
        (reg.entry id).map fun e =>
          if e.live then e.report config.progressInterval now progress else e
      else reg.entry x := by
  unfold reportProgress
  cases he : reg.entry id with
  | none => by_cases hx : x = id <;> simp [hx, he]
  | some e =>
    by_cases ht : e.info.state.isTerminal
    · simp only [ht, if_true]
      by_cases hx : x = id
      · rw [if_pos hx, hx, he]
        simp [Entry.live, ht]
      · rw [if_neg hx]
    · have hl : e.live = true := by simp [Entry.live, ht]
      simp only [ht, Option.map_some, hl, if_true, Bool.false_eq_true, if_false]
      split
      · exact reg.entry_insert id x _
      · split <;> exact reg.entry_insert id x _

theorem flushProgress_entry (now : Instant) :
    (reg.flushProgress now id).1.entry x =
      if x = id then (reg.entry id).map (·.flush now) else reg.entry x := by
  unfold flushProgress
  cases he : reg.entry id with
  | none => by_cases hx : x = id <;> simp [hx, he]
  | some e =>
    simp only [entry_mk, entry_insert, Option.map_some]

theorem agree_setQueued (waitingOn : Option ResourceId) :
    AgreeOnAdmission reg (reg.setQueued id waitingOn).1 := by
  unfold setQueued
  split
  · exact ⟨rfl, rfl, rfl, rfl⟩
  · split <;> exact ⟨rfl, rfl, rfl, rfl⟩

theorem agree_setState (state : TaskState) : AgreeOnAdmission reg (reg.setState id state).1 := by
  unfold setState
  split <;> exact ⟨rfl, rfl, rfl, rfl⟩

theorem agree_reportProgress (now : Instant) (progress : Progress) :
    AgreeOnAdmission reg (reg.reportProgress config now id progress).1 := by
  unfold reportProgress
  split
  · exact ⟨rfl, rfl, rfl, rfl⟩
  · split
    · exact ⟨rfl, rfl, rfl, rfl⟩
    · dsimp only
      split
      · exact ⟨rfl, rfl, rfl, rfl⟩
      · split <;> exact ⟨rfl, rfl, rfl, rfl⟩

theorem agree_flushProgress (now : Instant) :
    AgreeOnAdmission reg (reg.flushProgress now id).1 := by
  unfold flushProgress
  split <;> exact ⟨rfl, rfl, rfl, rfl⟩

theorem agree_settle (state : TaskState) (now : SystemTime) :
    AgreeOnAdmission reg (reg.settle config id state now).1 := by
  unfold settle
  split
  · exact ⟨rfl, rfl, rfl, rfl⟩
  · dsimp only
    split <;> exact ⟨rfl, rfl, rfl, rfl⟩

theorem settledRoots_setQueued (waitingOn : Option ResourceId) :
    (reg.setQueued id waitingOn).1.settledRoots = reg.settledRoots := by
  unfold setQueued
  split
  · rfl
  · split <;> rfl

theorem settledRoots_setState (state : TaskState) :
    (reg.setState id state).1.settledRoots = reg.settledRoots := by
  unfold setState
  split <;> rfl

theorem settledRoots_reportProgress (now : Instant) (progress : Progress) :
    (reg.reportProgress config now id progress).1.settledRoots = reg.settledRoots := by
  unfold reportProgress
  split
  · rfl
  · split
    · rfl
    · dsimp only
      split
      · rfl
      · split <;> rfl

theorem settledRoots_flushProgress (now : Instant) :
    (reg.flushProgress now id).1.settledRoots = reg.settledRoots := by
  unfold flushProgress
  split <;> rfl

/-! ### Registration -/

/-- An entry with one child more. -/
def addChild (child : TaskId) (e : Entry) : Entry :=
  { e with children := e.children ++ [child], liveChildren := e.liveChildren + 1 }

/-- The entry a task starts with. -/
def startEntry (kind : TaskKind) (parent : Option TaskId) (token : CancelToken TaskId)
    (submitted : SystemTime) : Entry where
  seq := reg.nextSeq
  info := startInfo id parent kind.descriptor submitted
  children := []
  liveChildren := 0
  token := token
  throttle := .default

theorem start_entry (kind : TaskKind) (parent : Option TaskId) (token : CancelToken TaskId)
    (submitted : SystemTime) :
    (reg.start config id kind parent token submitted).1.entry x =
      if x = id then some (reg.startEntry id kind parent token submitted)
      else if parent = some x then (reg.entry x).map (addChild id)
      else reg.entry x := by
  cases parent with
  | none =>
    have hins : (reg.start config id kind none token submitted).1.entry x =
        AList.lookup x (reg.entries.insert id (reg.startEntry id kind none token submitted)) := rfl
    rw [hins, Table.lookup_insert_if, if_neg (by simp : ¬none = some x)]
    rfl
  | some p =>
    have hins : (reg.start config id kind (some p) token submitted).1.entry x =
        AList.lookup x ((reg.entries.modify p (addChild id)).insert id
          (reg.startEntry id kind (some p) token submitted)) := rfl
    rw [hins, Table.lookup_insert_if]
    simp only [Table.lookup_modify, Option.some.injEq, eq_comm (a := x)]
    rfl

theorem start_queues (kind : TaskKind) (parent : Option TaskId) (token : CancelToken TaskId)
    (submitted : SystemTime) (scope : Scope) :
    (reg.start config id kind parent token submitted).1.queues scope =
      if (reg.ticket config kind parent).queued = true ∧
          scope = (reg.ticket config kind parent).scope then
        insert reg.nextSeq (reg.queues scope)
      else reg.queues scope := by
  have h : (reg.start config id kind parent token submitted).1.queues =
      if (reg.ticket config kind parent).queued then
        Function.update reg.queues (reg.ticket config kind parent).scope
          (insert reg.nextSeq (reg.queues (reg.ticket config kind parent).scope))
      else reg.queues := rfl
  rw [h]
  by_cases hq : (reg.ticket config kind parent).queued = true
  · by_cases hs : scope = (reg.ticket config kind parent).scope
    · rw [if_pos hq, if_pos ⟨hq, hs⟩, hs, Function.update_self]
    · rw [if_pos hq, if_neg (fun h => hs h.2), Function.update_of_ne hs]
  · rw [if_neg hq, if_neg (fun h => hq h.1)]

end Registry

/-! ### Eviction -/

/-- `t'` is `t` without the subtree of `root`. -/
structure Pruned (t t' : Table TaskId Entry) (root : TaskId) : Prop where
  lookup : ∀ x, t'.lookup x = none ∨ t'.lookup x = t.lookup x
  gone : t'.lookup root = none
  down : ∀ q e, t.lookup q = some e → t'.lookup q = none → ∀ c ∈ e.children, t'.lookup c = none
  up : ∀ x, (t.lookup x).isSome → t'.lookup x = none →
    x = root ∨ ∃ q e, t.lookup q = some e ∧ t'.lookup q = none ∧ x ∈ e.children

/-- Entries only disappear. -/
def Shrinks (t t' : Table TaskId Entry) : Prop :=
  ∀ x, t'.lookup x = none ∨ t'.lookup x = t.lookup x

theorem Shrinks.refl (t : Table TaskId Entry) : Shrinks t t := fun _ => .inr rfl

theorem Shrinks.trans {t t' t'' : Table TaskId Entry} (h : Shrinks t t') (g : Shrinks t' t'') :
    Shrinks t t'' := by
  intro x
  rcases g x with hx | hx
  · exact .inl hx
  · rw [hx]; exact h x

theorem Shrinks.none {t t' : Table TaskId Entry} (h : Shrinks t t') {x : TaskId}
    (hx : t.lookup x = none) : t'.lookup x = none := by
  rcases h x with h' | h'
  · exact h'
  · rw [h', hx]

theorem Shrinks.some {t t' : Table TaskId Entry} (h : Shrinks t t') {x : TaskId} {e : Entry}
    (hx : t'.lookup x = some e) : t.lookup x = some e := by
  rcases h x with h' | h'
  · rw [h'] at hx; cases hx
  · rw [← h', hx]

theorem shrinks_erase (t : Table TaskId Entry) (id : TaskId) : Shrinks t (t.erase id) := by
  intro x
  rw [Table.lookup_erase_if]
  split
  · exact .inl rfl
  · exact .inr rfl

theorem Shrinks.size_le {t t' : Table TaskId Entry} (h : Shrinks t t') : t'.size ≤ t.size := by
  refine (t'.keys_nodup.subperm ?_).length_le
  intro k hk
  have h' : (t'.lookup k).isSome := AList.lookup_isSome.mpr (AList.mem_keys.mpr hk)
  obtain ⟨e, he⟩ := Option.isSome_iff_exists.mp h'
  exact AList.mem_keys.mp (AList.lookup_isSome.mp (by rw [h.some he]; rfl))

theorem shrinks_foldl {f : Table TaskId Entry → TaskId → Table TaskId Entry}
    (hf : ∀ t c, Shrinks t (f t c)) : ∀ (cs : List TaskId) (t : Table TaskId Entry),
    Shrinks t (cs.foldl f t) := by
  intro cs
  induction cs with
  | nil => exact .refl
  | cons c cs ih => intro t; exact (hf t c).trans (ih (f t c))

theorem shrinks_removeSubtree : ∀ (n : Nat) (t : Table TaskId Entry) (id : TaskId),
    Shrinks t (removeSubtree n t id) := by
  intro n
  induction n with
  | zero => intro t id; exact .refl t
  | succ n ih =>
    intro t id
    simp only [removeSubtree]
    split
    · exact .refl t
    · exact (shrinks_erase t id).trans (shrinks_foldl ih _ _)

/-- With one level of calls for each entry there is, the subtree goes. -/
theorem removeSubtree_root : ∀ (n : Nat) (t : Table TaskId Entry) (id : TaskId),
    t.size ≤ n → (removeSubtree n t id).lookup id = none := by
  intro n t id hn
  cases n with
  | zero =>
    cases h : t.lookup id with
    | none => exact h
    | some e => exact absurd (Table.size_pos h) (by omega)
  | succ n =>
    simp only [removeSubtree]
    split
    · assumption
    · exact (shrinks_foldl (shrinks_removeSubtree n) _ _).none (AList.lookup_erase _ _)

/-- A fold of removals takes each of the tasks it was given. -/
theorem foldl_removeSubtree_none (n : Nat) : ∀ (cs : List TaskId) (t : Table TaskId Entry),
    t.size ≤ n → ∀ c ∈ cs, (cs.foldl (removeSubtree n) t).lookup c = none := by
  intro cs
  induction cs with
  | nil => intro t _ c hc; simp at hc
  | cons a cs ih =>
    intro t ht c hc
    rw [List.foldl_cons]
    have hle := (shrinks_removeSubtree n t a).size_le
    rcases List.mem_cons.mp hc with rfl | hc
    · exact (shrinks_foldl (shrinks_removeSubtree n) cs _).none (removeSubtree_root n t c ht)
    · exact ih _ (by omega) c hc

/-- Where an entry that is gone after a fold of removals went: one of them took
it, from a table the fold had come to. -/
theorem exists_of_foldl_none (n : Nat) {x : TaskId} :
    ∀ (cs : List TaskId) (t : Table TaskId Entry), (t.lookup x).isSome →
      (cs.foldl (removeSubtree n) t).lookup x = none →
      ∃ c ∈ cs, ∃ u, Shrinks t u ∧ (u.lookup x).isSome ∧ (removeSubtree n u c).lookup x = none ∧
        Shrinks (removeSubtree n u c) (cs.foldl (removeSubtree n) t) := by
  intro cs
  induction cs with
  | nil =>
    intro t hx h
    rw [List.foldl_nil] at h
    rw [h] at hx
    cases hx
  | cons a cs ih =>
    intro t hx h
    rw [List.foldl_cons] at h ⊢
    cases ha : (removeSubtree n t a).lookup x with
    | none => exact ⟨a, by simp, t, .refl t, hx, ha, shrinks_foldl (shrinks_removeSubtree n) _ _⟩
    | some e =>
      obtain ⟨c, hc, u, hu, hux, hn, hs⟩ := ih _ (by rw [ha]; rfl) h
      exact ⟨c, List.mem_cons_of_mem _ hc, u, (shrinks_removeSubtree n t a).trans hu, hux, hn, hs⟩

/-- **`remove_subtree` prunes**, whatever the shape of the table. -/
theorem pruned_removeSubtree : ∀ (n : Nat) (t : Table TaskId Entry) (id : TaskId),
    t.size ≤ n → Pruned t (removeSubtree n t id) id := by
  intro n
  induction n with
  | zero =>
    intro t id hn
    refine ⟨shrinks_removeSubtree 0 t id, removeSubtree_root 0 t id hn, ?_, ?_⟩
    · intro q e hq
      exact absurd (Table.size_pos hq) (by omega)
    · intro x hx h
      rw [show removeSubtree 0 t id = t from rfl] at h
      rw [h] at hx
      cases hx
  | succ n ih =>
    intro t id hn
    have hroot := removeSubtree_root (n + 1) t id hn
    have hshr := shrinks_removeSubtree (n + 1) t id
    cases he : t.lookup id with
    | none =>
      have hsame : removeSubtree (n + 1) t id = t := by simp only [removeSubtree, he]
      rw [hsame] at hroot hshr ⊢
      refine ⟨hshr, hroot, ?_, ?_⟩
      · intro q e hq h; rw [h] at hq; cases hq
      · intro x hx h; rw [h] at hx; cases hx
    | some e =>
      have hfold : removeSubtree (n + 1) t id =
          e.children.foldl (removeSubtree n) (t.erase id) := by simp only [removeSubtree, he]
      have hsize : Table.size (t.erase id) ≤ n := by
        have := Table.size_erase_lt he
        omega
      rw [hfold] at hroot hshr ⊢
      -- an entry other than the root's goes in one of the nested calls
      have hcall : ∀ x, x ≠ id → (t.lookup x).isSome →
          (e.children.foldl (removeSubtree n) (t.erase id)).lookup x = none →
          ∃ c ∈ e.children, ∃ u, Shrinks t u ∧ Pruned u (removeSubtree n u c) c ∧
            (u.lookup x).isSome ∧ (removeSubtree n u c).lookup x = none ∧
            Shrinks (removeSubtree n u c) (e.children.foldl (removeSubtree n) (t.erase id)) := by
        intro x hne hx h
        obtain ⟨c, hc, u, hu, hux, hnone, hs⟩ :=
          exists_of_foldl_none n e.children (t.erase id)
            (by rw [Table.lookup_erase_if, if_neg hne]; exact hx) h
        have hle : u.size ≤ n := Nat.le_trans hu.size_le hsize
        exact ⟨c, hc, u, (shrinks_erase t id).trans hu, ih u c hle, hux, hnone, hs⟩
      refine ⟨hshr, hroot, ?_, ?_⟩
      · intro q eq hq h c hc
        by_cases hqid : q = id
        · subst hqid
          rw [he] at hq
          cases hq
          exact foldl_removeSubtree_none n e.children _ hsize c hc
        · obtain ⟨_, _, u, hu, hp, huq, hnone, hs⟩ := hcall q hqid (by rw [hq]; rfl) h
          obtain ⟨e', he'⟩ := Option.isSome_iff_exists.mp huq
          have heq : e' = eq := by
            have := hu.some he'
            rw [hq] at this
            exact (Option.some.inj this).symm
          subst heq
          exact hs.none (hp.down q e' he' hnone c hc)
      · intro x hx h
        by_cases hxid : x = id
        · exact .inl hxid
        · obtain ⟨c, hc, u, hu, hp, hux, hnone, hs⟩ := hcall x hxid hx h
          rcases hp.up x hux hnone with rfl | ⟨q, eq, hq, hqn, hqc⟩
          · exact .inr ⟨id, e, he, hroot, hc⟩
          · exact .inr ⟨q, eq, hu.some hq, hs.none hqn, hqc⟩

/-- What `evict` does when there is at most one root too many. -/
theorem evict_cases (retained : Nat) (roots : List TaskId) (t : Table TaskId Entry)
    (h : roots.length ≤ retained + 1) :
    (roots.length ≤ retained ∧ evict retained roots t = (roots, t)) ∨
    ∃ oldest rest t', roots = oldest :: rest ∧ rest.length = retained ∧
      evict retained roots t = (rest, t') ∧ Pruned t t' oldest := by
  -- the loop stops as soon as the rest fits
  have hstop : ∀ (rest : List TaskId) (u : Table TaskId Entry), rest.length ≤ retained →
      evict retained rest u = (rest, u) := by
    intro rest u hr
    cases rest with
    | nil => rfl
    | cons a rest => rw [evict, if_neg (by omega)]
  by_cases hle : roots.length ≤ retained
  · exact .inl ⟨hle, hstop roots t hle⟩
  · cases roots with
    | nil => simp at hle
    | cons oldest rest =>
      rw [List.length_cons] at h hle
      refine .inr ⟨oldest, rest, removeSubtree t.size t oldest, rfl, by omega, ?_,
        pruned_removeSubtree _ t oldest (Nat.le_refl _)⟩
      rw [evict, if_pos (by rw [List.length_cons]; omega)]
      exact hstop rest _ (by omega)

theorem shrinks_evict (retained : Nat) : ∀ (roots : List TaskId) (t : Table TaskId Entry),
    Shrinks t (evict retained roots t).2 := by
  intro roots
  induction roots with
  | nil => intro t; exact .refl t
  | cons a rest ih =>
    intro t
    simp only [evict]
    split
    · exact (shrinks_removeSubtree _ _ _).trans (ih _)
    · exact .refl t

/-! ### Settling -/

/-- An entry with one live child fewer. -/
def Entry.loseChild (e : Entry) : Entry := { e with liveChildren := e.liveChildren - 1 }

namespace Registry

variable (reg : Registry) (config : Config) (id x : TaskId)

/-- The entries as `settle` marks the task settled, before any eviction. -/
def mark (e : Entry) (state : TaskState) (now : SystemTime) : Table TaskId Entry :=
  match e.info.parent with
  | some parent =>
    Table.modify (reg.entries.insert id (e.settle state now)) parent Entry.loseChild
  | none => reg.entries.insert id (e.settle state now)

theorem mark_lookup (e : Entry) (state : TaskState) (now : SystemTime) :
    (reg.mark id e state now).lookup x =
      if e.info.parent = some x then
        (if x = id then some (e.settle state now) else reg.entry x).map Entry.loseChild
      else if x = id then some (e.settle state now) else reg.entry x := by
  unfold mark
  cases hp : e.info.parent with
  | none =>
    rw [if_neg (by simp)]
    exact reg.entry_insert id x _
  | some p =>
    simp only [Table.lookup_modify, Option.some.injEq, entry_insert, eq_comm (a := x) (b := p)]

theorem settle_child {e : Entry} {p : TaskId} (he : reg.entry id = some e)
    (hp : e.info.parent = some p) (state : TaskState) (now : SystemTime) :
    (reg.settle config id state now).1 = { reg with entries := reg.mark id e state now } := by
  unfold settle mark
  simp only [he, hp]
  rfl

/-- A root that settles joins the settled roots, and the oldest of them leaves
when there is one too many. -/
theorem settle_root {e : Entry} (he : reg.entry id = some e) (hp : e.info.parent = none)
    (state : TaskState) (now : SystemTime)
    (hlen : reg.settledRoots.length ≤ config.retainedRoots) :
    (reg.settledRoots.length + 1 ≤ config.retainedRoots ∧
      (reg.settle config id state now).1.settledRoots = reg.settledRoots ++ [id] ∧
      (reg.settle config id state now).1.entries = reg.mark id e state now) ∨
    ∃ oldest rest, reg.settledRoots ++ [id] = oldest :: rest ∧
      rest.length = config.retainedRoots ∧
      (reg.settle config id state now).1.settledRoots = rest ∧
      Pruned (reg.mark id e state now) (reg.settle config id state now).1.entries oldest := by
  have hreg : (reg.settle config id state now).1 =
      { reg with
        settledRoots :=
          (evict config.retainedRoots (reg.settledRoots ++ [id]) (reg.mark id e state now)).1
        entries :=
          (evict config.retainedRoots (reg.settledRoots ++ [id])
            (reg.mark id e state now)).2 } := by
    unfold settle mark
    simp only [he, hp]
  rcases evict_cases config.retainedRoots (reg.settledRoots ++ [id]) (reg.mark id e state now)
    (by simpa using hlen) with ⟨hle, hev⟩ | ⟨oldest, rest, t', hroots, hrest, hev, hpr⟩
  · refine .inl ⟨by simpa using hle, ?_, ?_⟩ <;> rw [hreg, hev]
  · refine .inr ⟨oldest, rest, hroots, hrest, ?_, ?_⟩
    · rw [hreg, hev]
    · rw [hreg, hev]; exact hpr

/-- Whatever settling evicts, the entries left are the marked ones. -/
theorem settle_shrinks {e : Entry} (he : reg.entry id = some e) (state : TaskState)
    (now : SystemTime) :
    Shrinks (reg.mark id e state now) (reg.settle config id state now).1.entries := by
  cases hp : e.info.parent with
  | some p => rw [reg.settle_child config id he hp]; exact .refl _
  | none =>
    unfold settle mark
    simp only [he, hp]
    exact shrinks_evict _ _ _

theorem settle_none (he : reg.entry id = none) (state : TaskState) (now : SystemTime) :
    reg.settle config id state now = (reg, []) := by
  unfold settle
  simp only [he]

theorem settle_settledRoots_length (state : TaskState) (now : SystemTime)
    (hlen : reg.settledRoots.length ≤ config.retainedRoots) :
    (reg.settle config id state now).1.settledRoots.length ≤ config.retainedRoots := by
  cases he : reg.entry id with
  | none => rw [reg.settle_none config id he]; exact hlen
  | some e =>
    cases hp : e.info.parent with
    | some p => rw [reg.settle_child config id he hp]; exact hlen
    | none =>
      rcases reg.settle_root config id he hp state now hlen with
        ⟨hle, hr, _⟩ | ⟨oldest, rest, _, hrest, hr, _⟩
      · rw [hr, List.length_append, List.length_singleton]; exact hle
      · rw [hr, hrest]

end Registry

end FilePeeker
