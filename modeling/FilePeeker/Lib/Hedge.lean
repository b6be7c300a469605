import FilePeeker.Lib.PreOrder

/-!
# Hedges

A hedge is a list of trees with ordered children: a first tree, what is below
its root, and the trees next to it.  `flatten` writes it out in pre-order, each
row from what it inherits from above (its depth, say) and its own label.

A node is named by its place in pre-order.  `modifyAt` changes one node and what
is below it, which changes the rows of that subtree and no others
(`exists_split`); the subtree ends where the depths say (`Depths.isEnd`).
-/

namespace FilePeeker

/-- A list of trees: `cons` is a root, what is below it, and the next trees. -/
inductive Hedge (α : Type*)
  | nil
  | cons (label : α) (below next : Hedge α)
deriving DecidableEq, Repr

namespace Hedge

variable {α β γ : Type*} {h g below next : Hedge α} {a : α} {i j : Nat} {c : γ}
  {down : γ → α → γ} {row : γ → α → β} {f : α → Hedge α → α × Hedge α} {p : α → Bool}

def size : Hedge α → Nat
  | nil => 0
  | cons _ below next => below.size + 1 + next.size

def append : Hedge α → Hedge α → Hedge α
  | nil, g => g
  | cons a below next, g => cons a below (next.append g)

/-- Trees of one node each. -/
def leaves : List α → Hedge α
  | [] => nil
  | a :: as => cons a nil (leaves as)

/-- The rows in pre-order. -/
def flatten (down : γ → α → γ) (row : γ → α → β) : γ → Hedge α → List β
  | _, nil => []
  | c, cons a below next =>
    row c a :: (flatten down row (down c a) below ++ flatten down row c next)

/-- The node at place `i`: what it inherits, its label, and what is below it. -/
def node? (down : γ → α → γ) : γ → Hedge α → Nat → Option (γ × α × Hedge α)
  | _, nil, _ => none
  | c, cons a below _, 0 => some (c, a, below)
  | c, cons a below next, i + 1 =>
    if i < below.size then node? down (down c a) below i else node? down c next (i - below.size)

/-- Changes the node at place `i` and what is below it. -/
def modifyAt (f : α → Hedge α → α × Hedge α) : Hedge α → Nat → Hedge α
  | nil, _ => nil
  | cons a below next, 0 => cons (f a below).1 (f a below).2 next
  | cons a below next, i + 1 =>
    if i < below.size then cons a (below.modifyAt f i) next
    else cons a below (next.modifyAt f (i - below.size))

/-- Changes every node whose label `p` selects, and what is below it. -/
def modifyWhere (p : α → Bool) (f : α → Hedge α → α × Hedge α) : Hedge α → Hedge α
  | nil => nil
  | cons a below next =>
    if p a then cons (f a below).1 (f a below).2 (next.modifyWhere p f)
    else cons a (below.modifyWhere p f) (next.modifyWhere p f)

@[simp] theorem flatten_nil : flatten down row c nil = [] := rfl

theorem flatten_cons : flatten down row c (cons a below next) =
    row c a :: (flatten down row (down c a) below ++ flatten down row c next) := rfl

@[simp] theorem length_flatten :
    ∀ (h : Hedge α) (c : γ), (flatten down row c h).length = h.size := by
  intro h
  induction h with
  | nil => intro c; rfl
  | cons a below next ihb ihn =>
    intro c
    rw [flatten_cons, List.length_cons, List.length_append, ihb, ihn, size]
    omega

theorem flatten_append : ∀ (h g : Hedge α),
    flatten down row c (h.append g) = flatten down row c h ++ flatten down row c g := by
  intro h
  induction h with
  | nil => intro g; rfl
  | cons a below next _ ihn =>
    intro g
    rw [append, flatten_cons, flatten_cons, ihn, List.cons_append, List.append_assoc]

@[simp] theorem append_nil : ∀ (h : Hedge α), h.append nil = h := by
  intro h
  induction h with
  | nil => rfl
  | cons a below next _ ihn => rw [append, ihn]

theorem flatten_leaves (as : List α) : flatten down row c (leaves as) = as.map (row c) := by
  induction as with
  | nil => rfl
  | cons a as ih => rw [leaves, flatten_cons, flatten_nil, List.nil_append, ih, List.map_cons]

/-- Every place has its node. -/
theorem node?_isSome :
    ∀ (h : Hedge α) (c : γ) (i : Nat), i < h.size → (h.node? down c i).isSome := by
  intro h
  induction h with
  | nil => intro c i hi; exact absurd hi (Nat.not_lt_zero _)
  | cons a below next ihb ihn =>
    intro c i hi
    cases i with
    | zero => rfl
    | succ i =>
      rw [size] at hi
      rw [node?]
      by_cases hib : i < below.size
      · rw [if_pos hib]
        exact ihb _ _ hib
      · rw [if_neg hib]
        exact ihn _ _ (by omega)

variable (row) in
/-- **The rows of a node.**  They stand between rows that a change of the node
leaves as they are. -/
theorem exists_split : ∀ {h : Hedge α} {c c' : γ} {i : Nat} {a : α} {below : Hedge α},
    h.node? down c i = some (c', a, below) →
    ∃ before behind : List β, before.length = i ∧
      flatten down row c h = before ++ (flatten down row c' (cons a below nil) ++ behind) ∧
      ∀ f, flatten down row c (h.modifyAt f i) =
        before ++ (flatten down row c' (cons (f a below).1 (f a below).2 nil) ++ behind) := by
  intro h
  induction h with
  | nil => intro c c' i a below hn; simp [node?] at hn
  | cons b below' next ihb ihn =>
    intro c c' i a below hn
    cases i with
    | zero =>
      rw [node?, Option.some.injEq, Prod.mk.injEq, Prod.mk.injEq] at hn
      obtain ⟨rfl, rfl, rfl⟩ := hn
      refine ⟨[], flatten down row c next, rfl, ?_, fun f => ?_⟩
      · simp [flatten_cons]
      · simp [flatten_cons, modifyAt]
    | succ i =>
      rw [node?] at hn
      by_cases hib : i < below'.size
      · rw [if_pos hib] at hn
        obtain ⟨before, behind, hlen, heq, hmod⟩ := ihb hn
        refine ⟨row c b :: before, behind ++ flatten down row c next, by simp [hlen], ?_,
          fun f => ?_⟩
        · rw [flatten_cons, heq]
          simp
        · rw [modifyAt, if_pos hib, flatten_cons, hmod f]
          simp
      · rw [if_neg hib] at hn
        obtain ⟨before, behind, hlen, heq, hmod⟩ := ihn hn
        refine ⟨row c b :: (flatten down row (down c b) below' ++ before), behind, ?_, ?_,
          fun f => ?_⟩
        · rw [List.length_cons, List.length_append, length_flatten]
          omega
        · rw [flatten_cons, heq]
          simp
        · rw [modifyAt, if_neg hib, flatten_cons, hmod f]
          simp

theorem getElem?_flatten {c' : γ} (hn : h.node? down c i = some (c', a, below)) :
    (flatten down row c h)[i]? = some (row c' a) := by
  obtain ⟨before, behind, hlen, heq, -⟩ := exists_split row hn
  rw [heq, List.getElem?_append_right (by omega), hlen, Nat.sub_self, flatten_cons]
  rfl

/-! ### Nodes by their labels -/

/-- The labels in pre-order. -/
def labels : Hedge α → List α
  | nil => []
  | cons a below next => a :: (below.labels ++ next.labels)

@[simp] theorem length_labels (h : Hedge α) : h.labels.length = h.size := by
  induction h with
  | nil => rfl
  | cons a below next ihb ihn =>
    rw [labels, List.length_cons, List.length_append, ihb, ihn, size]
    omega

/-- The labels can be read off rows that show them. -/
theorem map_flatten {g : β → α} (hg : ∀ c a, g (row c a) = a) : ∀ (h : Hedge α) (c : γ),
    (flatten down row c h).map g = h.labels := by
  intro h
  induction h with
  | nil => intro c; rfl
  | cons a below next ihb ihn =>
    intro c
    rw [flatten_cons, List.map_cons, List.map_append, ihb, ihn, hg, labels]

theorem labels_of_node? : ∀ {h : Hedge α} {c c' : γ} {i : Nat} {a : α} {below : Hedge α},
    h.node? down c i = some (c', a, below) → h.labels[i]? = some a := by
  intro h
  induction h with
  | nil => intro c c' i a below hn; simp [node?] at hn
  | cons b below' next ihb ihn =>
    intro c c' i a below hn
    cases i with
    | zero =>
      rw [node?, Option.some.injEq, Prod.mk.injEq, Prod.mk.injEq] at hn
      rw [labels, List.getElem?_cons_zero, hn.2.1]
    | succ i =>
      rw [node?] at hn
      rw [labels, List.getElem?_cons_succ]
      by_cases hib : i < below'.size
      · rw [if_pos hib] at hn
        rw [List.getElem?_append_left (by rwa [length_labels])]
        exact ihb hn
      · rw [if_neg hib] at hn
        rw [List.getElem?_append_right (by rw [length_labels]; omega), length_labels]
        exact ihn hn

theorem modifyWhere_none (hp : ∀ a ∈ h.labels, p a = false) : h.modifyWhere p f = h := by
  induction h with
  | nil => rfl
  | cons a below next ihb ihn =>
    rw [modifyWhere, hp a (by simp [labels]), ihb fun b hb => hp b (by simp [labels, hb]),
      ihn fun b hb => hp b (by simp [labels, hb])]
    rfl

/-- Where one label is selected, its node is changed. -/
theorem modifyWhere_eq_modifyAt : ∀ {h : Hedge α} {i : Nat} {a : α}, h.labels[i]? = some a →
    p a = true → (∀ j b, h.labels[j]? = some b → p b = true → j = i) →
    h.modifyWhere p f = h.modifyAt f i := by
  intro h
  induction h with
  | nil => intro i a hi; simp [labels] at hi
  | cons b below next ihb ihn =>
    intro i a hi ha hone
    have hbelow {j : Nat} {d : α} (hj : below.labels[j]? = some d) :
        (cons b below next).labels[j + 1]? = some d := by
      have hlt := (List.getElem?_eq_some_iff.mp hj).1
      rwa [labels, List.getElem?_cons_succ, List.getElem?_append_left hlt]
    have hnext {j : Nat} {d : α} (hj : next.labels[j]? = some d) :
        (cons b below next).labels[below.size + j + 1]? = some d := by
      rwa [labels, List.getElem?_cons_succ, List.getElem?_append_right (by rw [length_labels]; omega),
        length_labels, Nat.add_sub_cancel_left]
    have none_of {g : Hedge α}
        (hg : ∀ (j : Nat) (d : α), g.labels[j]? = some d → p d = true → False) :
        ∀ d ∈ g.labels, p d = false := by
      intro d hd
      obtain ⟨j, hj⟩ := List.mem_iff_getElem?.mp hd
      exact Bool.eq_false_iff.mpr fun hpd => hg j d hj hpd
    cases i with
    | zero =>
      obtain rfl : b = a := by simpa [labels] using hi
      rw [modifyWhere, if_pos ha, modifyAt, modifyWhere_none (none_of fun j d hj hd => ?_)]
      have := hone _ d (hnext hj) hd
      omega
    | succ i =>
      have hb : ¬ p b = true := by
        intro hb
        have := hone 0 b (by simp [labels]) hb
        omega
      rw [modifyWhere, if_neg hb, modifyAt]
      rw [labels, List.getElem?_cons_succ] at hi
      by_cases hib : i < below.size
      · rw [List.getElem?_append_left (by rwa [length_labels])] at hi
        rw [if_pos hib, ihb hi ha, modifyWhere_none (none_of fun j d hj hd => ?_)]
        · have := hone _ d (hnext hj) hd
          omega
        · intro j d hj hd
          have := hone _ d (hbelow hj) hd
          omega
      · rw [List.getElem?_append_right (by rw [length_labels]; omega), length_labels] at hi
        rw [if_neg hib, ihn hi ha, modifyWhere_none (none_of fun j d hj hd => ?_)]
        · have hlt := (List.getElem?_eq_some_iff.mp hj).1
          have := hone _ d (hbelow hj) hd
          rw [length_labels] at hlt
          omega
        · intro j d hj hd
          have := hone _ d (hnext hj) hd
          omega

/-! ### Depths -/

/-- What is inherited says the depth. -/
structure Depths (down : γ → α → γ) (row : γ → α → β) (dep : γ → Nat) (depth : β → Nat) : Prop where
  row : ∀ c a, depth (row c a) = dep c
  down : ∀ c a, dep (down c a) = dep c + 1

variable {dep : γ → Nat} {depth : β → Nat}

theorem Depths.le (hd : Depths down row dep depth) : ∀ (h : Hedge α) (c : γ),
    ∀ r ∈ flatten down row c h, dep c ≤ depth r := by
  intro h
  induction h with
  | nil => intro c r hr; simp at hr
  | cons a below next ihb ihn =>
    intro c r hr
    rw [flatten_cons, List.mem_cons, List.mem_append] at hr
    rcases hr with rfl | hr | hr
    · exact Nat.le_of_eq (hd.row c a).symm
    · have := ihb _ r hr
      have := hd.down c a
      omega
    · exact ihn _ r hr

theorem Depths.head (hd : Depths down row dep depth) (h : Hedge α) (c : γ) :
    ∀ r ∈ (flatten down row c h).head?, depth r = dep c := by
  intro r hr
  cases h with
  | nil => simp at hr
  | cons a below next =>
    rw [flatten_cons, List.head?_cons, Option.mem_some_iff] at hr
    rw [← hr, hd.row]

/-- Behind a subtree comes a row that is no deeper than its root. -/
theorem Depths.behind (hd : Depths down row dep depth) : ∀ {h : Hedge α} {c c' : γ} {i : Nat} {a : α}
    {below : Hedge α}, h.node? down c i = some (c', a, below) →
    dep c ≤ dep c' ∧
      ∀ r ∈ (flatten down row c h)[i + 1 + below.size]?, depth r ≤ dep c' := by
  intro h
  induction h with
  | nil => intro c c' i a below hn; simp [node?] at hn
  | cons b below' next ihb ihn =>
    intro c c' i a below hn
    cases i with
    | zero =>
      rw [node?, Option.some.injEq, Prod.mk.injEq, Prod.mk.injEq] at hn
      obtain ⟨rfl, rfl, rfl⟩ := hn
      refine ⟨Nat.le_refl _, fun r hr => ?_⟩
      rw [flatten_cons, Nat.zero_add, Nat.add_comm, List.getElem?_cons_succ,
        List.getElem?_append_right (Nat.le_of_eq (length_flatten _ _)), length_flatten, Nat.sub_self,
        ← List.head?_eq_getElem?] at hr
      exact Nat.le_of_eq (hd.head _ _ r hr)
    | succ i =>
      rw [node?] at hn
      rw [flatten_cons, show i + 1 + 1 + below.size = (i + 1 + below.size) + 1 by omega,
        List.getElem?_cons_succ]
      by_cases hib : i < below'.size
      · rw [if_pos hib] at hn
        obtain ⟨hle, hih⟩ := ihb hn
        have hdown := hd.down c b
        refine ⟨by omega, fun r hr => ?_⟩
        rcases Nat.lt_or_ge (i + 1 + below.size) below'.size with hlt | hge
        · rw [List.getElem?_append_left (by rwa [length_flatten])] at hr
          exact hih r hr
        · -- The subtree is the last one below `b`, and the rows next to `b` follow.
          have hsize : i + 1 + below.size ≤ below'.size := by
            obtain ⟨before, behind, hlen, heq, -⟩ := exists_split row hn
            have := congrArg List.length heq
            rw [length_flatten, List.length_append, List.length_append, length_flatten, size,
              size] at this
            omega
          rw [List.getElem?_append_right (by rw [length_flatten]; omega), length_flatten,
            show i + 1 + below.size - below'.size = 0 by omega, ← List.head?_eq_getElem?] at hr
          have := hd.head _ _ r hr
          omega
      · rw [if_neg hib] at hn
        obtain ⟨hle, hih⟩ := ihn hn
        refine ⟨hle, fun r hr => ?_⟩
        rw [List.getElem?_append_right (by rw [length_flatten]; omega), length_flatten,
          show i + 1 + below.size - below'.size = i - below'.size + 1 + below.size by omega] at hr
        exact hih r hr

/-- The subtree of a node ends where the depths say. -/
theorem Depths.isEnd (hd : Depths down row dep depth) {c' : γ}
    (hn : h.node? down c i = some (c', a, below)) :
    PreOrder.IsEnd ((flatten down row c h).map depth) i (i + 1 + below.size) := by
  obtain ⟨before, behind, hlen, heq, -⟩ := exists_split row hn
  have htotal := congrArg List.length heq
  rw [length_flatten, List.length_append, List.length_append, length_flatten, size, size] at htotal
  have hroot : ((flatten down row c h).map depth)[i]? = some (dep c') := by
    rw [List.getElem?_map, getElem?_flatten hn, Option.map_some, hd.row]
  refine ⟨by omega, by rw [List.length_map, length_flatten]; omega, ?_, ?_⟩
  · intro j x y hij hj hx hy
    rw [hroot, Option.some.injEq] at hx
    subst hx
    rw [heq, List.getElem?_map, List.getElem?_append_right (by omega), flatten_cons,
      flatten_nil, List.append_nil, List.cons_append,
      show j - before.length = (j - i - 1) + 1 by omega, List.getElem?_cons_succ,
      List.getElem?_append_left (by rw [length_flatten]; omega)] at hy
    obtain ⟨r, hr, rfl⟩ := Option.map_eq_some_iff.mp hy
    have := hd.le _ _ r (List.mem_of_getElem? hr)
    have := hd.down c' a
    omega
  · intro x y hx hy
    rw [hroot, Option.some.injEq] at hx
    subst hx
    rw [List.getElem?_map] at hy
    obtain ⟨r, hr, rfl⟩ := Option.map_eq_some_iff.mp hy
    exact (hd.behind hn).2 r hr

/-! ### What holds at every node -/

section Nodes

variable {δ : Type*} {g : α → δ} {P Q : γ → α → List δ → Prop}

/-- The labels of the first level. -/
def tops : Hedge α → List α
  | nil => []
  | cons a _ next => a :: next.tops

@[simp] theorem tops_append (h g : Hedge α) : (h.append g).tops = h.tops ++ g.tops := by
  induction h with
  | nil => rfl
  | cons a below next _ ihn => rw [append, tops, tops, ihn, List.cons_append]

@[simp] theorem tops_leaves (as : List α) : (leaves as).tops = as := by
  induction as with
  | nil => rfl
  | cons a as ih => rw [leaves, tops, ih]

/-- `P` holds at every node, of what it inherits, its label, and what `g` shows
of its children. -/
def All (down : γ → α → γ) (g : α → δ) (P : γ → α → List δ → Prop) : γ → Hedge α → Prop
  | _, nil => True
  | c, cons a below next =>
    P c a (below.tops.map g) ∧ below.All down g P (down c a) ∧ next.All down g P c

theorem All.imp : ∀ {h : Hedge α} {c : γ}, h.All down g P c →
    (∀ a ∈ h.labels, ∀ c ds, P c a ds → Q c a ds) → h.All down g Q c := by
  intro h
  induction h with
  | nil => intro c _ _; trivial
  | cons a below next ihb ihn =>
    intro c hall himp
    obtain ⟨ha, hb, hn⟩ := hall
    refine ⟨himp a (by simp [labels]) c _ ha, ihb hb fun b hb => ?_, ihn hn fun b hb => ?_⟩
    · exact himp b (by simp [labels, hb])
    · exact himp b (by simp [labels, hb])

theorem All.append : ∀ {h g' : Hedge α}, h.All down g P c → g'.All down g P c →
    (h.append g').All down g P c := by
  intro h
  induction h with
  | nil => intro g' _ hg; exact hg
  | cons a below next _ ihn =>
    intro g' hall hg
    obtain ⟨ha, hb, hn⟩ := hall
    exact ⟨ha, hb, ihn hn hg⟩

theorem all_leaves {as : List α} (h : ∀ a ∈ as, P c a []) : (leaves as).All down g P c := by
  induction as with
  | nil => trivial
  | cons a as ih => exact ⟨h a (by simp), trivial, ih fun b hb => h b (by simp [hb])⟩

theorem All.node : ∀ {h : Hedge α} {c c' : γ} {i : Nat} {a : α} {below : Hedge α},
    h.All down g P c → h.node? down c i = some (c', a, below) →
    P c' a (below.tops.map g) ∧ below.All down g P (down c' a) := by
  intro h
  induction h with
  | nil => intro c c' i a below _ hn; simp [node?] at hn
  | cons b below' next ihb ihn =>
    intro c c' i a below hall hn
    obtain ⟨hb, hbelow, hnext⟩ := hall
    cases i with
    | zero =>
      rw [node?, Option.some.injEq, Prod.mk.injEq, Prod.mk.injEq] at hn
      obtain ⟨rfl, rfl, rfl⟩ := hn
      exact ⟨hb, hbelow⟩
    | succ i =>
      rw [node?] at hn
      by_cases hib : i < below'.size
      · rw [if_pos hib] at hn
        exact ihb hbelow hn
      · rw [if_neg hib] at hn
        exact ihn hnext hn

/-- What holds of the first level and of the children of every node holds of all
of them. -/
theorem labels_of_all {R : δ → Prop} : ∀ {h : Hedge α} {c : γ}, (∀ d ∈ h.tops.map g, R d) →
    h.All down g (fun _ _ ds => ∀ d ∈ ds, R d) c → ∀ a ∈ h.labels, R (g a) := by
  intro h
  induction h with
  | nil => intro c _ _ a ha; exact absurd ha List.not_mem_nil
  | cons b below next ihb ihn =>
    intro c htops hall a ha
    obtain ⟨hb, hbelow, hnext⟩ := hall
    rw [labels, List.mem_cons, List.mem_append] at ha
    rcases ha with rfl | ha | ha
    · exact htops _ (by simp [tops])
    · exact ihb hb hbelow a ha
    · exact ihn (fun d hd => htops d (by simp [tops, hd])) hnext a ha

/-- A change that shows the same of its node shows the same of the level. -/
theorem tops_modifyAt (hg : ∀ a below, g (f a below).1 = g a) : ∀ (h : Hedge α) (i : Nat),
    (h.modifyAt f i).tops.map g = h.tops.map g := by
  intro h
  induction h with
  | nil => intro i; rfl
  | cons a below next _ ihn =>
    intro i
    cases i with
    | zero => rw [modifyAt, tops, tops, List.map_cons, List.map_cons, hg]
    | succ i =>
      rw [modifyAt]
      split
      · rfl
      · rw [tops, tops, List.map_cons, List.map_cons, ihn]

/-- **A node is changed.**  What holds at it has to be shown, and that at the
other nodes what held goes over to what shall hold. -/
theorem All.modifyAt (hg : ∀ a below, g (f a below).1 = g a) : ∀ {h : Hedge α} {c : γ} {i : Nat},
    h.All down g P c →
    (∀ j a, h.labels[j]? = some a → j ≠ i → ∀ c ds, P c a ds → Q c a ds) →
    (∀ c' a below, h.node? down c i = some (c', a, below) → P c' a (below.tops.map g) →
      below.All down g Q (down c' a) → Q c' (f a below).1 ((f a below).2.tops.map g) ∧
        (f a below).2.All down g Q (down c' (f a below).1)) →
    (h.modifyAt f i).All down g Q c := by
  intro h
  induction h with
  | nil => intro c i _ _ _; trivial
  | cons a below next ihb ihn =>
    intro c i hall himp hnode
    obtain ⟨ha, hb, hn⟩ := hall
    have hbelow {j : Nat} {d : α} (hj : below.labels[j]? = some d) :
        (cons a below next).labels[j + 1]? = some d := by
      have hlt := (List.getElem?_eq_some_iff.mp hj).1
      rwa [labels, List.getElem?_cons_succ, List.getElem?_append_left hlt]
    have hnext {j : Nat} {d : α} (hj : next.labels[j]? = some d) :
        (cons a below next).labels[below.size + j + 1]? = some d := by
      rwa [labels, List.getElem?_cons_succ,
        List.getElem?_append_right (by rw [length_labels]; omega), length_labels,
        Nat.add_sub_cancel_left]
    cases i with
    | zero =>
      have hb' := hb.imp fun d hd => by
        obtain ⟨j, hj⟩ := List.mem_iff_getElem?.mp hd
        exact himp (j + 1) d (hbelow hj) (by omega)
      have hn' := hn.imp fun d hd => by
        obtain ⟨j, hj⟩ := List.mem_iff_getElem?.mp hd
        exact himp _ d (hnext hj) (by omega)
      obtain ⟨h₁, h₂⟩ := hnode c a below rfl ha hb'
      exact ⟨h₁, h₂, hn'⟩
    | succ i =>
      have ha' := himp 0 a (by simp [labels]) (by omega) c
      rw [Hedge.modifyAt]
      by_cases hib : i < below.size
      · rw [if_pos hib]
        refine ⟨?_, ihb hb ?_ ?_, hn.imp fun d hd => ?_⟩
        · rw [tops_modifyAt hg]
          exact ha' _ ha
        · intro j d hj hji
          exact himp (j + 1) d (hbelow hj) (by omega)
        · intro c' a' below' hn
          exact hnode c' a' below' (by rw [node?, if_pos hib, hn])
        · obtain ⟨j, hj⟩ := List.mem_iff_getElem?.mp hd
          exact himp _ d (hnext hj) (by omega)
      · rw [if_neg hib]
        refine ⟨ha' _ ha, hb.imp fun d hd => ?_, ihn hn ?_ ?_⟩
        · obtain ⟨j, hj⟩ := List.mem_iff_getElem?.mp hd
          have := (List.getElem?_eq_some_iff.mp hj).1
          rw [length_labels] at this
          exact himp (j + 1) d (hbelow hj) (by omega)
        · intro j d hj hji
          exact himp _ d (hnext hj) (by omega)
        · intro c' a' below' hn
          exact hnode c' a' below' (by rw [node?, if_neg hib, hn])

/-- The rows of the first level are those that are no deeper. -/
theorem Depths.level (hd : Depths down row dep depth) : ∀ (h : Hedge α) (c : γ),
    (flatten down row c h).filter (fun r => depth r = dep c) = h.tops.map (row c) := by
  intro h
  induction h with
  | nil => intro c; rfl
  | cons a below next _ ihn =>
    intro c
    have hbelow : (flatten down row (down c a) below).filter (fun r => depth r = dep c) = [] := by
      rw [List.filter_eq_nil_iff]
      intro r hr
      have := hd.le below _ r hr
      have := hd.down c a
      simp only [decide_eq_true_eq]
      omega
    rw [flatten_cons, List.filter_cons_of_pos (by simp [hd.row]), List.filter_append, hbelow,
      List.nil_append, ihn, tops, List.map_cons]

end Nodes

/-! ### Nodes by their names -/

section Names

variable {ν : Type*} {name : α → ν} {addr : List ν}

/-- The names on the way to each node. -/
def addresses (name : α → ν) : List ν → Hedge α → List (List ν) :=
  flatten (fun addr a => addr ++ [name a]) fun addr a => addr ++ [name a]

theorem mem_addresses : ∀ {h : Hedge α} {addr x : List ν}, x ∈ h.addresses name addr →
    ∃ a ∈ h.tops, addr ++ [name a] <+: x := by
  intro h
  induction h with
  | nil => intro addr x hx; exact absurd hx List.not_mem_nil
  | cons b below next ihb ihn =>
    intro addr x hx
    rw [addresses, flatten_cons, List.mem_cons, List.mem_append] at hx
    rcases hx with rfl | hx | hx
    · exact ⟨b, by simp [tops], List.prefix_rfl⟩
    · obtain ⟨a, -, hpre⟩ := ihb hx
      exact ⟨b, by simp [tops], (List.prefix_append _ _).trans hpre⟩
    · obtain ⟨a, ha, hpre⟩ := ihn hx
      exact ⟨a, by simp [tops, ha], hpre⟩

/-- **Names tell nodes apart** if the children of each node have different
ones. -/
theorem nodup_addresses {δ : Type*} {g : α → δ} {key : δ → ν} (hname : ∀ a, name a = key (g a)) :
    ∀ {h : Hedge α} {c : γ} {addr : List ν}, ((h.tops.map g).map key).Nodup →
    h.All down g (fun _ _ ds => (ds.map key).Nodup) c → (h.addresses name addr).Nodup := by
  intro h
  induction h with
  | nil => intro c addr _ _; exact List.nodup_nil
  | cons a below next ihb ihn =>
    intro c addr htops hall
    obtain ⟨ha, hb, hn⟩ := hall
    rw [tops, List.map_cons, List.map_cons, List.nodup_cons, ← hname, List.map_map] at htops
    have hbelow {x : List ν} (hx : x ∈ below.addresses name (addr ++ [name a])) :
        addr ++ [name a] <+: x ∧ (addr ++ [name a]).length < x.length := by
      obtain ⟨b, -, hpre⟩ := mem_addresses hx
      have hlen := hpre.length_le
      rw [List.length_append, List.length_singleton] at hlen
      exact ⟨(List.prefix_append _ _).trans hpre, by omega⟩
    have hnext {x : List ν} (hx : x ∈ next.addresses name addr) : ¬ addr ++ [name a] <+: x := by
      intro hpre
      obtain ⟨b, hb, hpre'⟩ := mem_addresses hx
      have heq : addr ++ [name a] = addr ++ [name b] :=
        (List.prefix_of_prefix_length_le hpre hpre' (by simp)).eq_of_length (by simp)
      rw [List.append_cancel_left_eq, List.cons.injEq] at heq
      exact htops.1 (List.mem_map.mpr ⟨b, hb, (hname b).symm.trans heq.1.symm⟩)
    rw [addresses, flatten_cons, List.nodup_cons, List.nodup_append, List.mem_append, not_or]
    refine ⟨⟨fun hx => ?_, fun hx => hnext hx List.prefix_rfl⟩, ihb ha hb,
      ihn (by rw [List.map_map]; exact htops.2) hn,
      fun x hx y hy hxy => hnext (hxy ▸ hy) (hbelow hx).1⟩
    have := (hbelow hx).2
    omega

end Names

end Hedge

end FilePeeker
