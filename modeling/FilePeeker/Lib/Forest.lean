import FilePeeker.Lib.Count
import Mathlib.Data.List.Nodup

/-!
# A forest whose nodes count their live children

Each node lists its children and keeps a count of those still live.  Nodes are
added under a parent or as a root, settle one at a time, and leave together
with everything below them.  `Forest.Ok` says that the lists and the counts are
right; `Ok.add`, `Ok.settle` and `Ok.pruned` that each operation keeps them so,
whichever order the operations come in.
-/

namespace FilePeeker

/-- What a forest holds of one node. -/
@[ext] structure Node (ι : Type*) where
  parent : Option ι
  children : List ι
  liveChildren : Nat
  live : Bool
deriving DecidableEq

abbrev Forest (ι : Type*) := ι → Option (Node ι)

namespace Forest

variable {ι : Type*} [DecidableEq ι] {f f' : Forest ι} {i p c root : ι} {n m : Node ι}

/-- The node is held, and live. -/
def isLive (f : Forest ι) (i : ι) : Bool := (f i).any Node.live

/-- The node is held, and has this parent. -/
def isChild (f : Forest ι) (p i : ι) : Prop := ∃ n, f i = some n ∧ n.parent = some p

/-- Adds a live node, under a parent or as a root. -/
def add (f : Forest ι) (i : ι) (parent : Option ι) : Forest ι := fun x =>
  if x = i then some ⟨parent, [], 0, true⟩
  else if parent = some x then
    (f x).map fun n => { n with children := n.children ++ [i], liveChildren := n.liveChildren + 1 }
  else f x

/-- The node settles, and its parent counts one live child fewer. -/
def settle (f : Forest ι) (i : ι) : Forest ι := fun x =>
  (f x).map fun n =>
    { n with
      live := n.live && decide (x ≠ i)
      liveChildren :=
        if (f i).bind Node.parent = some x then n.liveChildren - 1 else n.liveChildren }

/-- `f'` is `f` without some nodes: the root, and with each node everything
below it, but nothing else. -/
structure Pruned (f f' : Forest ι) (root : ι) : Prop where
  keep : ∀ x, f' x = none ∨ f' x = f x
  gone : f' root = none
  down : ∀ q n, f q = some n → f' q = none → ∀ c ∈ n.children, f' c = none
  up : ∀ x, (f x).isSome → f' x = none →
    x = root ∨ ∃ q n, f q = some n ∧ f' q = none ∧ x ∈ n.children

/-- Every list of children and every count is right. -/
structure Ok (f : Forest ι) : Prop where
  nodup : ∀ p n, f p = some n → n.children.Nodup
  child : ∀ p n c, f p = some n → c ∈ n.children → f.isChild p c
  listed : ∀ c p n, f.isChild p c → f p = some n → c ∈ n.children
  count : ∀ p n, f p = some n → n.liveChildren = n.children.countP f.isLive

omit [DecidableEq ι] in
theorem Ok.empty : Ok (fun _ => none : Forest ι) := by
  constructor <;> simp

omit [DecidableEq ι] in
/-- A live child is counted. -/
theorem Ok.liveChildren_pos (hok : Ok f) (hc : f.isChild p c) (hl : f.isLive c = true)
    (hp : f p = some n) : 0 < n.liveChildren := by
  rw [hok.count p n hp]
  exact List.countP_pos_iff.mpr ⟨c, hok.listed c p n hc hp, hl⟩

omit [DecidableEq ι] in
/-- Where no child is counted, none is live. -/
theorem Ok.not_live_of_zero (hok : Ok f) (hc : f.isChild p c) (hp : f p = some n)
    (h0 : n.liveChildren = 0) : f.isLive c = false := by
  cases hl : f.isLive c with
  | false => rfl
  | true =>
    have := hok.liveChildren_pos hc hl hp
    omega

omit [DecidableEq ι] in
/-- Where some child is counted, one of those listed is live. -/
theorem Ok.exists_live (hok : Ok f) (hp : f p = some n) (h : 0 < n.liveChildren) :
    ∃ c ∈ n.children, f.isLive c = true := by
  rw [hok.count p n hp] at h
  exact List.countP_pos_iff.mp h

omit [DecidableEq ι] in
/-- A child is listed once. -/
theorem Ok.count_listed (hok : Ok f) [BEq ι] [LawfulBEq ι] (hc : f.isChild p c)
    (hp : f p = some n) : n.children.count c = 1 :=
  List.count_eq_one_of_mem (hok.nodup p n hp) (hok.listed c p n hc hp)

/-! ### Adding -/

theorem add_self (parent : Option ι) : f.add i parent i = some ⟨parent, [], 0, true⟩ := if_pos rfl

/-- The nodes there were, after another was added. -/
theorem add_of_ne (parent : Option ι) {x : ι} (hx : x ≠ i) :
    f.add i parent x = if parent = some x then
      (f x).map fun n =>
        { n with children := n.children ++ [i], liveChildren := n.liveChildren + 1 }
      else f x := if_neg hx

theorem add_inv {parent : Option ι} {x : ι} (hx : x ≠ i) (h : f.add i parent x = some n) :
    ∃ n₀, f x = some n₀ ∧ n.parent = n₀.parent ∧ n.live = n₀.live ∧
      (parent = some x ∧ n.children = n₀.children ++ [i] ∧ n.liveChildren = n₀.liveChildren + 1 ∨
        parent ≠ some x ∧ n = n₀) := by
  rw [add_of_ne parent hx] at h
  split at h
  · rename_i hp
    obtain ⟨n₀, hn₀, rfl⟩ := Option.map_eq_some_iff.mp h
    exact ⟨n₀, hn₀, rfl, rfl, .inl ⟨hp, rfl, rfl⟩⟩
  · rename_i hp
    exact ⟨n, h, rfl, rfl, .inr ⟨hp, rfl⟩⟩

theorem add_isLive (parent : Option ι) {x : ι} (hx : x ≠ i) :
    (f.add i parent).isLive x = f.isLive x := by
  unfold isLive
  rw [add_of_ne parent hx]
  split
  · cases f x <;> rfl
  · rfl

theorem add_isChild (parent : Option ι) {q x : ι} (hx : x ≠ i) :
    (f.add i parent).isChild q x ↔ f.isChild q x := by
  unfold isChild
  rw [add_of_ne parent hx]
  split
  · cases f x <;> simp
  · rfl

/-- **Adding a fresh node keeps lists and counts right.** -/
theorem Ok.add (hok : Ok f) {parent : Option ι} (hi : f i = none)
    (hfresh : ∀ x, ¬f.isChild i x) (hne : parent ≠ some i) : Ok (f.add i parent) := by
  -- a fresh node is nobody's child yet
  have hnot : ∀ q n, f q = some n → i ∉ n.children := by
    intro q n hq hmem
    obtain ⟨m, hm, _⟩ := hok.child q n i hq hmem
    rw [hi] at hm
    cases hm
  have hself : ∀ n, f.add i parent i = some n → n = ⟨parent, [], 0, true⟩ := by
    intro n h
    rw [add_self] at h
    exact (Option.some.inj h).symm
  refine ⟨?_, ?_, ?_, ?_⟩
  · intro q n hq
    by_cases hqi : q = i
    · subst hqi
      rw [hself n hq]
      exact List.nodup_nil
    · obtain ⟨n₀, hn₀, _, _, ⟨_, hc, _⟩ | ⟨_, rfl⟩⟩ := add_inv hqi hq
      · rw [hc]
        exact List.nodup_append.mpr ⟨hok.nodup q n₀ hn₀, List.nodup_singleton i,
          fun y hy z hz hyz => hnot q n₀ hn₀ (by rw [← List.mem_singleton.mp hz, ← hyz]; exact hy)⟩
      · exact hok.nodup q n hn₀
  · intro q n c hq hc
    by_cases hqi : q = i
    · subst hqi
      rw [hself n hq] at hc
      cases hc
    · obtain ⟨n₀, hn₀, _, _, ⟨hp, hch, _⟩ | ⟨_, rfl⟩⟩ := add_inv hqi hq
      · rw [hch] at hc
        rcases List.mem_append.mp hc with hc | hc
        · have hci : c ≠ i := fun h => hnot q n₀ hn₀ (h ▸ hc)
          exact (add_isChild parent hci).mpr (hok.child q n₀ c hn₀ hc)
        · obtain rfl := List.mem_singleton.mp hc
          exact ⟨_, add_self parent, hp⟩
      · have hci : c ≠ i := fun h => hnot q n hn₀ (h ▸ hc)
        exact (add_isChild parent hci).mpr (hok.child q n c hn₀ hc)
  · intro c q n hc hq
    by_cases hci : c = i
    · subst hci
      obtain ⟨m, hm, hpar⟩ := hc
      rw [hself m hm] at hpar
      have hqc : q ≠ c := fun h => hne (h ▸ hpar)
      obtain ⟨n₀, hn₀, _, _, ⟨_, hch, _⟩ | ⟨hp, _⟩⟩ := add_inv hqc hq
      · rw [hch]
        exact List.mem_append_right _ (List.mem_singleton.mpr rfl)
      · exact absurd hpar hp
    · have hc₀ := (add_isChild parent hci).mp hc
      by_cases hqi : q = i
      · subst hqi
        exact absurd hc₀ (hfresh c)
      · obtain ⟨n₀, hn₀, _, _, ⟨_, hch, _⟩ | ⟨_, rfl⟩⟩ := add_inv hqi hq
        · rw [hch]
          exact List.mem_append_left _ (hok.listed c q n₀ hc₀ hn₀)
        · exact hok.listed c q n hc₀ hn₀
  · intro q n hq
    have hsame : ∀ l : List ι, i ∉ l → l.countP (f.add i parent).isLive = l.countP f.isLive :=
      fun l hl => countP_eq_of_same fun x hx => add_isLive parent fun h => hl (h ▸ hx)
    by_cases hqi : q = i
    · subst hqi
      rw [hself n hq]
      rfl
    · obtain ⟨n₀, hn₀, _, _, ⟨_, hch, hlive⟩ | ⟨_, rfl⟩⟩ := add_inv hqi hq
      · rw [hch, hlive, hok.count q n₀ hn₀, List.countP_append, hsame _ (hnot q n₀ hn₀),
          List.countP_singleton, isLive, add_self, Option.any_some, if_pos rfl]
      · rw [hok.count q n hn₀, hsame _ (hnot q n hn₀)]

/-! ### Settling -/

theorem settle_inv {x : ι} (h : f.settle i x = some n) :
    ∃ n₀, f x = some n₀ ∧ n.parent = n₀.parent ∧ n.children = n₀.children ∧
      n.live = (n₀.live && decide (x ≠ i)) ∧
      n.liveChildren =
        if (f i).bind Node.parent = some x then n₀.liveChildren - 1 else n₀.liveChildren := by
  obtain ⟨n₀, hn₀, rfl⟩ := Option.map_eq_some_iff.mp h
  exact ⟨n₀, hn₀, rfl, rfl, rfl, rfl⟩

theorem settle_isChild (q x : ι) : (f.settle i).isChild q x ↔ f.isChild q x := by
  unfold isChild settle
  cases f x <;> simp

theorem settle_isLive (x : ι) : (f.settle i).isLive x = (f.isLive x && decide (x ≠ i)) := by
  unfold isLive settle
  cases f x <;> simp

/-- **Settling a live node keeps lists and counts right**: where its parent is
held, it counted it. -/
theorem Ok.settle (hok : Ok f) (hi : f.isLive i = true) : Ok (f.settle i) := by
  refine ⟨?_, ?_, ?_, ?_⟩
  · intro q n hq
    obtain ⟨n₀, hn₀, _, hc, _, _⟩ := settle_inv hq
    rw [hc]
    exact hok.nodup q n₀ hn₀
  · intro q n c hq hc
    obtain ⟨n₀, hn₀, _, hch, _, _⟩ := settle_inv hq
    rw [hch] at hc
    exact (settle_isChild q c).mpr (hok.child q n₀ c hn₀ hc)
  · intro c q n hc hq
    obtain ⟨n₀, hn₀, _, hch, _, _⟩ := settle_inv hq
    rw [hch]
    exact hok.listed c q n₀ ((settle_isChild q c).mp hc) hn₀
  · intro q n hq
    obtain ⟨n₀, hn₀, _, hch, _, hlive⟩ := settle_inv hq
    have hother : ∀ x, x ≠ i → (f.settle i).isLive x = f.isLive x := by
      intro x hx
      rw [settle_isLive]
      simp [hx]
    have hself : (f.settle i).isLive i = false := by
      rw [settle_isLive]
      simp
    rw [hch, hlive, hok.count q n₀ hn₀]
    obtain ⟨ni, hni, _⟩ := (Option.any_eq_true ..).mp hi
    by_cases hp : (f i).bind Node.parent = some q
    · have hchild : f.isChild q i := ⟨ni, hni, by rw [hni] at hp; exact hp⟩
      have := countP_pred_of_loss (hok.nodup q n₀ hn₀) (hok.listed i q n₀ hchild hn₀) hother hi
        hself
      rw [if_pos hp]
      omega
    · have hnot : i ∉ n₀.children := by
        intro hmem
        obtain ⟨m, hm, hpar⟩ := hok.child q n₀ i hn₀ hmem
        exact hp (by rw [hm]; exact hpar)
      rw [if_neg hp]
      exact (countP_congr_of_notMem hnot hother).symm

/-! ### Leaving -/

omit [DecidableEq ι] in
theorem Pruned.of_some (h : Pruned f f' root) {x : ι} (hx : f' x = some n) : f x = some n := by
  rcases h.keep x with h' | h'
  · rw [h'] at hx; cases hx
  · rw [← h', hx]

omit [DecidableEq ι] in
/-- The children of a node that stays stay. -/
theorem Pruned.child_stays (h : Pruned f f' root) (hok : Ok f)
    (hroot : ∀ n, f root = some n → n.parent = none) (hp : f' p = some n) (hc : c ∈ n.children) :
    f' c = f c := by
  rcases h.keep c with hgone | hsame
  · obtain ⟨m, hm, hpar⟩ := hok.child p n c (h.of_some hp) hc
    exfalso
    rcases h.up c (by rw [hm]; rfl) hgone with rfl | ⟨q, nq, hq, hqgone, hcq⟩
    · rw [hroot m hm] at hpar
      cases hpar
    · -- the one it went with is its parent, which stays
      obtain ⟨m', hm', hpar'⟩ := hok.child q nq c hq hcq
      rw [hm] at hm'
      cases hm'
      rw [hpar] at hpar'
      cases hpar'
      rw [hp] at hqgone
      cases hqgone
  · exact hsame

omit [DecidableEq ι] in
/-- **What is left after a tree left has its lists and counts right.** -/
theorem Ok.pruned (hok : Ok f) (h : Pruned f f' root)
    (hroot : ∀ n, f root = some n → n.parent = none) : Ok f' := by
  have hstay : ∀ {p n c}, f' p = some n → c ∈ n.children → f' c = f c :=
    fun hp hc => h.child_stays hok hroot hp hc
  refine ⟨?_, ?_, ?_, ?_⟩
  · intro p n hp
    exact hok.nodup p n (h.of_some hp)
  · intro p n c hp hc
    obtain ⟨m, hm, hpar⟩ := hok.child p n c (h.of_some hp) hc
    exact ⟨m, by rw [hstay hp hc]; exact hm, hpar⟩
  · rintro c p n ⟨m, hm, hpar⟩ hp
    exact hok.listed c p n ⟨m, h.of_some hm, hpar⟩ (h.of_some hp)
  · intro p n hp
    rw [hok.count p n (h.of_some hp)]
    exact (countP_eq_of_same fun c hc => by rw [isLive, isLive, hstay hp hc]).symm

end Forest

end FilePeeker
