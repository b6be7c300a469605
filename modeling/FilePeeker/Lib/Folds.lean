import FilePeeker.Lib.PreOrder

/-!
# Folded rows

Of rows in pre-order some are folded.  A folded row is seen shut, and what is
beneath it is hidden.  `shown` is what is seen; it goes through the rows once, and
keeps the depth of the row that hides what comes next.

Rows that go in beneath a folded row are not seen (`shown_splice_hidden`), those
that go in elsewhere are seen where they go in (`shown_splice`), and it is the same
whether a row is folded or shut with nothing beneath it (`shown_shut`).
-/

namespace FilePeeker

open PreOrder

structure Folds (α : Type*) where
  depth : α → Nat
  folded : α → Bool
  shut : α → α

namespace Folds

variable {α : Type*} (f : Folds α)

/-- The row is beneath the one that was folded last. -/
def hides (s : Option Nat) (a : α) : Bool := s.any fun d => d < f.depth a

/-- What hides the rows behind this one. -/
def next (s : Option Nat) (a : α) : Option Nat :=
  if f.hides s a then s else if f.folded a then some (f.depth a) else none

def after (s : Option Nat) (l : List α) : Option Nat := l.foldl f.next s

/-- A row as it is seen. -/
def seen (a : α) : α := if f.folded a then f.shut a else a

def shown : Option Nat → List α → List α
  | _, [] => []
  | s, a :: l => if f.hides s a then shown (f.next s a) l else f.seen a :: shown (f.next s a) l

def hidden : Option Nat → List α → List α
  | _, [] => []
  | s, a :: l => if f.hides s a then a :: hidden (f.next s a) l else hidden (f.next s a) l

/-- Where what comes at `k` is seen. -/
def place (l : List α) (k : Nat) : Nat := (f.shown none (l.take k)).length

/-- Row `i` is seen. -/
def IsShown (l : List α) (i : Nat) : Prop :=
  ∀ a ∈ l[i]?, f.hides (f.after none (l.take i)) a = false

variable {f} {s : Option Nat} {a b : α} {l l' new pre inside post : List α} {d i j k x : Nat}

theorem hides_none : f.hides none a = false := rfl

theorem hides_some : f.hides (some x) a ↔ x < f.depth a := by
  simp only [hides, Option.any_some, decide_eq_true_eq]

theorem not_hides (h : ∀ x ∈ s, f.depth a ≤ x) : f.hides s a = false := by
  cases s with
  | none => rfl
  | some x =>
    have := h x rfl
    rw [← Bool.not_eq_true, hides_some]
    omega

theorem next_of_shown (h : f.hides s a = false) : f.next s a = f.next none a := by
  rw [next, next, h, hides_none, if_neg Bool.false_ne_true, if_neg Bool.false_ne_true]

theorem after_append : f.after s (l ++ l') = f.after (f.after s l) l' := List.foldl_append

theorem shown_append : ∀ (l l' : List α) (s : Option Nat),
    f.shown s (l ++ l') = f.shown s l ++ f.shown (f.after s l) l' := by
  intro l
  induction l with
  | nil => intro l' s; rfl
  | cons a l ih =>
    intro l' s
    rw [List.cons_append, shown, shown, ih, after, after, List.foldl_cons]
    split <;> rfl

theorem hidden_append : ∀ (l l' : List α) (s : Option Nat),
    f.hidden s (l ++ l') = f.hidden s l ++ f.hidden (f.after s l) l' := by
  intro l
  induction l with
  | nil => intro l' s; rfl
  | cons a l ih =>
    intro l' s
    rw [List.cons_append, hidden, hidden, ih, after, after, List.foldl_cons]
    split <;> rfl

/-! ### Rows that are all seen, or all hidden -/

theorem all_shown (h : ∀ a ∈ l, f.folded a = false) : f.shown none l = l ∧ f.after none l = none ∧
    f.hidden none l = [] := by
  induction l with
  | nil => exact ⟨rfl, rfl, rfl⟩
  | cons a l ih =>
    have ha := h a List.mem_cons_self
    have hnext : f.next none a = none := by
      rw [next, hides_none, ha]
      rfl
    obtain ⟨hshown, hafter, hhidden⟩ := ih fun b hb => h b (List.mem_cons_of_mem a hb)
    refine ⟨?_, ?_, ?_⟩
    · rw [shown, hides_none, hnext, hshown, seen, ha]
      rfl
    · rw [after, List.foldl_cons, hnext]
      exact hafter
    · rw [hidden, hides_none, hnext, hhidden]
      rfl

theorem all_hidden (h : ∀ a ∈ l, x < f.depth a) : f.shown (some x) l = [] ∧
    f.after (some x) l = some x ∧ f.hidden (some x) l = l := by
  induction l with
  | nil => exact ⟨rfl, rfl, rfl⟩
  | cons a l ih =>
    have ha : f.hides (some x) a = true := hides_some.mpr (h a List.mem_cons_self)
    have hnext : f.next (some x) a = some x := by rw [next, if_pos ha]
    obtain ⟨hshown, hafter, hhidden⟩ := ih fun b hb => h b (List.mem_cons_of_mem a hb)
    refine ⟨?_, ?_, ?_⟩
    · rw [shown, if_pos ha, hnext, hshown]
    · rw [after, List.foldl_cons, hnext]
      exact hafter
    · rw [hidden, if_pos ha, hnext, hhidden]

/-- What hides rows is at its end where a row is not deeper. -/
theorem of_head (h : ∀ a ∈ l.head?, ∀ x ∈ s, f.depth a ≤ x) :
    f.shown s l = f.shown none l ∧ f.hidden s l = f.hidden none l := by
  cases l with
  | nil => exact ⟨rfl, rfl⟩
  | cons a l =>
    have ha : f.hides s a = false := not_hides (h a rfl)
    rw [shown, shown, hidden, hidden, ha, hides_none, next_of_shown ha]
    exact ⟨rfl, rfl⟩

/-! ### Rows that go in -/

/-- Rows that are beneath no folded row are seen where they go in. -/
theorem splice_shown (hin : ∀ x ∈ f.after none (l.take k), d ≤ x)
    (hnew : ∀ a ∈ new, f.depth a = d ∧ f.folded a = false)
    (hbehind : ∀ a ∈ l[k]?, f.depth a ≤ d) :
    f.shown none (splice k new l) =
        f.shown none (l.take k) ++ new ++ f.shown (f.after none (l.take k)) (l.drop k) ∧
      f.hidden none (splice k new l) = f.hidden none l := by
  generalize hs : f.after none (l.take k) = s at *
  have hhead : ∀ a ∈ (l.drop k).head?, ∀ x ∈ s, f.depth a ≤ x := by
    intro a ha x hx
    rw [List.head?_drop] at ha
    exact Nat.le_trans (hbehind a ha) (hin x hx)
  have hold : f.hidden none l = f.hidden none (l.take k) ++ f.hidden none (l.drop k) := by
    conv_lhs => rw [← List.take_append_drop k l]
    rw [hidden_append, hs, (of_head hhead).2]
  rw [splice, shown_append, shown_append, hidden_append, hidden_append, after_append, hs, hold]
  cases new with
  | nil =>
    refine ⟨rfl, ?_⟩
    show _ ++ [] ++ f.hidden s (l.drop k) = _
    rw [(of_head hhead).2, List.append_nil]
  | cons b new =>
    -- The first new row ends what was hidden.
    obtain ⟨hshown, hafter, hhidden⟩ := all_shown fun a ha => (hnew a ha).2
    have hfirst : ∀ a ∈ (b :: new).head?, ∀ x ∈ s, f.depth a ≤ x := by
      intro a ha x hx
      rw [(hnew a (List.mem_of_mem_head? ha)).1]
      exact hin x hx
    have hend : f.after s (b :: new) = none := by
      rw [after, List.foldl_cons, next_of_shown (not_hides (hfirst b rfl))]
      exact hafter
    rw [(of_head hfirst).1, (of_head hfirst).2, hshown, hhidden, hend, ← (of_head hhead).1,
      List.append_nil]
    exact ⟨rfl, rfl⟩

theorem shown_eq (l : List α) (k : Nat) : f.shown none l =
    f.shown none (l.take k) ++ f.shown (f.after none (l.take k)) (l.drop k) := by
  conv_lhs => rw [← List.take_append_drop k l]
  rw [shown_append]

theorem place_mono (hjk : j ≤ k) : f.place l j ≤ f.place l k := by
  have htake : l.take k = l.take j ++ (l.take k).drop j := by
    conv_lhs => rw [← List.take_append_drop j (l.take k)]
    rw [List.take_take, Nat.min_eq_left hjk]
  rw [place, place, htake, shown_append, List.length_append]
  exact Nat.le_add_right _ _

theorem place_of_take (h : l'.take j = l.take j) : f.place l' j = f.place l j := by
  rw [place, place, h]

theorem splice_take (hk : k ≤ l.length) (hj : j ≤ k) : (splice k new l).take j = l.take j := by
  rw [splice, List.append_assoc, List.take_append_of_le_length (by rw [List.length_take]; omega),
    List.take_take, Nat.min_eq_left hj]

theorem take_splice (hk : k ≤ l.length) (hj : k ≤ j) :
    (splice k new l).take (j + new.length) = splice k new (l.take j) := by
  have hlen : (l.take k ++ new).length = k + new.length := by
    rw [List.length_append, List.length_take, Nat.min_eq_left hk]
  rw [splice, splice, List.take_take, Nat.min_eq_left hj, List.take_append, hlen,
    List.take_of_length_le (by omega), List.drop_take]
  congr 2
  omega

/-- **Rows that are beneath no folded row** are seen where they go in. -/
theorem shown_splice (hk : k ≤ l.length) (hin : ∀ x ∈ f.after none (l.take k), d ≤ x)
    (hnew : ∀ a ∈ new, f.depth a = d ∧ f.folded a = false)
    (hbehind : ∀ a ∈ l[k]?, f.depth a ≤ d) :
    f.shown none (splice k new l) = splice (f.place l k) new (f.shown none l) ∧
      f.hidden none (splice k new l) = f.hidden none l ∧
      (∀ j, j ≤ k → f.place (splice k new l) j = f.place l j) ∧
      ∀ j, k ≤ j → f.place (splice k new l) (j + new.length) = f.place l j + new.length := by
  have hshown {l : List α} (hin : ∀ x ∈ f.after none (l.take k), d ≤ x)
      (hbehind : ∀ a ∈ l[k]?, f.depth a ≤ d) :
      f.shown none (splice k new l) = splice (f.place l k) new (f.shown none l) := by
    rw [(splice_shown hin hnew hbehind).1, shown_eq l k, splice, place, List.take_left,
      List.drop_left]
  refine ⟨hshown hin hbehind, (splice_shown hin hnew hbehind).2,
    fun j hj => place_of_take (splice_take hk hj), fun j hj => ?_⟩
  have htake : (l.take j).take k = l.take k := by rw [List.take_take, Nat.min_eq_left hj]
  rw [place, take_splice hk hj, hshown (by rwa [htake])
    fun a ha => hbehind a (by rw [List.getElem?_take] at ha; split at ha <;> simp_all)]
  rw [length_splice, place]
  rw [shown_eq (l.take j) k, place, htake, List.length_append]
  exact Nat.le_add_right _ _

/-- **Rows that are beneath a folded row** are hidden. -/
theorem shown_splice_hidden (hk : k ≤ l.length) (hin : f.after none (l.take k) = some x)
    (hnew : ∀ a ∈ new, x < f.depth a) :
    f.shown none (splice k new l) = f.shown none l ∧
      (∀ a ∈ f.hidden none (splice k new l), a ∈ new ∨ a ∈ f.hidden none l) ∧
      (∀ j, j ≤ k → f.place (splice k new l) j = f.place l j) ∧
      ∀ j, k ≤ j → f.place (splice k new l) (j + new.length) = f.place l j := by
  obtain ⟨hno, hafter, hall⟩ := all_hidden hnew
  have hshown {l : List α} (hin : f.after none (l.take k) = some x) :
      f.shown none (splice k new l) = f.shown none l := by
    rw [splice, shown_append, shown_append, after_append, hin, hno, hafter, List.append_nil,
      shown_eq l k, hin]
  refine ⟨hshown hin, fun a ha => ?_, fun j hj => place_of_take (splice_take hk hj),
    fun j hj => ?_⟩
  · have hold : f.hidden none l =
        f.hidden none (l.take k) ++ f.hidden (some x) (l.drop k) := by
      conv_lhs => rw [← List.take_append_drop k l]
      rw [hidden_append, hin]
    rw [splice, hidden_append, hidden_append, after_append, hin, hall, hafter, List.append_assoc,
      List.mem_append, List.mem_append] at ha
    rw [hold, List.mem_append]
    tauto
  · have htake : (l.take j).take k = l.take k := by rw [List.take_take, Nat.min_eq_left hj]
    rw [place, take_splice hk hj, hshown (by rwa [htake]), place]

/-! ### A row that changes -/

theorem eq_split (h : l[i]? = some a) : l = l.take i ++ a :: l.drop (i + 1) := by
  obtain ⟨hlt, rfl⟩ := List.getElem?_eq_some_iff.mp h
  conv_lhs => rw [← List.take_append_drop i l, List.drop_eq_getElem_cons hlt]

/-- A row that is not seen is hidden. -/
theorem mem_hidden (h : l[i]? = some a) (hnot : ¬ f.IsShown l i) : a ∈ f.hidden none l := by
  have hhides : f.hides (f.after none (l.take i)) a = true := by
    by_contra hno
    refine hnot fun b hb => ?_
    rw [h, Option.mem_some_iff] at hb
    rw [← hb]
    exact Bool.not_eq_true _ ▸ hno
  rw [eq_split h, hidden_append, List.mem_append, hidden, if_pos hhides]
  exact .inr List.mem_cons_self

/-- Where a row is seen. -/
theorem shown_at (h : l[i]? = some a) (hshown : f.IsShown l i) :
    (f.shown none l)[f.place l i]? = some (f.seen a) ∧ f.place l (i + 1) = f.place l i + 1 := by
  have ha := hshown a h
  have hone : f.shown (f.after none (l.take i)) [a] = [f.seen a] := by
    rw [shown, ha, if_neg Bool.false_ne_true, shown]
  constructor
  · rw [shown_eq l i, place, List.getElem?_append_right (Nat.le_refl _), Nat.sub_self,
      List.drop_eq_getElem_cons (List.getElem?_eq_some_iff.mp h).1,
      (List.getElem?_eq_some_iff.mp h).2, shown, ha, if_neg Bool.false_ne_true]
    rfl
  · rw [place, List.take_add_one, h, Option.toList_some, shown_append, hone, List.length_append]
    rfl

/-- What hides the rows at `k` is a row before it that is seen folded, and hides all
between. -/
theorem of_after : ∀ {k : Nat}, f.after none (l.take k) = some x → ∃ j a, j < k ∧
    l[j]? = some a ∧ f.folded a = true ∧ f.depth a = x ∧
    ∀ m b, j < m → m < k → l[m]? = some b → x < f.depth b ∧ ¬ f.IsShown l m := by
  intro k
  induction k with
  | zero =>
    intro h
    cases h
  | succ k ih =>
    intro h
    rw [List.take_add_one] at h
    cases hk : l[k]? with
    | none =>
      rw [hk, Option.toList_none, List.append_nil] at h
      obtain ⟨j, a, hj, ha, hfolded, hdepth, hbetween⟩ := ih h
      refine ⟨j, a, by omega, ha, hfolded, hdepth, fun m b hjm hmk hb => ?_⟩
      refine hbetween m b hjm ?_ hb
      rcases Nat.lt_or_eq_of_le (Nat.le_of_lt_succ hmk) with hlt | rfl
      · exact hlt
      · rw [hk] at hb
        cases hb
    | some b =>
      rw [hk, Option.toList_some, after_append] at h
      change f.next _ b = some x at h
      rw [next] at h
      by_cases hhides : f.hides (f.after none (l.take k)) b = true
      · rw [if_pos hhides] at h
        obtain ⟨j, a, hj, ha, hfolded, hdepth, hbetween⟩ := ih h
        refine ⟨j, a, by omega, ha, hfolded, hdepth, fun m c hjm hmk hc => ?_⟩
        rcases Nat.lt_or_eq_of_le (Nat.le_of_lt_succ hmk) with hlt | rfl
        · exact hbetween m c hjm hlt hc
        · obtain rfl : b = c := Option.some.inj (hk.symm.trans hc)
          refine ⟨?_, fun hshown => ?_⟩
          · rw [h] at hhides
            exact hides_some.mp hhides
          · rw [hshown b hk] at hhides
            cases hhides
      · rw [if_neg hhides] at h
        split at h
        · next hfolded =>
          exact ⟨k, b, Nat.lt_succ_self k, hk, hfolded, Option.some.inj h,
            fun m c hkm hmk => by omega⟩
        · cases h

/-- **A row changes** that stays as deep, and folded if it was. -/
theorem shown_set (h : l[i]? = some a) (hdepth : f.depth b = f.depth a)
    (hfolded : f.folded b = f.folded a) :
    (f.IsShown l i → f.shown none (l.set i b) = (f.shown none l).set (f.place l i) (f.seen b)) ∧
      (¬ f.IsShown l i → f.shown none (l.set i b) = f.shown none l) ∧
      (∀ c ∈ f.hidden none (l.set i b), c ∈ f.hidden none l ∨ c = b ∧ a ∈ f.hidden none l) ∧
      ∀ j, f.place (l.set i b) j = f.place l j := by
  have hlt := (List.getElem?_eq_some_iff.mp h).1
  have hhides (s : Option Nat) : f.hides s b = f.hides s a := by rw [hides, hides, hdepth]
  have hnext (s : Option Nat) : f.next s b = f.next s a := by
    rw [next, next, hhides, hfolded, hdepth]
  have hset : l.set i b = l.take i ++ b :: l.drop (i + 1) := List.set_eq_take_append_cons_drop ▸
    if_pos hlt
  have hstate (j : Nat) : (f.shown none ((l.set i b).take j)).length =
      (f.shown none (l.take j)).length := by
    rcases Nat.lt_or_ge i j with hij | hji
    · have hone : (l.set i b).take j = l.take i ++ b :: (l.take j).drop (i + 1) := by
        rw [List.take_set, List.set_eq_take_append_cons_drop,
          if_pos (by rw [List.length_take]; omega), List.take_take, Nat.min_eq_left (by omega)]
      have htwo : l.take j = l.take i ++ a :: (l.take j).drop (i + 1) := by
        conv_lhs => rw [eq_split (show (l.take j)[i]? = some a by
          rw [List.getElem?_take, if_pos hij, h])]
        rw [List.take_take, Nat.min_eq_left (by omega)]
      generalize (l.take j).drop (i + 1) = rest at hone htwo
      rw [hone, htwo, shown_append, shown_append, shown, shown, hhides, hnext]
      split <;> simp
    · rw [List.take_set_of_le hji]
  refine ⟨fun hshown => ?_, fun hnot => ?_, fun c hc => ?_, fun j => hstate j⟩
  · have ha := hshown a h
    rw [hset, shown_append, shown, hhides, hnext, ha, if_neg Bool.false_ne_true]
    conv_rhs => rw [eq_split h, shown_append, shown, ha, if_neg Bool.false_ne_true]
    rw [place, List.take_append_of_le_length (by rw [List.length_take]; omega), List.take_take,
      Nat.min_self, List.set_append_right _ _ (Nat.le_refl _), Nat.sub_self, List.set_cons_zero]
  · have ha : f.hides (f.after none (l.take i)) a = true := by
      by_contra hno
      exact hnot fun c hc => by
        rw [h, Option.mem_some_iff] at hc
        exact hc ▸ Bool.not_eq_true _ ▸ hno
    rw [hset, shown_append, shown, hhides, hnext, if_pos ha]
    conv_rhs => rw [eq_split h, shown_append, shown, if_pos ha]
  · have hold : f.hidden none l = f.hidden none (l.take i) ++
        f.hidden (f.after none (l.take i)) (a :: l.drop (i + 1)) := by
      conv_lhs => rw [eq_split h]
      rw [hidden_append]
    rw [hset, hidden_append, hidden, hhides, hnext, List.mem_append] at hc
    rw [hold, hidden, List.mem_append, List.mem_append]
    by_cases ha : f.hides (f.after none (l.take i)) a = true
    · rw [if_pos ha] at hc ⊢
      rcases hc with hc | hc
      · exact .inl (.inl hc)
      · rcases List.mem_cons.mp hc with rfl | hc
        · exact .inr ⟨rfl, .inr List.mem_cons_self⟩
        · exact .inl (.inr (List.mem_cons_of_mem _ hc))
    · rw [if_neg ha] at hc ⊢
      exact .inl hc

/-- **A folded row may as well be shut**, with nothing beneath it. -/
theorem shown_shut (pre : List α) (hseen : f.seen a = b) (hb : f.folded b = false)
    (hdepth : f.depth b = f.depth a) (hinside : ∀ c ∈ inside, f.depth a < f.depth c)
    (hpost : ∀ c ∈ post.head?, f.depth c ≤ f.depth a) (hcase : f.folded a = true ∨ inside = []) :
    f.shown none (pre ++ b :: post) = f.shown none (pre ++ a :: (inside ++ post)) ∧
      (∀ c ∈ f.hidden none (pre ++ b :: post),
        c ∈ f.hidden none (pre ++ a :: (inside ++ post)) ∨ c = b) ∧
      ∀ c ∈ f.hidden none (pre ++ a :: (inside ++ post)),
        c ∈ f.hidden none (pre ++ b :: post) ∨ c = a ∨ c ∈ inside := by
  have hhides (s : Option Nat) : f.hides s b = f.hides s a := by rw [hides, hides, hdepth]
  rw [shown_append, shown_append, hidden_append, hidden_append]
  generalize f.after none pre = s
  rw [shown, shown, hidden, hidden, hhides]
  by_cases ha : f.hides s a = true
  · -- All of it is beneath a folded row.
    obtain ⟨x, rfl⟩ : ∃ x, s = some x := by
      cases s with
      | none => cases ha
      | some x => exact ⟨x, rfl⟩
    have hx := hides_some.mp ha
    have hnexta : f.next (some x) a = some x := by rw [next, if_pos ha]
    have hnextb : f.next (some x) b = some x := by rw [next, hhides, if_pos ha]
    obtain ⟨hno, hafter, hall⟩ := all_hidden fun c hc => Nat.lt_trans hx (hinside c hc)
    rw [if_pos ha, if_pos ha, if_pos ha, if_pos ha, hnexta, hnextb, shown_append, hidden_append,
      hno, hafter, hall, List.nil_append]
    refine ⟨rfl, fun c hc => ?_, fun c hc => ?_⟩
    · simp only [List.mem_append, List.mem_cons] at hc ⊢
      tauto
    · simp only [List.mem_append, List.mem_cons] at hc ⊢
      tauto
  · have hs : f.hides s a = false := Bool.not_eq_true _ ▸ ha
    have hnextb : f.next s b = none := by
      rw [next, hhides, if_neg ha, hb, if_neg Bool.false_ne_true]
    have hseenb : f.seen b = b := by rw [seen, hb, if_neg Bool.false_ne_true]
    rw [if_neg ha, if_neg ha, if_neg ha, if_neg ha, hnextb, hseen, hseenb]
    by_cases hfolded : f.folded a = true
    · have hnexta : f.next s a = some (f.depth a) := by rw [next, if_neg ha, if_pos hfolded]
      obtain ⟨hno, hafter, hall⟩ := all_hidden hinside
      have hhead : ∀ c ∈ post.head?, ∀ x ∈ some (f.depth a), f.depth c ≤ x := by
        intro c hc x hx
        rw [← Option.some.inj hx]
        exact hpost c hc
      rw [hnexta, shown_append, hidden_append, hno, hafter, hall, (of_head hhead).1,
        (of_head hhead).2, List.nil_append]
      refine ⟨rfl, fun c hc => ?_, fun c hc => ?_⟩
      · simp only [List.mem_append] at hc ⊢
        tauto
      · simp only [List.mem_append] at hc ⊢
        tauto
    · have hnexta : f.next s a = none := by rw [next, if_neg ha, if_neg hfolded]
      obtain rfl := hcase.resolve_left hfolded
      rw [hnexta, List.nil_append]
      exact ⟨rfl, fun c hc => .inl hc, fun c hc => .inl hc⟩

/-- What stands where, after a folded row is shut. -/
theorem place_shut (pre : List α) (hseen : f.seen a = b) (hb : f.folded b = false)
    (hdepth : f.depth b = f.depth a) (hinside : ∀ c ∈ inside, f.depth a < f.depth c)
    (hpost : ∀ c ∈ post.head?, f.depth c ≤ f.depth a) (hcase : f.folded a = true ∨ inside = []) :
    (∀ j, j ≤ pre.length + 1 →
      f.place (pre ++ b :: post) j = f.place (pre ++ a :: (inside ++ post)) j) ∧
    ∀ j, pre.length + 1 ≤ j → f.place (pre ++ b :: post) j =
      f.place (pre ++ a :: (inside ++ post)) (j + inside.length) := by
  have htake {c : α} {rest : List α} (m : Nat) :
      (pre ++ c :: rest).take (pre.length + (m + 1)) = pre ++ c :: rest.take m := by
    rw [List.take_length_add_append, List.take_succ_cons]
  refine ⟨fun j hj => ?_, fun j hj => ?_⟩
  · rcases Nat.lt_or_eq_of_le hj with hlt | rfl
    · have hle : j ≤ pre.length := by omega
      exact place_of_take (by
        rw [List.take_append_of_le_length hle, List.take_append_of_le_length hle])
    · have hnone : ∀ c ∈ ([] : List α).head?, f.depth c ≤ f.depth a := by simp
      have h := (shown_shut pre hseen hb hdepth (by simp) hnone
        (.inr (show ([] : List α) = [] from rfl))).1
      rw [place, place, htake 0, htake 0, List.take_zero, List.take_zero]
      exact congrArg List.length h
  · obtain ⟨m, rfl⟩ : ∃ m, j = pre.length + (m + 1) := ⟨j - pre.length - 1, by omega⟩
    have hhead : ∀ c ∈ (post.take m).head?, f.depth c ≤ f.depth a := by
      intro c hc
      rw [List.head?_take] at hc
      split at hc
      · cases hc
      · exact hpost c hc
    have h := (shown_shut pre hseen hb hdepth hinside hhead hcase).1
    rw [place, place, htake, show pre.length + (m + 1) + inside.length =
      pre.length + (inside.length + m + 1) by omega, htake, List.take_length_add_append]
    exact congrArg List.length h

/-- Beneath a folded row all is hidden. -/
theorem after_beneath (h : l[i]? = some a) (hfolded : f.folded a = true) (hik : i < k)
    (hdeeper : ∀ m c, i < m → m < k → l[m]? = some c → f.depth a < f.depth c) :
    ∃ x, f.after none (l.take k) = some x ∧ x ≤ f.depth a := by
  obtain ⟨x, hx, hle⟩ : ∃ x, f.next (f.after none (l.take i)) a = some x ∧ x ≤ f.depth a := by
    rw [next, if_pos hfolded]
    split
    · next hhides =>
      cases hs : f.after none (l.take i) with
      | none =>
        rw [hs] at hhides
        cases hhides
      | some x =>
        rw [hs] at hhides
        exact ⟨x, rfl, Nat.le_of_lt (hides_some.mp hhides)⟩
    · exact ⟨_, rfl, Nat.le_refl _⟩
  refine ⟨x, ?_, hle⟩
  have hsplit : l.take k = (l.take i ++ [a]) ++ (l.take k).drop (i + 1) := by
    conv_lhs => rw [← List.take_append_drop (i + 1) (l.take k)]
    rw [List.take_take, Nat.min_eq_left hik, List.take_add_one, h, Option.toList_some]
  have hbeneath : ∀ c ∈ (l.take k).drop (i + 1), x < f.depth c := by
    intro c hc
    obtain ⟨m, hm⟩ := List.mem_iff_getElem?.mp hc
    rw [List.getElem?_drop, List.getElem?_take] at hm
    split at hm
    · have := hdeeper (i + 1 + m) c (by omega) (by omega) hm
      omega
    · cases hm
  rw [hsplit, after_append, after_append]
  show f.after (f.next _ a) _ = some x
  rw [hx]
  exact (all_hidden hbeneath).2.1

theorem not_shown_beneath (h : l[i]? = some a) (hfolded : f.folded a = true) (hik : i < k)
    (hk : l[k]? = some b) (hdepth : f.depth a < f.depth b)
    (hdeeper : ∀ m c, i < m → m < k → l[m]? = some c → f.depth a < f.depth c) :
    ¬ f.IsShown l k := by
  obtain ⟨x, hx, hle⟩ := after_beneath h hfolded hik hdeeper
  intro hshown
  have hhides := hshown b hk
  rw [hx, ← Bool.not_eq_true, hides_some] at hhides
  omega

/-- Where nothing is folded, all is seen where it is. -/
theorem place_self (h : ∀ a ∈ l, f.folded a = false) (hk : k ≤ l.length) : f.place l k = k := by
  rw [place, (all_shown fun a ha => h a (List.mem_of_mem_take ha)).1, List.length_take,
    Nat.min_eq_left hk]

end Folds

end FilePeeker
