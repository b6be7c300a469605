import Mathlib.Data.List.Basic
import Mathlib.Data.List.Nodup

/-!
# Rows in pre-order, by their depths

A tree written out row by row is a list of depths: every row is at most one
deeper than the row before it (`Outline`).  The subtree of a row ends at the
next row that is no deeper (`IsEnd`), and its parent is the last row before it
that is less deep (`IsParent`).

A slot is a place where rows go in beneath a row that is there already: behind
all rows placed there so far.  `Slot.insertBefore`, `insertInside` and
`insertAfter` say where it is after rows of one depth were inserted elsewhere,
and `Slot.remove` after the inside of a subtree was taken out.  A slot is loose
if rows of its own depth may follow it, and tight if it is the end of the
subtree.
-/

namespace FilePeeker

namespace PreOrder

variable {ds : List Nat} {c d e i j k n p q x y dp dq : Nat}

/-- The first row is at depth 0, and none is deeper than just beneath the row
before it. -/
structure Outline (ds : List Nat) : Prop where
  first : ∀ x, ds[0]? = some x → x = 0
  next : ∀ i x y, ds[i]? = some x → ds[i + 1]? = some y → y ≤ x + 1

/-- `e` is the first row after `i` that is not beneath it. -/
structure IsEnd (ds : List Nat) (i e : Nat) : Prop where
  lt : i < e
  le : e ≤ ds.length
  inside : ∀ j x y, i < j → j < e → ds[i]? = some x → ds[j]? = some y → x < y
  outside : ∀ x y, ds[i]? = some x → ds[e]? = some y → y ≤ x

/-- `i` is the row that row `j` is a child of. -/
structure IsParent (ds : List Nat) (i j : Nat) : Prop where
  lt : i < j
  depth : ∃ x, ds[i]? = some x ∧ ds[j]? = some (x + 1)
  between : ∀ m x y, i < m → m < j → ds[i]? = some x → ds[m]? = some y → x < y

/-! ### Inserting and removing -/

section Lists

variable {α β : Type*} {l new : List α}

/-- `new` from index `k` on. -/
def splice (k : Nat) (new l : List α) : List α := l.take k ++ new ++ l.drop k

/-- Without the part from `s` to before `e`. -/
def removeRange (s e : Nat) (l : List α) : List α := l.take s ++ l.drop e

theorem map_splice (f : α → β) : (splice k new l).map f = splice k (new.map f) (l.map f) := by
  rw [splice, splice, List.map_append, List.map_append, List.map_take, List.map_drop]

theorem splice_nil : splice k [] l = l := by
  rw [splice, List.append_nil, List.take_append_drop]

theorem length_splice (hk : k ≤ l.length) : (splice k new l).length = l.length + new.length := by
  simp only [splice, List.length_append, List.length_take, List.length_drop]
  omega

theorem splice_before (hk : k ≤ l.length) (hj : j < k) : (splice k new l)[j]? = l[j]? := by
  have hlen : (l.take k).length = k := by rw [List.length_take, Nat.min_eq_left hk]
  rw [splice, List.append_assoc, List.getElem?_append_left (by omega),
    List.getElem?_take_of_lt hj]

theorem splice_inside (hk : k ≤ l.length) (hj : k ≤ j) (hj' : j < k + new.length) :
    (splice k new l)[j]? = new[j - k]? := by
  have hlen : (l.take k).length = k := by rw [List.length_take, Nat.min_eq_left hk]
  rw [splice, List.append_assoc, List.getElem?_append_right (by omega),
    List.getElem?_append_left (by omega), hlen]

theorem splice_after (hk : k ≤ l.length) (hj : k ≤ j) :
    (splice k new l)[j + new.length]? = l[j]? := by
  have hlen : (l.take k ++ new).length = k + new.length := by
    rw [List.length_append, List.length_take, Nat.min_eq_left hk]
  rw [splice, List.getElem?_append_right (by omega), hlen, List.getElem?_drop]
  congr 1
  omega

theorem length_removeRange (hs : i ≤ e) (he : e ≤ l.length) :
    (removeRange i e l).length = l.length - (e - i) := by
  simp only [removeRange, List.length_append, List.length_take, List.length_drop]
  omega

theorem removeRange_before (hs : i ≤ l.length) (hj : j < i) : (removeRange i e l)[j]? = l[j]? := by
  have hlen : (l.take i).length = i := by rw [List.length_take, Nat.min_eq_left hs]
  rw [removeRange, List.getElem?_append_left (by omega), List.getElem?_take_of_lt hj]

theorem removeRange_after (hs : i ≤ l.length) (hj : e ≤ j) (hse : i ≤ e) :
    (removeRange i e l)[j - (e - i)]? = l[j]? := by
  have hlen : (l.take i).length = i := by rw [List.length_take, Nat.min_eq_left hs]
  rw [removeRange, List.getElem?_append_right (by omega), hlen, List.getElem?_drop]
  congr 1
  omega

/-- Where an element is after `c` were inserted at `k`. -/
def movedDown (k c j : Nat) : Nat := if j < k then j else j + c

theorem splice_movedDown (hk : k ≤ l.length) :
    (splice k new l)[movedDown k new.length j]? = l[j]? := by
  unfold movedDown
  split
  · next h => exact splice_before hk h
  · next h => exact splice_after hk (by omega)

/-- What stands somewhere after an insertion is new, or was there before. -/
theorem splice_cases (k : Nat) (new : List α) (j : Nat) :
    (k ≤ j ∧ j < k + new.length) ∨ ∃ i, j = movedDown k new.length i := by
  rcases Nat.lt_or_ge j k with hjk | hjk
  · exact .inr ⟨j, by rw [movedDown, if_pos hjk]⟩
  · rcases Nat.lt_or_ge j (k + new.length) with hj | hj
    · exact .inl ⟨hjk, hj⟩
    · refine .inr ⟨j - new.length, ?_⟩
      rw [movedDown, if_neg (by omega)]
      omega

/-- Where an element is after those from `s` to before `e` were taken out. -/
def movedUp (s e j : Nat) : Nat := if j < s then j else j - (e - s)

theorem removeRange_movedUp (hse : i ≤ e) (he : e ≤ l.length) (hj : j < i ∨ e ≤ j) :
    (removeRange i e l)[movedUp i e j]? = l[j]? := by
  unfold movedUp
  split
  · next h => exact removeRange_before (by omega) h
  · next h => exact removeRange_after (by omega) (by omega) hse

/-- What stands somewhere after a removal was there before. -/
theorem removeRange_cases (hse : i ≤ e) (j : Nat) : ∃ m, j = movedUp i e m ∧ (m < i ∨ e ≤ m) := by
  rcases Nat.lt_or_ge j i with hj | hj
  · exact ⟨j, by rw [movedUp, if_pos hj], .inl hj⟩
  · refine ⟨j + (e - i), ?_, .inr (by omega)⟩
    rw [movedUp, if_neg (by omega)]
    omega

end Lists

/-- `c` rows at depth `d` from index `k` on. -/
def insertAt (k c d : Nat) (ds : List Nat) : List Nat := splice k (List.replicate c d) ds

theorem insertAt_zero : insertAt k 0 d ds = ds := splice_nil

theorem length_insertAt (hk : k ≤ ds.length) : (insertAt k c d ds).length = ds.length + c := by
  rw [insertAt, length_splice hk, List.length_replicate]

theorem insertAt_before (hk : k ≤ ds.length) (hj : j < k) : (insertAt k c d ds)[j]? = ds[j]? :=
  splice_before hk hj

theorem insertAt_inside (hk : k ≤ ds.length) (hj : k ≤ j) (hj' : j < k + c) :
    (insertAt k c d ds)[j]? = some d := by
  rw [insertAt, splice_inside hk hj (by rwa [List.length_replicate]),
    List.getElem?_replicate_of_lt (by omega)]

theorem insertAt_after (hk : k ≤ ds.length) (hj : k ≤ j) :
    (insertAt k c d ds)[j + c]? = ds[j]? := by
  have : (splice k (List.replicate c d) ds)[j + (List.replicate c d).length]? = ds[j]? :=
    splice_after hk hj
  rwa [List.length_replicate] at this

theorem insertAt_movedDown (hk : k ≤ ds.length) :
    (insertAt k c d ds)[movedDown k c j]? = ds[j]? := by
  have : (splice k (List.replicate c d) ds)[movedDown k (List.replicate c d).length j]? = ds[j]? :=
    splice_movedDown hk
  rwa [List.length_replicate] at this

/-! ### Slots -/

/-- Rows at depth `d` go in at `n`, as the children of row `p` after those it
has there.  With `e = 0` no child of `p` follows, with `e = 1` one may. -/
structure Slot (ds : List Nat) (e p d n : Nat) : Prop where
  parent : ∃ x, ds[p]? = some x ∧ d = x + 1
  lt : p < n
  le : n ≤ ds.length
  within : ∀ j x, p < j → j < n → ds[j]? = some x → d ≤ x
  next : ∀ x, ds[n]? = some x → x < d + e

/-- A tight slot is the end of its subtree. -/
theorem Slot.isEnd (h : Slot ds 0 p d n) : IsEnd ds p n := by
  obtain ⟨x, hx, rfl⟩ := h.parent
  refine ⟨h.lt, h.le, ?_, ?_⟩
  · intro j y z hj hjn hy hz
    have := h.within j z hj hjn hz
    rw [hx, Option.some.injEq] at hy
    omega
  · intro y z hy hz
    have := h.next z hz
    rw [hx, Option.some.injEq] at hy
    omega

theorem IsEnd.slot (h : IsEnd ds i e) (hi : ds[i]? = some x) : Slot ds 0 i (x + 1) e := by
  refine ⟨⟨x, hi, rfl⟩, h.lt, h.le, ?_, ?_⟩
  · intro j y hj hje hy
    have := h.inside j x y hj hje hi hy
    omega
  · intro y hy
    have := h.outside x y hi hy
    omega

theorem IsEnd.unique (h : IsEnd ds i e) (h' : IsEnd ds i k) (hi : ds[i]? = some x) : e = k := by
  have noLess {e k : Nat} (h : IsEnd ds i e) (h' : IsEnd ds i k) : ¬ e < k := by
    intro hlt
    have hle := h'.le
    have he : ds[e]? = some ds[e] := List.getElem?_eq_getElem (by omega)
    have h1 := h.outside x _ hi he
    have h2 := h'.inside e x _ h.lt hlt hi he
    omega
  have h1 := noLess h h'
  have h2 := noLess h' h
  omega

/-- Just beneath a row there is always a slot. -/
theorem Outline.slot (h : Outline ds) (hi : ds[i]? = some x) : Slot ds 1 i (x + 1) (i + 1) := by
  have hlt := (List.getElem?_eq_some_iff.mp hi).1
  refine ⟨⟨x, hi, rfl⟩, by omega, by omega, by omega, ?_⟩
  intro y hy
  have := h.next i x y hi hy
  omega

/-- A slot inside another one's rows is deeper, or it is beneath the same row. -/
theorem Slot.depth_le (hq : Slot ds 1 q dq k) (hp : Slot ds 1 p dp n) (hpk : p < k) (hkn : k < n) :
    dp ≤ dq := by
  obtain ⟨x, hx, rfl⟩ := hp.parent
  obtain ⟨y, hy, rfl⟩ := hq.parent
  rcases Nat.lt_trichotomy p q with hpq | rfl | hqp
  · have hlt := hq.lt
    have := hp.within q y hpq (by omega) hy
    omega
  · rw [hx, Option.some.injEq] at hy
    omega
  · have h1 := hq.within p x hqp hpk hx
    have hle := hp.le
    have hk : ds[k]? = some ds[k] := List.getElem?_eq_getElem (by omega)
    have h2 := hp.within k _ hpk hkn hk
    have h3 := hq.next _ hk
    omega

theorem Slot.loosen (he : e ≤ 1) (h : Slot ds e p d n) : Slot ds 1 p d n := by
  refine ⟨h.parent, h.lt, h.le, h.within, ?_⟩
  intro x hx
  have := h.next x hx
  omega

theorem Slot.insertBefore (h : Slot ds e p dp n) (hk : k ≤ p) :
    Slot (insertAt k c d ds) e (p + c) dp (n + c) := by
  have hlt := h.lt
  have hle := h.le
  obtain ⟨x, hx, rfl⟩ := h.parent
  refine ⟨⟨x, ?_, rfl⟩, by omega, by rw [length_insertAt (by omega)]; omega, ?_, ?_⟩
  · rwa [insertAt_after (by omega) hk]
  · intro j y hj hjn hy
    obtain ⟨j, rfl⟩ : ∃ j', j = j' + c := ⟨j - c, by omega⟩
    rw [insertAt_after (by omega) (by omega)] at hy
    exact h.within j y (by omega) (by omega) hy
  · intro y hy
    rw [insertAt_after (by omega) (by omega)] at hy
    exact h.next y hy

theorem Slot.insertInside (h : Slot ds e p dp n) (hk : p < k) (hkn : k ≤ n) (hd : dp ≤ d) :
    Slot (insertAt k c d ds) e p dp (n + c) := by
  have hle := h.le
  obtain ⟨x, hx, rfl⟩ := h.parent
  refine ⟨⟨x, ?_, rfl⟩, by omega, by rw [length_insertAt (by omega)]; omega, ?_, ?_⟩
  · rwa [insertAt_before (by omega) hk]
  · intro j y hj hjn hy
    rcases Nat.lt_or_ge j k with hjk | hjk
    · rw [insertAt_before (by omega) hjk] at hy
      exact h.within j y hj (by omega) hy
    · rcases Nat.lt_or_ge j (k + c) with hjc | hjc
      · rw [insertAt_inside (by omega) hjk hjc, Option.some.injEq] at hy
        omega
      · obtain ⟨j, rfl⟩ : ∃ j', j = j' + c := ⟨j - c, by omega⟩
        rw [insertAt_after (by omega) (by omega)] at hy
        exact h.within j y (by omega) (by omega) hy
  · intro y hy
    rw [insertAt_after (by omega) hkn] at hy
    exact h.next y hy

theorem Slot.insertAfter (h : Slot ds e p dp n) (hk : k ≤ ds.length)
    (hn : n < k ∨ n = k ∧ d < dp) : Slot (insertAt k c d ds) e p dp n := by
  have hlt := h.lt
  obtain ⟨x, hx, rfl⟩ := h.parent
  refine ⟨⟨x, ?_, rfl⟩, hlt, by rw [length_insertAt hk]; omega, ?_, ?_⟩
  · rwa [insertAt_before hk (by omega)]
  · intro j y hj hjn hy
    rw [insertAt_before hk (by omega)] at hy
    exact h.within j y hj hjn hy
  · intro y hy
    rcases hn with hn | ⟨rfl, hd⟩
    · rw [insertAt_before hk hn] at hy
      exact h.next y hy
    · rcases Nat.eq_zero_or_pos c with rfl | hc
      · rw [insertAt_zero] at hy
        exact h.next y hy
      · rw [insertAt_inside hk (Nat.le_refl _) (by omega), Option.some.injEq] at hy
        omega

/-- Behind a subtree whose inside goes, a slot moves up. -/
theorem Slot.removeBefore (h : Slot ds e p dp n) (hi : IsEnd ds i k) (hp : k ≤ p) :
    Slot (removeRange (i + 1) k ds) e (p - (k - (i + 1))) dp (n - (k - (i + 1))) := by
  have hlt := h.lt
  have hle := h.le
  have hik := hi.lt
  have hkl := hi.le
  obtain ⟨x, hx, rfl⟩ := h.parent
  refine ⟨⟨x, ?_, rfl⟩, by omega, by rw [length_removeRange (by omega) hkl]; omega, ?_, ?_⟩
  · rwa [removeRange_after (by omega) hp (by omega)]
  · intro j y hj hjn hy
    obtain ⟨j, rfl⟩ : ∃ j', j = j' - (k - (i + 1)) := ⟨j + (k - (i + 1)), by omega⟩
    rw [removeRange_after (by omega) (by omega) (by omega)] at hy
    exact h.within j y (by omega) (by omega) hy
  · intro y hy
    rw [removeRange_after (by omega) (by omega) (by omega)] at hy
    exact h.next y hy

/-- A slot above the row whose subtree's inside goes is before the row, or
behind all that goes. -/
theorem Slot.outside (h : Slot ds 1 p dp n) (hi : IsEnd ds i k) (hp : p < i) : n ≤ i ∨ k ≤ n := by
  by_contra hcon
  have hkl := hi.le
  have hin : i < n := by omega
  have hnk : n < k := by omega
  have hxi : ds[i]? = some ds[i] := List.getElem?_eq_getElem (by omega)
  have hxn : ds[n]? = some ds[n] := List.getElem?_eq_getElem (by omega)
  have h1 := h.within i _ hp hin hxi
  have h2 := h.next _ hxn
  have h3 := hi.inside n _ _ hin hnk hxi hxn
  omega

theorem Slot.removeInside (h : Slot ds e p dp n) (hi : IsEnd ds i k) (hp : p < i) (hn : k ≤ n) :
    Slot (removeRange (i + 1) k ds) e p dp (n - (k - (i + 1))) := by
  have hle := h.le
  have hik := hi.lt
  have hkl := hi.le
  obtain ⟨x, hx, rfl⟩ := h.parent
  refine ⟨⟨x, ?_, rfl⟩, by omega, by rw [length_removeRange (by omega) hkl]; omega, ?_, ?_⟩
  · rwa [removeRange_before (by omega) (by omega)]
  · intro j y hj hjn hy
    rcases Nat.lt_or_ge j (i + 1) with hji | hji
    · rw [removeRange_before (by omega) hji] at hy
      exact h.within j y hj (by omega) hy
    · obtain ⟨j, rfl⟩ : ∃ j', j = j' - (k - (i + 1)) := ⟨j + (k - (i + 1)), by omega⟩
      rw [removeRange_after (by omega) (by omega) (by omega)] at hy
      exact h.within j y (by omega) (by omega) hy
  · intro y hy
    rw [removeRange_after (by omega) hn (by omega)] at hy
    exact h.next y hy

theorem Slot.removeAfter (h : Slot ds e p dp n) (hi : IsEnd ds i k) (hn : n ≤ i) :
    Slot (removeRange (i + 1) k ds) e p dp n := by
  have hlt := h.lt
  have hik := hi.lt
  have hkl := hi.le
  obtain ⟨x, hx, rfl⟩ := h.parent
  refine ⟨⟨x, ?_, rfl⟩, hlt, by rw [length_removeRange (by omega) hkl]; omega, ?_, ?_⟩
  · rwa [removeRange_before (by omega) (by omega)]
  · intro j y hj hjn hy
    rw [removeRange_before (by omega) (by omega)] at hy
    exact h.within j y hj hjn hy
  · intro y hy
    rw [removeRange_before (by omega) (by omega)] at hy
    exact h.next y hy

/-! ### The outline -/

theorem outline_nil : Outline [] := ⟨by simp, by simp⟩

/-- Rows may go in where they are not too deep, and the next row is not. -/
theorem Outline.insert (h : Outline ds) (hk : k ≤ ds.length) (hfirst : k = 0 → d = 0)
    (hprev : ∀ x, 0 < k → ds[k - 1]? = some x → d ≤ x + 1)
    (hnext : ∀ x, ds[k]? = some x → x ≤ d + 1) : Outline (insertAt k c d ds) := by
  rcases Nat.eq_zero_or_pos c with rfl | hc
  · rwa [insertAt_zero]
  constructor
  · intro x hx
    rcases Nat.eq_zero_or_pos k with rfl | hk0
    · rw [insertAt_inside hk (Nat.le_refl _) (by omega), Option.some.injEq] at hx
      rw [← hx, hfirst rfl]
    · rw [insertAt_before hk hk0] at hx
      exact h.first x hx
  · intro i x y hx hy
    rcases Nat.lt_or_ge (i + 1) k with hik | hik
    · rw [insertAt_before hk (by omega)] at hx
      rw [insertAt_before hk hik] at hy
      exact h.next i x y hx hy
    · rcases Nat.lt_or_ge i k with hi | hi
      · obtain rfl : k = i + 1 := by omega
        rw [insertAt_before hk hi] at hx
        rw [insertAt_inside hk hik (by omega), Option.some.injEq] at hy
        rw [← hy]
        exact hprev x (by omega) hx
      · rcases Nat.lt_or_ge i (k + c) with hi' | hi'
        · rw [insertAt_inside hk hi hi', Option.some.injEq] at hx
          subst hx
          rcases Nat.lt_or_ge (i + 1) (k + c) with hic | hic
          · rw [insertAt_inside hk hik hic, Option.some.injEq] at hy
            omega
          · rw [show i + 1 = k + c by omega, insertAt_after hk (Nat.le_refl _)] at hy
            exact hnext y hy
        · obtain ⟨i, rfl⟩ : ∃ i', i = i' + c := ⟨i - c, by omega⟩
          rw [insertAt_after hk (by omega)] at hx
          rw [show i + c + 1 = i + 1 + c by omega, insertAt_after hk (by omega)] at hy
          exact h.next i x y hx hy

/-- Rows go in at a slot. -/
theorem Outline.insertSlot (h : Outline ds) (hp : Slot ds 1 p d n) :
    Outline (insertAt n c d ds) := by
  have hlt := hp.lt
  apply h.insert hp.le (by omega)
  · intro x _ hx
    obtain ⟨y, hy, rfl⟩ := hp.parent
    rcases Nat.lt_or_ge p (n - 1) with hpn | hpn
    · have := hp.within (n - 1) x hpn (by omega) hx
      omega
    · obtain rfl : p = n - 1 := by omega
      rw [hx, Option.some.injEq] at hy
      omega
  · intro x hx
    have := hp.next x hx
    omega

/-- Rows go in at the end, as first rows. -/
theorem Outline.insertLast (h : Outline ds) : Outline (insertAt ds.length c 0 ds) := by
  apply h.insert (Nat.le_refl _) (fun _ => rfl)
  · intro x _ _
    omega
  · intro x hx
    rw [List.getElem?_eq_none (Nat.le_refl _)] at hx
    simp at hx

theorem Outline.remove (h : Outline ds) (hi : IsEnd ds i k) :
    Outline (removeRange (i + 1) k ds) := by
  have hik := hi.lt
  have hkl := hi.le
  constructor
  · intro x hx
    rw [removeRange_before (by omega) (by omega)] at hx
    exact h.first x hx
  · intro j x y hx hy
    rcases Nat.lt_or_ge (j + 1) (i + 1) with hj | hj
    · rw [removeRange_before (by omega) (by omega)] at hx
      rw [removeRange_before (by omega) hj] at hy
      exact h.next j x y hx hy
    · obtain ⟨m, hm⟩ : ∃ m, j + 1 = m - (k - (i + 1)) ∧ k ≤ m :=
        ⟨j + 1 + (k - (i + 1)), by omega, by omega⟩
      rw [hm.1, removeRange_after (by omega) hm.2 (by omega)] at hy
      rcases Nat.lt_or_ge j (i + 1) with hji | hji
      · obtain rfl : j = i := by omega
        obtain rfl : m = k := by omega
        rw [removeRange_before (by omega) (by omega)] at hx
        have := hi.outside x y hx hy
        omega
      · obtain ⟨m, rfl⟩ : ∃ m', m = m' + 1 := ⟨m - 1, by omega⟩
        rw [show j = m - (k - (i + 1)) by omega,
          removeRange_after (by omega) (by omega) (by omega)] at hx
        exact h.next m x y hx hy

/-! ### Parents -/

theorem IsParent.unique (h : IsParent ds i j) (h' : IsParent ds k j) : i = k := by
  have noLess {i k : Nat} (h : IsParent ds i j) (h' : IsParent ds k j) : ¬ i < k := by
    intro hlt
    obtain ⟨x, hx, hjx⟩ := h.depth
    obtain ⟨y, hy, hjy⟩ := h'.depth
    have := h.between k x y hlt h'.lt hx hy
    rw [hjx, Option.some.injEq] at hjy
    omega
  have h1 := noLess h h'
  have h2 := noLess h' h
  omega

/-- What goes in at a slot is beneath its row. -/
theorem Slot.isParent (h : Slot ds 1 p d n) (hj : n ≤ j) (hjc : j < n + c) :
    IsParent (insertAt n c d ds) p j := by
  have hlt := h.lt
  have hle := h.le
  obtain ⟨x, hx, rfl⟩ := h.parent
  have hp : (insertAt n c (x + 1) ds)[p]? = some x := by rwa [insertAt_before hle hlt]
  refine ⟨by omega, ⟨x, hp, insertAt_inside hle hj hjc⟩, ?_⟩
  intro m y z hm hmj hy hz
  rw [hp, Option.some.injEq] at hy
  subst hy
  rcases Nat.lt_or_ge m n with hmn | hmn
  · rw [insertAt_before hle hmn] at hz
    exact h.within m z hm hmn hz
  · rw [insertAt_inside hle hmn (by omega), Option.some.injEq] at hz
    omega

/-- A row keeps its parent when rows go in before a row that is no deeper. -/
theorem IsParent.insert (h : IsParent ds i j) (hk : k ≤ ds.length)
    (hnext : ∀ x, ds[k]? = some x → x ≤ d) :
    IsParent (insertAt k c d ds) (movedDown k c i) (movedDown k c j) := by
  obtain ⟨x, hx, hjx⟩ := h.depth
  have hlt := h.lt
  refine ⟨?_, ⟨x, by rwa [insertAt_movedDown hk], by rwa [insertAt_movedDown hk]⟩, ?_⟩
  · unfold movedDown
    split <;> split <;> omega
  · intro m y z hm hmj hy hz
    rw [insertAt_movedDown hk, hx, Option.some.injEq] at hy
    subst hy
    rcases Nat.lt_or_ge m k with hmk | hmk
    · rw [insertAt_before hk hmk] at hz
      refine h.between m x z ?_ ?_ hx hz
      · unfold movedDown at hm
        split at hm <;> omega
      · unfold movedDown at hmj
        split at hmj <;> omega
    · have hjk : ¬ j < k := by
        intro hjk
        rw [movedDown, if_pos hjk] at hmj
        omega
      rw [movedDown, if_neg hjk] at hmj
      rcases Nat.lt_or_ge m (k + c) with hmc | hmc
      · -- A new row: it is no less deep than the old row at `k`, which is beneath `i`.
        rw [insertAt_inside hk hmk hmc, Option.some.injEq] at hz
        have hlen := (List.getElem?_eq_some_iff.mp hjx).1
        have hxk : ds[k]? = some ds[k] := List.getElem?_eq_getElem (by omega)
        have hdk := hnext _ hxk
        have hik : i < k := by
          unfold movedDown at hm
          split at hm <;> omega
        rcases Nat.lt_or_ge k j with hkj | hkj
        · have := h.between k x _ hik hkj hx hxk
          omega
        · obtain rfl : j = k := by omega
          rw [hjx, Option.some.injEq] at hxk
          omega
      · obtain ⟨m, rfl⟩ : ∃ m', m = m' + c := ⟨m - c, by omega⟩
        rw [insertAt_after hk (by omega)] at hz
        refine h.between m x z ?_ (by omega) hx hz
        unfold movedDown at hm
        split at hm <;> omega

/-- The parent of a row that stays stays. -/
theorem IsParent.stays (h : IsParent ds i j) (hq : IsEnd ds q e) (hj : j < q + 1 ∨ e ≤ j) :
    i < q + 1 ∨ e ≤ i := by
  by_contra hcon
  have hlt := h.lt
  have hel := hq.le
  obtain ⟨x, hx, hjx⟩ := h.depth
  have hlen := (List.getElem?_eq_some_iff.mp hjx).1
  have hql := hq.lt
  have hxq : ds[q]? = some ds[q] := List.getElem?_eq_getElem (by omega)
  have hxe : ds[e]? = some ds[e] := List.getElem?_eq_getElem (by omega)
  have h1 := hq.inside i _ _ (by omega) (by omega) hxq hx
  have h2 := hq.outside _ _ hxq hxe
  rcases Nat.lt_or_ge e j with hej | hej
  · have := h.between e x _ (by omega) hej hx hxe
    omega
  · obtain rfl : e = j := by omega
    rw [hjx, Option.some.injEq] at hxe
    omega

theorem IsParent.remove (h : IsParent ds i j) (hq : IsEnd ds q e) (hj : j < q + 1 ∨ e ≤ j) :
    IsParent (removeRange (q + 1) e ds) (movedUp (q + 1) e i) (movedUp (q + 1) e j) := by
  have hi := h.stays hq hj
  have hlt := h.lt
  have hql := hq.lt
  have hel := hq.le
  obtain ⟨x, hx, hjx⟩ := h.depth
  refine ⟨?_, ⟨x, ?_, ?_⟩, ?_⟩
  · unfold movedUp
    split <;> split <;> omega
  · rwa [removeRange_movedUp (by omega) hel hi]
  · rwa [removeRange_movedUp (by omega) hel hj]
  · intro m y z hm hmj hy hz
    rw [removeRange_movedUp (by omega) hel hi, hx, Option.some.injEq] at hy
    subst hy
    obtain ⟨m', rfl, hstay⟩ := removeRange_cases (show q + 1 ≤ e by omega) m
    rw [removeRange_movedUp (by omega) hel hstay] at hz
    refine h.between m' x z ?_ ?_ hx hz
    · unfold movedUp at hm
      split at hm <;> split at hm <;> omega
    · unfold movedUp at hmj
      split at hmj <;> split at hmj <;> omega

end PreOrder

end FilePeeker
