import Mathlib.Data.List.Nodup

/-!
# Counting over a list without repeats

How a count changes when the predicate changes at one element.
-/

namespace FilePeeker

variable {α : Type*} {l : List α} {i : α} {p q : α → Bool}

theorem countP_congr_of_notMem (hi : i ∉ l) (hpq : ∀ x, x ≠ i → q x = p x) :
    l.countP q = l.countP p := by
  refine List.countP_congr fun x hx => ?_
  rw [hpq x (fun h => hi (h ▸ hx))]

/-- Two predicates that differ at `i` alone count the same, up to `i`. -/
theorem countP_update (hnd : l.Nodup) (hi : i ∈ l) (hpq : ∀ x, x ≠ i → q x = p x) :
    l.countP q + (if p i then 1 else 0) = l.countP p + (if q i then 1 else 0) := by
  induction l with
  | nil => simp at hi
  | cons a l ih =>
    obtain ⟨hal, hl⟩ := List.nodup_cons.mp hnd
    rw [List.countP_cons, List.countP_cons]
    by_cases ha : a = i
    · subst ha
      rw [countP_congr_of_notMem hal hpq]
      omega
    · have := ih hl ((List.mem_cons.mp hi).resolve_left (Ne.symm ha))
      rw [hpq a ha]
      omega

theorem countP_succ_of_gain (hnd : l.Nodup) (hi : i ∈ l) (hpq : ∀ x, x ≠ i → q x = p x)
    (hp : p i = false) (hq : q i = true) : l.countP q = l.countP p + 1 := by
  have := countP_update hnd hi hpq
  simp only [hp, hq, Bool.false_eq_true, if_false, if_true] at this
  omega

theorem countP_pred_of_loss (hnd : l.Nodup) (hi : i ∈ l) (hpq : ∀ x, x ≠ i → q x = p x)
    (hp : p i = true) (hq : q i = false) : l.countP p = l.countP q + 1 :=
  countP_succ_of_gain hnd hi (fun x hx => (hpq x hx).symm) hq hp

/-- How a count changes when one element is replaced. -/
theorem countP_set_add {l : List α} {n : Nat} {a b : α} (h : l[n]? = some a) :
    (l.set n b).countP p + (if p a then 1 else 0) = l.countP p + (if p b then 1 else 0) := by
  obtain ⟨hlt, rfl⟩ := List.getElem?_eq_some_iff.mp h
  have hle := List.boole_getElem_le_countP (p := p) hlt
  rw [List.countP_set hlt]
  omega

theorem countP_eq_of_same (hpq : ∀ x ∈ l, q x = p x) : l.countP q = l.countP p :=
  List.countP_congr fun x hx => by rw [hpq x hx]

end FilePeeker
