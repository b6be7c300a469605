import Mathlib.Data.List.DropRight

/-!
# Trimming a list at both ends

`trim p l` is `l` without what satisfies `p` at its two ends.  `trim_split` says
what was cut off, and `trim_around` that a list which neither begins nor ends with
such an element comes out of whatever such elements stand around it.
-/

namespace FilePeeker

variable {α : Type*} {p : α → Bool} {l before core after : List α}

def trim (p : α → Bool) (l : List α) : List α := (l.dropWhile p).rdropWhile p

theorem trim_split (p : α → Bool) (l : List α) :
    ∃ before after, l = before ++ trim p l ++ after ∧ (∀ x ∈ before, p x) ∧ ∀ x ∈ after, p x := by
  refine ⟨l.takeWhile p, (l.dropWhile p).rtakeWhile p, ?_, ?_, ?_⟩
  · rw [trim, List.append_assoc, List.rdropWhile_append_rtakeWhile,
      List.takeWhile_append_dropWhile]
  · exact fun x hx => List.mem_takeWhile_imp hx
  · exact fun x hx => List.mem_rtakeWhile_imp hx

theorem dropWhile_around (hb : ∀ x ∈ before, p x) (hc : ∀ x ∈ core, ¬ p x) (hne : core ≠ []) :
    (before ++ core ++ after).dropWhile p = core ++ after := by
  rw [List.append_assoc, List.dropWhile_append_of_pos hb]
  cases core with
  | nil => exact absurd rfl hne
  | cons x core =>
    have hx := hc x (by simp)
    rw [List.cons_append, List.dropWhile_cons_of_neg hx]

theorem trim_around (hb : ∀ x ∈ before, p x) (ha : ∀ x ∈ after, p x) (hc : ∀ x ∈ core, ¬ p x)
    (hne : core ≠ []) : trim p (before ++ core ++ after) = core := by
  have hrev : (core ++ after).reverse = after.reverse ++ core.reverse ++ [] := by simp
  rw [trim, dropWhile_around hb hc hne, List.rdropWhile, hrev,
    dropWhile_around (by simpa using ha) (by simpa using hc) (by simpa using hne),
    List.append_nil, List.reverse_reverse]

end FilePeeker
