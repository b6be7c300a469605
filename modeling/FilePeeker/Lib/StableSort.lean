import Mathlib.Data.List.Basic

/-!
# Where a stable sort puts two elements

`List.mergeSort` leaves two elements in their order where they are in order, equal ones
too, and turns them round where they are not (`pair_mergeSort_iff`).  So what holds of the
elements of a sorted list, one before the other, can be said of the list before it is
sorted (`pairwise_mergeSort_iff`).
-/

namespace FilePeeker

variable {α : Type*} {le : α → α → Bool} {l : List α} {a b : α}

/-- Of two elements one comes first. -/
theorem pair_sublist_of_mem (ha : a ∈ l) (hb : b ∈ l) (hne : a ≠ b) :
    [a, b].Sublist l ∨ [b, a].Sublist l := by
  induction l with
  | nil => cases ha
  | cons c l ih =>
    rcases List.mem_cons.mp ha with rfl | hal
    · have hbl := (List.mem_cons.mp hb).resolve_left (Ne.symm hne)
      exact .inl ((List.singleton_sublist.mpr hbl).cons_cons a)
    · rcases List.mem_cons.mp hb with rfl | hbl
      · exact .inr ((List.singleton_sublist.mpr hal).cons_cons b)
      · exact (ih hal hbl).imp (·.cons c) (·.cons c)

/-- Only one of them does. -/
theorem not_pair_sublist_of_nodup (hnodup : l.Nodup) (hab : [a, b].Sublist l) :
    ¬ [b, a].Sublist l := by
  induction l with
  | nil => cases hab
  | cons c l ih =>
    obtain ⟨hc, hnodup⟩ := List.nodup_cons.mp hnodup
    intro hba
    cases hab with
    | cons _ hab =>
      cases hba with
      | cons _ hba => exact ih hnodup hab hba
      | cons_cons _ _ => exact hc (hab.subset (by simp))
    | cons_cons _ hb =>
      cases hba with
      | cons _ hba => exact hc (hba.subset (by simp))
      | cons_cons _ _ => exact hc (List.singleton_sublist.mp hb)

section Sorted

variable (trans : ∀ a b c : α, le a b → le b c → le a c) (total : ∀ a b : α, le a b || le b a)
include trans total

theorem pair_mergeSort_iff (hnodup : l.Nodup) : [a, b].Sublist (l.mergeSort le) ↔
    [a, b].Sublist l ∧ le a b ∨ [b, a].Sublist l ∧ ¬ le b a := by
  have hsorted := List.pairwise_mergeSort trans total l
  have hnodup' : (l.mergeSort le).Nodup := (List.mergeSort_perm l le).nodup_iff.mpr hnodup
  constructor
  · intro h
    have hab : le a b := hsorted.forall_sublist h
    have hne : a ≠ b := List.pairwise_pair.mp (hnodup'.sublist h)
    have ha : a ∈ l := List.mem_mergeSort.mp (h.subset (by simp))
    have hb : b ∈ l := List.mem_mergeSort.mp (h.subset (by simp))
    refine (pair_sublist_of_mem ha hb hne).imp (fun hl => ⟨hl, hab⟩) fun hl => ⟨hl, fun hba => ?_⟩
    exact not_pair_sublist_of_nodup hnodup' h (List.pair_sublist_mergeSort trans total hba hl)
  · rintro (⟨h, hab⟩ | ⟨h, hba⟩)
    · exact List.pair_sublist_mergeSort trans total hab h
    · have ha : a ∈ l.mergeSort le := List.mem_mergeSort.mpr (h.subset (by simp))
      have hb : b ∈ l.mergeSort le := List.mem_mergeSort.mpr (h.subset (by simp))
      have hne : a ≠ b := (List.pairwise_pair.mp (hnodup.sublist h)).symm
      refine (pair_sublist_of_mem ha hb hne).resolve_right fun hl => ?_
      exact hba (hsorted.forall_sublist hl)

/-- **What holds along the sorted list**, said of the list before. -/
theorem pairwise_mergeSort_iff (hnodup : l.Nodup) {R : α → α → Prop} :
    (l.mergeSort le).Pairwise R ↔
      l.Pairwise fun a b => (le a b → R a b) ∧ (¬ le a b → R b a) := by
  rw [List.pairwise_iff_forall_sublist, List.pairwise_iff_forall_sublist]
  constructor
  · intro h a b hab
    exact ⟨fun hle => h ((pair_mergeSort_iff trans total hnodup).mpr (.inl ⟨hab, hle⟩)),
      fun hle => h ((pair_mergeSort_iff trans total hnodup).mpr (.inr ⟨hab, hle⟩))⟩
  · intro h a b hab
    rcases (pair_mergeSort_iff trans total hnodup).mp hab with ⟨hl, hle⟩ | ⟨hl, hle⟩
    · exact (h hl).1 hle
    · exact (h hl).2 hle

end Sorted

end FilePeeker
