import FilePeeker.Lib.PreOrder
import Mathlib.Logic.Relation

/-!
# The rows above a row

A row of a pre-order is above another where everything after it, up to the other, is deeper
than it is.  In an outline these are the parent of the row, the parent of that, and so on
(`isAncestor_iff_parents`).
-/

namespace FilePeeker

namespace PreOrder

variable {ds : List Nat} {d i j k p x y : Nat}

/-- Row `j` is in the subtree of row `i`, and not that row itself. -/
structure IsAncestor (ds : List Nat) (i j : Nat) : Prop where
  lt : i < j
  inside : ∀ m x y, i < m → m ≤ j → ds[i]? = some x → ds[m]? = some y → x < y

theorem IsAncestor.depth_lt (h : IsAncestor ds i j) (hi : ds[i]? = some x)
    (hj : ds[j]? = some y) : x < y := h.inside j x y h.lt (Nat.le_refl j) hi hj

theorem IsAncestor.trans (h : IsAncestor ds i j) (h' : IsAncestor ds j k)
    (hj : ds[j]? = some x) : IsAncestor ds i k where
  lt := Nat.lt_trans h.lt h'.lt
  inside m y z him hmk hi hm := by
    by_cases hmj : m ≤ j
    · exact h.inside m y z him hmj hi hm
    · have hbelow := h'.inside m x z (by omega) hmk hj hm
      have habove := h.depth_lt hi hj
      omega

/-- The rows between an ancestor and a row are beneath the ancestor, too. -/
theorem IsAncestor.between (h : IsAncestor ds i k) (hij : i < j) (hjk : j ≤ k) :
    IsAncestor ds i j where
  lt := hij
  inside m x y him hmj hi hm := h.inside m x y him (Nat.le_trans hmj hjk) hi hm

theorem IsParent.isAncestor (h : IsParent ds i j) : IsAncestor ds i j where
  lt := h.lt
  inside m x y him hmj hi hm := by
    obtain ⟨d, hdi, hdj⟩ := h.depth
    obtain rfl : x = d := Option.some.inj (hi.symm.trans hdi)
    rcases Nat.lt_or_eq_of_le hmj with hlt | rfl
    · exact h.between m x y him hlt hi hm
    · have := Option.some.inj (hm.symm.trans hdj)
      omega

/-- A row that is not at depth 0 is the child of a row: going back over rows that are no
less deep comes to one that is. -/
theorem Outline.exists_parent (h : Outline ds) (hj : ds[j]? = some (d + 1)) :
    ∃ i, IsParent ds i j := by
  have hback : ∀ k ≤ j, (∀ m x, k ≤ m → m < j → ds[m]? = some x → d < x) →
      ∃ i, IsParent ds i j := by
    intro k
    induction k with
    | zero =>
      intro _ hdeep
      obtain ⟨hlen, _⟩ := List.getElem?_eq_some_iff.mp hj
      have hfirst := h.first ds[0] (List.getElem?_eq_getElem (by omega))
      rcases Nat.eq_zero_or_pos j with rfl | hpos
      · have := h.first (d + 1) hj
        omega
      · have := hdeep 0 ds[0] (Nat.le_refl 0) hpos (List.getElem?_eq_getElem (by omega))
        omega
    | succ k ih =>
      intro hkj hdeep
      obtain ⟨hlen, _⟩ := List.getElem?_eq_some_iff.mp hj
      have hk : ds[k]? = some ds[k] := List.getElem?_eq_getElem (by omega)
      have hk' : ds[k + 1]? = some ds[k + 1] := List.getElem?_eq_getElem (by omega)
      by_cases hdk : d < ds[k]
      · refine ih (by omega) fun m x hkm hmj hm => ?_
        rcases Nat.lt_or_eq_of_le hkm with hlt | rfl
        · exact hdeep m x hlt hmj hm
        · rw [hk] at hm
          cases hm
          exact hdk
      · have hnext := h.next k ds[k] ds[k + 1] hk hk'
        have hdeeper : d < ds[k + 1] := by
          rcases Nat.lt_or_eq_of_le hkj with hlt | rfl
          · exact hdeep (k + 1) _ (Nat.le_refl _) hlt hk'
          · have := Option.some.inj (hk'.symm.trans hj)
            omega
        have hdepth : ds[k] = d := by omega
        refine ⟨k, by omega, ⟨d, by rw [hk, hdepth], hj⟩, fun m x y hkm hmj hx hy => ?_⟩
        rw [hk, hdepth] at hx
        cases hx
        exact hdeep m y hkm hmj hy
  exact hback j (Nat.le_refl j) fun m x hjm hmj => absurd hmj (Nat.not_lt.mpr hjm)

/-- **The rows above a row are its parent, the parent of that, and so on.** -/
theorem isAncestor_iff_parents (h : Outline ds) (hj : j < ds.length) :
    IsAncestor ds i j ↔ Relation.TransGen (IsParent ds) i j := by
  constructor
  · intro hij
    induction j using Nat.strongRecOn with
    | ind j ih =>
      have hdj : ds[j]? = some ds[j] := List.getElem?_eq_getElem hj
      have hi : i < ds.length := Nat.lt_trans hij.lt hj
      have hdi : ds[i]? = some ds[i] := List.getElem?_eq_getElem hi
      have hdeep := hij.depth_lt hdi hdj
      obtain ⟨d, hd⟩ : ∃ d, ds[j] = d + 1 := ⟨ds[j] - 1, by omega⟩
      rw [hd] at hdj
      obtain ⟨p, hp⟩ := h.exists_parent hdj
      obtain ⟨x, hpx, hjx⟩ := hp.depth
      have hxd : x = d := by
        have := Option.some.inj (hjx.symm.trans hdj)
        omega
      -- A row before the parent has the parent in its subtree, or ends before it.
      rcases Nat.lt_trichotomy p i with hpi | rfl | hip
      · have := hp.between i x _ hpi hij.lt hpx hdi
        omega
      · exact .single hp
      · have hplen : p < ds.length := Nat.lt_trans hp.lt hj
        exact .tail (ih p hp.lt hplen (hij.between hip (Nat.le_of_lt hp.lt))) hp
  · intro hparents
    induction hparents with
    | single hp => exact hp.isAncestor
    | @tail b c _ hp ih =>
      obtain ⟨x, hbx, -⟩ := hp.depth
      exact (ih (Nat.lt_trans hp.lt hj)).trans hp.isAncestor hbx

end PreOrder

end FilePeeker
