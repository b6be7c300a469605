import Mathlib.Data.List.AList

/-!
# Finite tables

A hash map read as what it is for: a finite table from keys to values, here
`AList` with one value type.  Mathlib has the lookups of `insert` and `erase`;
this file adds them in the `if` form a case split wants, `modify`, `map`, `retain`,
the list of values, and the size that a removal shrinks.
-/

namespace FilePeeker

variable {K V : Type*} [DecidableEq K]

/-- A finite table from keys to values. -/
abbrev Table (K V : Type*) := AList (fun _ : K => V)

namespace Table

theorem lookup_insert_if (t : Table K V) (k a : K) (v : V) :
    (t.insert k v).lookup a = if a = k then some v else t.lookup a := by
  split
  · rename_i h
    subst h
    exact AList.lookup_insert t
  · rename_i h
    exact AList.lookup_insert_ne h

/-- What is found after an insertion was inserted, or was there. -/
theorem cases_of_lookup_insert {t : Table K V} {k a : K} {v w : V}
    (h : (t.insert k v).lookup a = some w) : a = k ∧ w = v ∨ t.lookup a = some w := by
  rw [lookup_insert_if] at h
  split at h
  · next heq => exact .inl ⟨heq, (Option.some.inj h).symm⟩
  · exact .inr h

theorem lookup_erase_if (t : Table K V) (k a : K) :
    (t.erase k).lookup a = if a = k then none else t.lookup a := by
  split
  · rename_i h
    subst h
    exact AList.lookup_erase _ t
  · rename_i h
    exact AList.lookup_erase_ne h

/-- Replaces the value at `k`, if there is one, by its image. -/
def modify (t : Table K V) (k : K) (f : V → V) : Table K V :=
  match t.lookup k with
  | none => t
  | some v => t.insert k (f v)

theorem lookup_modify (t : Table K V) (k a : K) (f : V → V) :
    (t.modify k f).lookup a = if a = k then (t.lookup a).map f else t.lookup a := by
  unfold modify
  cases h : t.lookup k with
  | none =>
    by_cases ha : a = k
    · rw [if_pos ha, ha, h, Option.map_none]
    · rw [if_neg ha]
  | some v =>
    rw [lookup_insert_if]
    by_cases ha : a = k
    · rw [if_pos ha, if_pos ha, ha, h, Option.map_some]
    · rw [if_neg ha, if_neg ha]

/-- Replaces every value by its image. -/
def map (t : Table K V) (f : V → V) : Table K V :=
  ⟨t.entries.map fun e => ⟨e.1, f e.2⟩, by
    have h := t.nodupKeys
    rw [List.NodupKeys, List.keys] at h ⊢
    rwa [List.map_map]⟩

theorem lookup_map (t : Table K V) (f : V → V) (a : K) :
    (t.map f).lookup a = (t.lookup a).map f := by
  suffices h : ∀ es : List (Σ _ : K, V),
      (List.dlookup a (es.map fun e => (⟨e.1, f e.2⟩ : Σ _ : K, V)) : Option V) =
        Option.map f (List.dlookup a es : Option V) from h t.entries
  intro es
  induction es with
  | nil => rfl
  | cons e es ih =>
    obtain ⟨k, v⟩ := e
    rw [List.map_cons]
    by_cases hk : a = k
    · subst hk
      rw [List.dlookup_cons_eq, List.dlookup_cons_eq]
      rfl
    · rw [List.dlookup_cons_ne _ _ hk, List.dlookup_cons_ne _ _ hk, ih]

/-- Keeps the keys that `keep` wants. -/
def retain (t : Table K V) (keep : K → Bool) : Table K V :=
  ⟨t.entries.filter fun e => keep e.1, t.nodupKeys.sublist List.filter_sublist⟩

theorem lookup_retain (t : Table K V) (keep : K → Bool) (a : K) :
    (t.retain keep).lookup a = if keep a then t.lookup a else none := by
  suffices h : ∀ es : List (Σ _ : K, V),
      (List.dlookup a (es.filter fun e => keep e.1) : Option V) =
        if keep a then (List.dlookup a es : Option V) else none from h t.entries
  intro es
  induction es with
  | nil => simp
  | cons e es ih =>
    obtain ⟨k, v⟩ := e
    rw [List.filter_cons]
    by_cases hk : a = k
    · subst hk
      cases hkeep : keep a with
      | true => simp [List.dlookup_cons_eq]
      | false => simpa [hkeep] using ih
    · split
      · rw [List.dlookup_cons_ne _ _ hk, List.dlookup_cons_ne _ _ hk, ih]
      · rw [ih, List.dlookup_cons_ne _ _ hk]

/-- The values, in the order the table holds them. -/
def values (t : Table K V) : List V := t.entries.map Sigma.snd

theorem mem_values {t : Table K V} {v : V} : v ∈ t.values ↔ ∃ k, t.lookup k = some v := by
  simp only [values, List.mem_map]
  constructor
  · rintro ⟨⟨k, w⟩, hmem, rfl⟩
    exact ⟨k, AList.mem_lookup_iff.mpr hmem⟩
  · rintro ⟨k, h⟩
    exact ⟨⟨k, v⟩, AList.mem_lookup_iff.mp h, rfl⟩

/-- The number of entries. -/
def size (t : Table K V) : Nat := t.keys.length

theorem size_erase_lt {t : Table K V} {k : K} {v : V} (h : t.lookup k = some v) :
    size (t.erase k) < t.size := by
  have hmem : k ∈ t.keys := AList.mem_keys.mp (AList.lookup_isSome.mp (by simp [h]))
  have hpos : 0 < t.keys.length := List.length_pos_of_mem hmem
  simp only [size, AList.keys_erase, List.length_erase_of_mem hmem]
  omega

theorem size_pos {t : Table K V} {k : K} {v : V} (h : t.lookup k = some v) : 0 < t.size :=
  Nat.zero_lt_of_lt (size_erase_lt h)

end Table

end FilePeeker
