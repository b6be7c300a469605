import FilePeeker.Lib.Table

/-!
# A table and the order of its keys

A hash map has no order, so the order its keys are shown in is a list of its own:
`Ordered order table` says that the list has each key of the table once, and nothing
else.  A key goes in at the end of the order, and one that is taken out may leave a
neighbour to go on with (`neighbour`).
-/

namespace FilePeeker

section Neighbour

variable {K : Type*} {order : List K}

/-- What is now where the key was, or at the end if that was the last. -/
def neighbour (order : List K) (index : Nat) : Option K := order[min index (order.length - 1)]?

theorem neighbour_of_ne_nil (h : order ≠ []) (index : Nat) :
    ∃ k ∈ order, neighbour order index = some k := by
  have hlt : min index (order.length - 1) < order.length := by
    have := List.length_pos_of_ne_nil h
    omega
  exact ⟨order[min index (order.length - 1)], List.getElem_mem hlt, List.getElem?_eq_getElem hlt⟩

theorem neighbour_mem {k : K} {index : Nat} (h : neighbour order index = some k) : k ∈ order :=
  List.mem_of_getElem? h

end Neighbour

variable {K V : Type*} [DecidableEq K] {order : List K} {table : Table K V} {k : K}

/-- The order lists the keys of the table, each once. -/
structure Ordered (order : List K) (table : Table K V) : Prop where
  nodup : order.Nodup
  mem : ∀ k, k ∈ order ↔ (table.lookup k).isSome

namespace Ordered

theorem empty : Ordered ([] : List K) (∅ : Table K V) :=
  ⟨List.nodup_nil, fun _ => ⟨fun h => absurd h List.not_mem_nil, fun h => by cases h⟩⟩

theorem ne_nil_iff (h : Ordered order table) : order ≠ [] ↔ ∃ k v, table.lookup k = some v := by
  rw [List.ne_nil_iff_exists_cons]
  constructor
  · rintro ⟨k, rest, rfl⟩
    exact ⟨k, Option.isSome_iff_exists.mp ((h.mem k).mp List.mem_cons_self)⟩
  · rintro ⟨k, v, hk⟩
    have hin : k ∈ order := (h.mem k).mpr (by rw [hk]; rfl)
    exact List.ne_nil_iff_exists_cons.mp (List.ne_nil_of_mem hin)

/-- Another value under each key. -/
theorem congr (h : Ordered order table) {table' : Table K V}
    (hkeys : ∀ k, (table'.lookup k).isSome = (table.lookup k).isSome) : Ordered order table' :=
  ⟨h.nodup, fun k => by rw [h.mem, hkeys]⟩

/-- A key goes in at the end. -/
theorem push (h : Ordered order table) (hk : table.lookup k = none) (v : V) :
    Ordered (order ++ [k]) (table.insert k v) := by
  have hnot : k ∉ order := by
    rw [h.mem, hk]
    exact Bool.false_ne_true
  refine ⟨?_, fun a => ?_⟩
  · exact List.nodup_append.mpr ⟨h.nodup, List.nodup_singleton k, by
      rintro a ha b hb rfl
      exact hnot (List.mem_singleton.mp hb ▸ ha)⟩
  · rw [List.mem_append, List.mem_singleton, h.mem, Table.lookup_insert_if]
    by_cases ha : a = k
    · simp [ha]
    · simp [ha]

/-- A key is taken out, of the table and of the order. -/
theorem drop (h : Ordered order table) (k : K) :
    Ordered (order.filter (· ≠ k)) (table.erase k) := by
  refine ⟨h.nodup.filter _, fun a => ?_⟩
  rw [List.mem_filter, h.mem, Table.lookup_erase_if]
  by_cases ha : a = k
  · simp [ha]
  · simp [ha]

/-- Taken out at its place, a key is gone from the order. -/
theorem eraseIdx_eq (h : Ordered order table) {index : Nat} (hindex : order.idxOf? k = some index) :
    order.eraseIdx index = order.filter (· ≠ k) := by
  have herase : order.erase k = order.eraseIdx index := by
    rw [List.erase_eq_eraseIdx, hindex]
  rw [← herase, h.nodup.erase_eq_filter]
  exact List.filter_congr fun a _ => by rw [bne, beq_eq_decide, decide_not]

end Ordered

end FilePeeker
