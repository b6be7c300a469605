import FilePeeker.Browser.Tree
import FilePeeker.Lib.PreOrder

/-!
# Where the next rows go in

`Tree.Wf` is what holds of the rows and the placements at all times: the rows are
a pre-order, the placements are those of the rows that are loading, each is a
slot beneath its row, and no two rows share a request.  Every operation of the
tree keeps it, and none of them indexes out of bounds.

`Wf 0` says that a placement is the end of its row's subtree, and is kept as long
as a row is expanded only with nothing beneath it.  `Wf 1` lets rows of an
earlier listing follow, and is kept by any expansion.
-/

namespace FilePeeker.Browser

open PreOrder

variable {μ : Type} {t t' : Tree μ} {e i j k n : Nat} {id : RequestId} {p : Placement}
  {row : Row μ} {entries : List (DirectoryEntry μ)} {result : Except String Unit}

/-- The request of a listing that goes on. -/
def Expansion.inFlight : Expansion → Option RequestId
  | .loading requestId => some requestId
  | _ => none

namespace Tree

def depths (t : Tree μ) : List Nat := t.rows.map Row.depth

structure Wf (e : Nat) (t : Tree μ) : Prop where
  outline : Outline t.depths
  slot : ∀ id p, t.placements.lookup id = some p →
    Slot t.depths e p.parent p.depth p.insertion
  loading : ∀ id p, t.placements.lookup id = some p →
    ∃ row : Row μ, t.rows[p.parent]? = some row ∧ row.expansion = .loading id
  placed : ∀ (i : Nat) (row : Row μ) id, t.rows[i]? = some row → row.expansion = .loading id →
    ∃ p, t.placements.lookup id = some p
  requests : ∀ (i j : Nat) (row row' : Row μ) id, t.rows[i]? = some row → t.rows[j]? = some row' →
    row.expansion.requestId = some id → row'.expansion.requestId = some id → i = j

theorem depths_getElem? (i : Nat) : t.depths[i]? = t.rows[i]?.map Row.depth :=
  List.getElem?_map

theorem depths_of_row (h : t.rows[i]? = some row) : t.depths[i]? = some row.depth := by
  rw [depths_getElem?, h, Option.map_some]

@[simp] theorem length_depths (t : Tree μ) : t.depths.length = t.rows.length := List.length_map _

theorem wf_new (rootPath : PathString) : (Tree.new rootPath : Tree μ).Wf e :=
  ⟨outline_nil, by simp [new], by simp [new], by simp [new], by simp [new]⟩

theorem wf_restart (t : Tree μ) : t.restart.Wf e :=
  ⟨outline_nil, by simp [restart], by simp [restart], by simp [restart], by simp [restart]⟩

/-- A row that loads is the one its placement names. -/
theorem Wf.parent_eq (h : t.Wf e) (hp : t.placements.lookup id = some p)
    (hi : t.rows[i]? = some row) (hrow : row.expansion.requestId = some id) : p.parent = i := by
  obtain ⟨row', hrow', hl⟩ := h.loading id p hp
  exact h.requests _ _ _ _ id hrow' hi (by rw [hl]; rfl) hrow

/-! ### Rows that come in -/

/-- The tree with `new` from row `k` on. -/
def Inserted (t t' : Tree μ) (k : Nat) (new : List (Row μ)) (d : Nat) : Prop :=
  t'.rows = splice k new t.rows ∧
  t'.placements = t.placements.map (Placement.afterInsertion k new.length d)

theorem depths_inserted {new : List (Row μ)} {d : Nat} (h : t.Inserted t' k new d)
    (hnew : ∀ r ∈ new, r.depth = d) : t'.depths = insertAt k new.length d t.depths := by
  rw [depths, h.1, map_splice, insertAt, depths]
  congr 1
  exact List.eq_replicate_iff.mpr ⟨List.length_map _, by
    intro x hx
    obtain ⟨r, hr, rfl⟩ := List.mem_map.mp hx
    exact hnew r hr⟩

theorem afterInsertion_parent (k c : Nat) (d : Nat) (p : Placement) :
    (p.afterInsertion k c d).parent = movedDown k c p.parent := by
  unfold Placement.afterInsertion movedDown
  by_cases h : k ≤ p.parent
  · rw [if_pos h, if_neg (by omega)]
  · have hlt : p.parent < k := by omega
    rw [if_neg h, if_pos hlt]
    split <;> rfl

/-- **Rows come in.**  Rows of one depth may go in wherever no subtree they are
not part of is cut in two. -/
theorem Wf.inserted {new : List (Row μ)} {d : Nat} (h : t.Wf e)
    (hins : t.Inserted t' k new d) (hk : k ≤ t.rows.length)
    (hnew : ∀ r ∈ new, r.depth = d ∧ r.expansion = .collapsed)
    (hin : ∀ id p, t.placements.lookup id = some p → p.parent < k → k < p.insertion → p.depth ≤ d)
    (hout : Outline (insertAt k new.length d t.depths)) : t'.Wf e := by
  have hdepths := depths_inserted hins fun r hr => (hnew r hr).1
  have hkd : k ≤ t.depths.length := by rwa [length_depths]
  have hlookup (id : RequestId) : t'.placements.lookup id =
      (t.placements.lookup id).map (Placement.afterInsertion k new.length d) := by
    rw [hins.2, Table.lookup_map]
  have hold (i : Nat) : t'.rows[movedDown k new.length i]? = t.rows[i]? := by
    rw [hins.1, splice_movedDown hk]
  -- A new row is collapsed, and any other row was there before.
  have hcases {i : Nat} {row : Row μ} (hi : t'.rows[i]? = some row) :
      row.expansion = .collapsed ∨
        ∃ i', i = movedDown k new.length i' ∧ t.rows[i']? = some row := by
    rcases splice_cases k new i with ⟨hki, hik⟩ | ⟨i', rfl⟩
    · rw [hins.1, splice_inside hk hki hik] at hi
      exact .inl (hnew row (List.mem_of_getElem? hi)).2
    · exact .inr ⟨i', rfl, by rwa [hold] at hi⟩
  refine ⟨hdepths ▸ hout, ?_, ?_, ?_, ?_⟩
  · intro id p' hp'
    rw [hlookup] at hp'
    obtain ⟨p, hp, rfl⟩ := Option.map_eq_some_iff.mp hp'
    have hslot := h.slot id p hp
    rw [hdepths, Placement.afterInsertion]
    split
    · next hkp => exact hslot.insertBefore hkp
    · next hkp =>
      split
      · next hkn =>
        have hlt : p.parent < k := Nat.not_le.mp hkp
        rcases hkn with hkn | ⟨hkn, hd⟩
        · exact hslot.insertInside hlt (Nat.le_of_lt hkn) (hin id p hp hlt hkn)
        · exact hslot.insertInside hlt (Nat.le_of_eq hkn) hd
      · next hkn => exact hslot.insertAfter hkd (by omega)
  · intro id p' hp'
    rw [hlookup] at hp'
    obtain ⟨p, hp, rfl⟩ := Option.map_eq_some_iff.mp hp'
    obtain ⟨row, hrow, hl⟩ := h.loading id p hp
    refine ⟨row, ?_, hl⟩
    rw [afterInsertion_parent, hold, hrow]
  · intro i row id hi hl
    rcases hcases hi with hc | ⟨i', rfl, hi'⟩
    · rw [hc] at hl
      exact absurd hl (by simp)
    · obtain ⟨p, hp⟩ := h.placed i' row id hi' hl
      exact ⟨_, by rw [hlookup, hp, Option.map_some]⟩
  · intro i j row row' id hi hj hrow hrow'
    rcases hcases hi with hc | ⟨i', rfl, hi'⟩
    · rw [hc] at hrow
      simp [Expansion.requestId] at hrow
    rcases hcases hj with hc | ⟨j', rfl, hj'⟩
    · rw [hc] at hrow'
      simp [Expansion.requestId] at hrow'
    rw [h.requests i' j' row row' id hi' hj' hrow hrow']

/-- The rows a group of root entries becomes. -/
def rootRows (t : Tree μ) (entries : List (DirectoryEntry μ)) : List (Row μ) :=
  entries.map fun entry => Row.new (childPath t.rootPath entry.name) 0 entry

/-- The rows a group of a directory's entries becomes. -/
def childRows (parent : Row μ) (depth : Nat) (entries : List (DirectoryEntry μ)) :
    List (Row μ) :=
  entries.map fun entry => Row.new (childPath parent.path entry.name) depth entry

theorem extendRoot_spec (t : Tree μ) (entries : List (DirectoryEntry μ)) :
    t.Inserted (t.extendRoot entries) t.rows.length (t.rootRows entries) 0 ∧
    (t.extendRoot entries).rootPath = t.rootPath ∧ (t.extendRoot entries).status = t.status := by
  have hlen : (t.rootRows entries).length = entries.length := List.length_map _
  have hrows : t.rows ++ t.rootRows entries =
      splice t.rows.length (t.rootRows entries) t.rows := by
    rw [splice, List.take_length, List.drop_length, List.append_nil]
  unfold extendRoot Inserted
  simp only
  split <;> exact ⟨⟨hrows, by rw [hlen]; rfl⟩, rfl, rfl⟩

theorem Wf.extendRoot (h : t.Wf e) (entries : List (DirectoryEntry μ)) :
    (t.extendRoot entries).Wf e := by
  refine h.inserted (extendRoot_spec t entries).1 (Nat.le_refl _) ?_ ?_ ?_
  · intro r hr
    obtain ⟨entry, -, rfl⟩ := List.mem_map.mp hr
    exact ⟨rfl, rfl⟩
  · intro id p hp _ hlt
    have := (h.slot id p hp).le
    rw [length_depths] at this
    omega
  · rw [← length_depths]
    exact h.outline.insertLast

/-- A group of entries for a placement that is there. -/
theorem extendChild_spec (h : t.Wf e) (hp : t.placements.lookup id = some p)
    (entries : List (DirectoryEntry μ)) :
    ∃ parent t', t.rows[p.parent]? = some parent ∧ t.extendChild id entries = some t' ∧
      t.Inserted t' p.insertion (childRows parent p.depth entries) p.depth ∧
      t'.rootPath = t.rootPath ∧ t'.status = t.status := by
  obtain ⟨parent, hparent, -⟩ := h.loading id p hp
  have hle : ¬ t.rows.length < p.insertion := by
    have := (h.slot id p hp).le
    rw [length_depths] at this
    omega
  have hlen : (childRows parent p.depth entries).length = entries.length := List.length_map _
  unfold extendChild
  simp only [hp, hparent, Option.bind_eq_bind, Option.bind_some, if_neg hle, pure]
  exact ⟨parent, _, rfl, rfl, ⟨rfl, by rw [hlen]; rfl⟩, rfl, rfl⟩

/-- A group of entries for no placement changes nothing. -/
theorem extendChild_none (hp : t.placements.lookup id = none)
    (entries : List (DirectoryEntry μ)) : t.extendChild id entries = some t := by
  rw [extendChild, hp]

theorem Wf.inside (he : e ≤ 1) (h : t.Wf e) {id' : RequestId} {q : Placement}
    (hp : t.placements.lookup id = some p) (hq : t.placements.lookup id' = some q)
    (hlt : q.parent < p.insertion) (hin : p.insertion < q.insertion) : q.depth ≤ p.depth :=
  ((h.slot id p hp).loosen he).depth_le ((h.slot id' q hq).loosen he) hlt hin

theorem Wf.extendChild (he : e ≤ 1) (h : t.Wf e) (hp : t.placements.lookup id = some p)
    (heq : t.extendChild id entries = some t') : t'.Wf e := by
  obtain ⟨parent, t₂, hparent, heq', hins, -, -⟩ := extendChild_spec h hp entries
  obtain rfl : t' = t₂ := by rw [heq, Option.some.injEq] at heq'; exact heq'
  have hslot := h.slot id p hp
  refine h.inserted hins (by have := hslot.le; rwa [length_depths] at this) ?_ ?_ ?_
  · intro r hr
    obtain ⟨entry, -, rfl⟩ := List.mem_map.mp hr
    exact ⟨rfl, rfl⟩
  · intro id' q hq hlt hin
    exact h.inside he hp hq hlt hin
  · exact h.outline.insertSlot (hslot.loosen he)

/-! ### A row that changes its expansion -/

/-- The tree with another expansion at row `i`. -/
def Marked (t t' : Tree μ) (i : Nat) (expansion : Expansion) : Prop :=
  ∃ row, t.rows[i]? = some row ∧ t'.rows = t.rows.set i { row with expansion }

theorem Marked.depths {expansion : Expansion} (h : t.Marked t' i expansion) :
    t'.depths = t.depths := by
  obtain ⟨row, hrow, heq⟩ := h
  obtain ⟨hlt, hget⟩ := List.getElem?_eq_some_iff.mp hrow
  rw [Tree.depths, Tree.depths, heq, List.map_set]
  apply List.ext_getElem?
  intro j
  rw [List.getElem?_set]
  split
  · next h =>
    subst h
    rw [if_pos (by rwa [List.length_map]), List.getElem?_map, hrow]
    rfl
  · rfl

theorem Marked.getElem? {expansion : Expansion} (h : t.Marked t' i expansion) (j : Nat) :
    t'.rows[j]? = t.rows[j]?.map fun row => if i = j then { row with expansion } else row := by
  obtain ⟨row, hrow, heq⟩ := h
  obtain ⟨hlt, -⟩ := List.getElem?_eq_some_iff.mp hrow
  rw [heq, List.getElem?_set]
  by_cases hij : i = j
  · subst hij
    rw [if_pos rfl, if_pos hlt, hrow]
    simp
  · rw [if_neg hij]
    cases t.rows[j]? <;> simp [hij]

/-- What the rows of a tree with a marked row are. -/
theorem Marked.cases {expansion : Expansion} (h : t.Marked t' i expansion) {j : Nat} {r : Row μ}
    (hj : t'.rows[j]? = some r) : ∃ row, t.rows[j]? = some row ∧
      (i = j ∧ r = { row with expansion } ∨ i ≠ j ∧ r = row) := by
  rw [h.getElem?] at hj
  obtain ⟨row, hrow, rfl⟩ := Option.map_eq_some_iff.mp hj
  refine ⟨row, hrow, ?_⟩
  by_cases hij : i = j
  · exact .inl ⟨hij, by rw [if_pos hij]⟩
  · exact .inr ⟨hij, by rw [if_neg hij]⟩

theorem Marked.other {expansion : Expansion} (h : t.Marked t' i expansion) (hij : i ≠ j) :
    t'.rows[j]? = t.rows[j]? := by
  rw [h.getElem?]
  cases t.rows[j]? <;> simp [hij]

theorem Wf.finishRoot (h : t.Wf e) (result : Except String Unit) : (t.finishRoot result).Wf e :=
  ⟨h.outline, h.slot, h.loading, h.placed, h.requests⟩

/-- What `finish_child` writes into the row. -/
def finished (id : RequestId) : Except String Unit → Expansion
  | .ok () => .expanded id
  | .error error => .failed id error

@[simp] theorem finished_requestId (id : RequestId) (result : Except String Unit) :
    (finished id result).requestId = some id := by
  cases result <;> rfl

theorem finished_ne_loading (id id' : RequestId) (result : Except String Unit) :
    finished id result ≠ .loading id' := by
  cases result <;> simp [finished]

theorem finishChild_spec (h : t.Wf e) (hp : t.placements.lookup id = some p)
    (result : Except String Unit) :
    ∃ t', t.finishChild id result = some t' ∧ t.Marked t' p.parent (finished id result) ∧
      t'.placements = t.placements.erase id ∧ t'.rootPath = t.rootPath ∧
      t'.status = t.status := by
  obtain ⟨parent, hparent, -⟩ := h.loading id p hp
  unfold finishChild
  simp only [hp, hparent, Option.bind_eq_bind, Option.bind_some]
  refine ⟨_, rfl, ⟨parent, hparent, ?_⟩, rfl, rfl, rfl⟩
  cases result <;> rfl

theorem finishChild_none (hp : t.placements.lookup id = none) (result : Except String Unit) :
    t.finishChild id result = some t := by
  unfold finishChild
  rw [hp]

theorem Wf.finishChild (h : t.Wf e) (hp : t.placements.lookup id = some p)
    (heq : t.finishChild id result = some t') : t'.Wf e := by
  obtain ⟨t₂, heq', hmark, hplace, -, -⟩ := finishChild_spec h hp result
  obtain rfl : t' = t₂ := by rw [heq, Option.some.injEq] at heq'; exact heq'
  have hlookup {id' : RequestId} {q : Placement} (hq : t'.placements.lookup id' = some q) :
      id' ≠ id ∧ t.placements.lookup id' = some q := by
    rw [hplace, Table.lookup_erase_if] at hq
    split at hq
    · simp at hq
    · next hne => exact ⟨hne, hq⟩
  obtain ⟨parent, hparent, hl⟩ := h.loading id p hp
  refine ⟨hmark.depths ▸ h.outline, ?_, ?_, ?_, ?_⟩
  · intro id' q hq
    rw [hmark.depths]
    exact h.slot id' q (hlookup hq).2
  · intro id' q hq
    obtain ⟨hne, hq⟩ := hlookup hq
    obtain ⟨row, hrow, hl'⟩ := h.loading id' q hq
    refine ⟨row, ?_, hl'⟩
    rw [hmark.other, hrow]
    intro hpq
    rw [← hpq, hparent, Option.some.injEq] at hrow
    rw [← hrow, hl, Expansion.loading.injEq] at hl'
    exact hne hl'.symm
  · intro i r id' hi hl'
    obtain ⟨row, hrow, ⟨rfl, rfl⟩ | ⟨hne, rfl⟩⟩ := hmark.cases hi
    · exact absurd hl' (finished_ne_loading _ _ _)
    · obtain ⟨q, hq⟩ := h.placed i r id' hrow hl'
      refine ⟨q, ?_⟩
      rw [hplace, Table.lookup_erase_if, if_neg, hq]
      rintro rfl
      exact hne (h.parent_eq hp hrow (by rw [hl']; rfl))
  · intro i j r r' id' hi hj hr hr'
    -- The row keeps the request it had.
    have hsame {i : Nat} {r : Row μ} (hi : t'.rows[i]? = some r)
        (hr : r.expansion.requestId = some id') :
        ∃ row, t.rows[i]? = some row ∧ row.expansion.requestId = some id' := by
      obtain ⟨row, hrow, ⟨rfl, rfl⟩ | ⟨hne, rfl⟩⟩ := hmark.cases hi
      · rw [hparent, Option.some.injEq] at hrow
        subst hrow
        rw [finished_requestId] at hr
        exact ⟨parent, hparent, by rw [hl]; exact hr⟩
      · exact ⟨r, hrow, hr⟩
    obtain ⟨row, hrow, hid⟩ := hsame hi hr
    obtain ⟨row', hrow', hid'⟩ := hsame hj hr'
    exact h.requests i j row row' id' hrow hrow' hid hid'

/-- No row has this request. -/
def Fresh (t : Tree μ) (id : RequestId) : Prop :=
  ∀ row ∈ t.rows, row.expansion.requestId ≠ some id

/-- Where the first group of a row's children goes in. -/
def firstPlacement (i depth : Nat) : Placement :=
  { parent := i, depth := depthBelow depth, insertion := i + 1 }

theorem beginExpansion_spec (id : RequestId) (hi : t.rows[i]? = some row) :
    ∃ t', t.beginExpansion i id = some (t', row.path) ∧ t.Marked t' i (.loading id) ∧
      t'.placements = t.placements.insert id (firstPlacement i row.depth) ∧
      t'.rootPath = t.rootPath ∧ t'.status = t.status ∧ t'.selectedIndex = t.selectedIndex := by
  rw [beginExpansion]
  simp only [hi, Option.bind_eq_bind, Option.bind_some]
  exact ⟨_, rfl, ⟨row, hi, rfl⟩, rfl, rfl, rfl, rfl⟩

theorem depthBelow_of_lt {depth : Nat} (h : depth < maxDepth) : depthBelow depth = depth + 1 :=
  Nat.min_eq_left h

/-- **A row is expanded.**  Its request is no other row's, and there is room
beneath it. -/
theorem Wf.beginExpansion (h : t.Wf e) (hi : t.rows[i]? = some row)
    (hidle : ∀ id', row.expansion ≠ .loading id') (hfresh : t.Fresh id)
    (hdepth : row.depth < maxDepth) (hslot : Slot t.depths e i (row.depth + 1) (i + 1))
    {path : PathString} (heq : t.beginExpansion i id = some (t', path)) : t'.Wf e := by
  obtain ⟨t₂, heq', hmark, hplace, -, -, -⟩ := beginExpansion_spec id hi
  obtain rfl : t' = t₂ := by
    rw [heq, Option.some.injEq, Prod.mk.injEq] at heq'
    exact heq'.1
  have hlookup {id' : RequestId} {q : Placement} (hq : t'.placements.lookup id' = some q) :
      id' = id ∧ q = firstPlacement i row.depth ∨
        id' ≠ id ∧ t.placements.lookup id' = some q := by
    rw [hplace, Table.lookup_insert_if] at hq
    split at hq
    · next heq => exact .inl ⟨heq, (Option.some.inj hq).symm⟩
    · next hne => exact .inr ⟨hne, hq⟩
  refine ⟨hmark.depths ▸ h.outline, ?_, ?_, ?_, ?_⟩
  · intro id' q hq
    rw [hmark.depths]
    rcases hlookup hq with ⟨rfl, rfl⟩ | ⟨hne, hq⟩
    · rw [firstPlacement, depthBelow_of_lt hdepth]
      exact hslot
    · exact h.slot id' q hq
  · intro id' q hq
    rcases hlookup hq with ⟨rfl, rfl⟩ | ⟨hne, hq⟩
    · exact ⟨{ row with expansion := .loading id' }, by rw [hmark.getElem?]; simp [firstPlacement, hi], rfl⟩
    · obtain ⟨row', hrow', hl⟩ := h.loading id' q hq
      refine ⟨row', ?_, hl⟩
      rw [hmark.other, hrow']
      rintro rfl
      rw [hi, Option.some.injEq] at hrow'
      exact hidle id' (hrow' ▸ hl)
  · intro j r id' hj hl
    obtain ⟨row', hrow', ⟨rfl, rfl⟩ | ⟨hne, rfl⟩⟩ := hmark.cases hj
    · obtain rfl : id = id' := Expansion.loading.inj hl
      exact ⟨_, by rw [hplace, Table.lookup_insert_if, if_pos rfl]⟩
    · obtain ⟨q, hq⟩ := h.placed j r id' hrow' hl
      refine ⟨q, ?_⟩
      rw [hplace, Table.lookup_insert_if, if_neg, hq]
      rintro rfl
      exact hfresh r (List.mem_of_getElem? hrow') (by rw [hl]; rfl)
  · have hone {j k : Nat} {r r' : Row μ} {id' : RequestId} (hj : t'.rows[j]? = some r)
        (hk : t'.rows[k]? = some r') (hr : r.expansion.requestId = some id')
        (hr' : r'.expansion.requestId = some id') : i = j → i = k := by
      rintro rfl
      obtain ⟨row₁, -, ⟨-, rfl⟩ | ⟨hne, -⟩⟩ := hmark.cases hj
      · obtain rfl : id = id' := Option.some.inj hr
        obtain ⟨row₂, hrow₂, ⟨hik, -⟩ | ⟨-, rfl⟩⟩ := hmark.cases hk
        · exact hik
        · exact absurd hr' (hfresh r' (List.mem_of_getElem? hrow₂))
      · exact absurd rfl hne
    intro j k r r' id' hj hk hr hr'
    by_cases hij : i = j
    · rw [← hone hj hk hr hr' hij, hij]
    by_cases hik : i = k
    · rw [← hone hk hj hr' hr hik, hik]
    rw [hmark.other hij] at hj
    rw [hmark.other hik] at hk
    exact h.requests j k r r' id' hj hk hr hr'

/-! ### A subtree that goes -/

theorem subtreeEnd_spec (hi : t.rows[i]? = some row) :
    ∃ stop, t.subtreeEnd i = some stop ∧ IsEnd t.depths i stop := by
  obtain ⟨hlt, -⟩ := List.getElem?_eq_some_iff.mp hi
  have hdi := depths_of_row hi
  unfold subtreeEnd
  simp only [hi, Option.bind_eq_bind, Option.bind_some, pure]
  cases hf : (t.rows.drop (i + 1)).findIdx? (fun other => other.depth ≤ row.depth) with
  | none =>
    refine ⟨_, rfl, hlt, by rw [length_depths], ?_, ?_⟩
    · intro j x y hij hj hx hy
      rw [hdi, Option.some.injEq] at hx
      subst hx
      rw [depths_getElem?] at hy
      obtain ⟨r, hr, rfl⟩ := Option.map_eq_some_iff.mp hy
      have hmem : r ∈ t.rows.drop (i + 1) := by
        refine List.mem_of_getElem? (i := j - (i + 1)) ?_
        rw [List.getElem?_drop, show i + 1 + (j - (i + 1)) = j by omega, hr]
      have := List.findIdx?_eq_none_iff.mp hf r hmem
      simpa using this
    · intro x y _ hy
      rw [List.getElem?_eq_none (by rw [length_depths])] at hy
      simp at hy
  | some offset =>
    obtain ⟨hoff, hle, hbefore⟩ := List.findIdx?_eq_some_iff_getElem.mp hf
    rw [List.length_drop] at hoff
    have hget (m : Nat) (hm : m < (t.rows.drop (i + 1)).length) :
        t.depths[i + 1 + m]? = some (t.rows.drop (i + 1))[m].depth := by
      rw [depths_getElem?, ← List.getElem?_drop, List.getElem?_eq_getElem hm, Option.map_some]
    refine ⟨i + 1 + offset, rfl, by omega, by rw [length_depths]; omega, ?_, ?_⟩
    · intro j x y hij hj hx hy
      rw [hdi, Option.some.injEq] at hx
      subst hx
      obtain ⟨m, rfl⟩ : ∃ m, j = i + 1 + m := ⟨j - (i + 1), by omega⟩
      have hm : m < (t.rows.drop (i + 1)).length := by rw [List.length_drop]; omega
      rw [hget m hm, Option.some.injEq] at hy
      have := hbefore m (by omega)
      simp only [decide_eq_true_eq] at this
      omega
    · intro x y hx hy
      rw [hdi, Option.some.injEq] at hx
      rw [hget offset (by rw [List.length_drop]; omega), Option.some.injEq] at hy
      simp only [decide_eq_true_eq] at hle
      omega

theorem lookup_dropPlacements : ∀ (ids : List RequestId) (placements : Table RequestId Placement)
    (id : RequestId), (dropPlacements placements ids).1.lookup id =
      if id ∈ ids then none else placements.lookup id := by
  intro ids
  induction ids with
  | nil => intro placements id; rw [dropPlacements, if_neg (by simp)]
  | cons a ids ih =>
    intro placements id
    rw [dropPlacements]
    cases ha : placements.lookup a with
    | none =>
      simp only [ih, List.mem_cons]
      by_cases hid : id = a
      · subst hid
        simp [ha]
      · simp [hid]
    | some p =>
      simp only [ih, List.mem_cons, Table.lookup_erase_if]
      by_cases hid : id = a
      · simp [hid]
      · simp [hid]

/-- What is reported is what was in flight. -/
theorem dropPlacements_snd : ∀ (ids : List RequestId) (placements : Table RequestId Placement),
    ids.Nodup → (dropPlacements placements ids).2 =
      ids.filter fun id => (placements.lookup id).isSome := by
  intro ids
  induction ids with
  | nil => intro placements _; rfl
  | cons a ids ih =>
    intro placements hnd
    obtain ⟨ha, hids⟩ := List.nodup_cons.mp hnd
    rw [dropPlacements]
    cases hl : placements.lookup a with
    | none =>
      show (dropPlacements placements ids).2 = _
      rw [ih placements hids, List.filter_cons_of_neg (by simp [hl])]
    | some p =>
      show a :: (dropPlacements (placements.erase a) ids).2 = _
      rw [ih _ hids, List.filter_cons_of_pos (by simp [hl])]
      congr 1
      apply List.filter_congr
      intro id hid
      rw [Table.lookup_erase_if, if_neg]
      rintro rfl
      exact ha hid

/-- The rows from `i` to before `stop`. -/
def subtree (t : Tree μ) (i stop : Nat) : List (Row μ) := (t.rows.take stop).drop i

theorem mem_subtree {stop : Nat} : row ∈ t.subtree i stop ↔
    ∃ j, i ≤ j ∧ j < stop ∧ t.rows[j]? = some row := by
  constructor
  · intro h
    obtain ⟨m, hm⟩ := List.mem_iff_getElem?.mp h
    rw [subtree, List.getElem?_drop, List.getElem?_take] at hm
    split at hm
    · next hlt => exact ⟨i + m, by omega, hlt, hm⟩
    · simp at hm
  · rintro ⟨j, hij, hj, hrow⟩
    refine List.mem_of_getElem? (i := j - i) ?_
    rw [subtree, List.getElem?_drop, show i + (j - i) = j by omega, List.getElem?_take, if_pos hj,
      hrow]

/-- The expansions that are in flight in a subtree. -/
def inFlight (t : Tree μ) (i stop : Nat) : List RequestId :=
  (t.subtree i stop).filterMap fun row => row.expansion.inFlight

/-- The requests of the rows of a subtree. -/
def requestsIn (t : Tree μ) (i stop : Nat) : List RequestId :=
  (t.subtree i stop).filterMap fun row => row.expansion.requestId

theorem mem_requestsIn {stop : Nat} : id ∈ t.requestsIn i stop ↔
    ∃ j row, i ≤ j ∧ j < stop ∧ t.rows[j]? = some row ∧ row.expansion.requestId = some id := by
  rw [requestsIn, List.mem_filterMap]
  constructor
  · rintro ⟨row, hrow, hid⟩
    obtain ⟨j, hij, hj, hget⟩ := mem_subtree.mp hrow
    exact ⟨j, row, hij, hj, hget, hid⟩
  · rintro ⟨j, row, hij, hj, hget, hid⟩
    exact ⟨row, mem_subtree.mpr ⟨j, hij, hj, hget⟩, hid⟩

/-- No request is twice in some rows. -/
theorem Wf.nodup_requests (h : t.Wf e) (i stop : Nat) : (t.requestsIn i stop).Nodup := by
  suffices hrows : (t.rows.filterMap fun row => row.expansion.requestId).Nodup by
    refine hrows.sublist (List.Sublist.filterMap _ ?_)
    exact (List.drop_sublist i _).trans (List.take_sublist stop _)
  rw [List.Nodup, List.pairwise_filterMap]
  rw [List.pairwise_iff_getElem]
  intro a b ha hb hab id hid id' hid' heq
  subst heq
  have := h.requests a b _ _ id (List.getElem?_eq_getElem ha) (List.getElem?_eq_getElem hb) hid hid'
  omega

/-- The requests that had a placement are those of the rows that load. -/
theorem Wf.filter_requests (h : t.Wf e) {rows : List (Row μ)} (hsub : ∀ r ∈ rows, r ∈ t.rows) :
    (rows.filterMap fun row => row.expansion.requestId).filter
      (fun id => (t.placements.lookup id).isSome) =
      rows.filterMap fun row => row.expansion.inFlight := by
  induction rows with
  | nil => rfl
  | cons r rows ih =>
    have hrest := ih fun r hr => hsub r (by simp [hr])
    obtain ⟨i, hi⟩ := List.mem_iff_getElem?.mp (hsub r (by simp))
    have hnone {id : RequestId} (hid : r.expansion.requestId = some id)
        (hload : ∀ id', r.expansion ≠ .loading id') : t.placements.lookup id = none := by
      cases hp : t.placements.lookup id with
      | none => rfl
      | some p =>
        obtain ⟨row, hrow, hl⟩ := h.loading id p hp
        rw [h.parent_eq hp hi hid, hi, Option.some.injEq] at hrow
        exact absurd (hrow ▸ hl) (hload id)
    rw [List.filterMap_cons, List.filterMap_cons]
    cases hex : r.expansion with
    | collapsed => exact hrest
    | loading id =>
      obtain ⟨p, hp⟩ := h.placed i r id hi hex
      show List.filter _ (id :: _) = id :: _
      rw [List.filter_cons_of_pos (by simp [hp]), hrest]
    | expanded id =>
      have := @hnone id (by rw [hex]; rfl) (by simp [hex])
      show List.filter _ (id :: _) = List.filterMap _ rows
      rw [List.filter_cons_of_neg (by simp [this]), hrest]
    | failed id error =>
      have := @hnone id (by rw [hex]; rfl) (by simp [hex])
      show List.filter _ (id :: _) = List.filterMap _ rows
      rw [List.filter_cons_of_neg (by simp [this]), hrest]

/-- The tree without the inside of the subtree of row `i`, which ends at `stop`. -/
structure Removed (t t' : Tree μ) (i stop : Nat) (row : Row μ) : Prop where
  rows : t'.rows = (removeRange (i + 1) stop t.rows).set i { row with expansion := .collapsed }
  lookup : ∀ id, t'.placements.lookup id =
    if id ∈ t.requestsIn i stop then none
    else (t.placements.lookup id).map (Placement.afterRemoval (i + 1) stop)
  rootPath : t'.rootPath = t.rootPath
  status : t'.status = t.status
  selectedIndex : t'.selectedIndex = some i

theorem collapse_spec (h : t.Wf e) (hi : t.rows[i]? = some row) :
    ∃ t' stop, t.collapse i = some (t', t.inFlight i stop) ∧ IsEnd t.depths i stop ∧
      t.subtreeEnd i = some stop ∧ t.Removed t' i stop row := by
  obtain ⟨stop, hstop, hend⟩ := subtreeEnd_spec hi
  have hids := dropPlacements_snd (t.requestsIn i stop) t.placements (h.nodup_requests i stop)
  rw [requestsIn, h.filter_requests fun r hr => ?_] at hids
  · unfold collapse
    simp only [hi, hstop, Option.bind_eq_bind, Option.bind_some, pure]
    refine ⟨_, stop, congrArg some (Prod.ext rfl hids), hend, rfl, rfl, fun id => ?_, rfl, rfl, rfl⟩
    show (Table.map _ _).lookup id = _
    rw [Table.lookup_map, lookup_dropPlacements]
    show Option.map _ (if id ∈ t.requestsIn i stop then none else _) = _
    split <;> rfl
  · obtain ⟨j, -, -, hj⟩ := mem_subtree.mp hr
    exact List.mem_of_getElem? hj

/-- Which row of the old tree a row was. -/
theorem Removed.getElem? {stop : Nat} (h : t.Removed t' i stop row) (hend : IsEnd t.depths i stop)
    (hi : t.rows[i]? = some row) {j : Nat} (hj : j < i + 1 ∨ stop ≤ j) :
    t'.rows[movedUp (i + 1) stop j]? =
      t.rows[j]?.map fun r => if j = i then { r with expansion := .collapsed } else r := by
  have hlt := hend.lt
  have hle := hend.le
  rw [length_depths] at hle
  rw [h.rows, List.getElem?_set]
  by_cases hji : j = i
  · subst hji
    have hm : movedUp (j + 1) stop j = j := by rw [movedUp, if_pos (by omega)]
    rw [hm, if_pos rfl, if_pos (by rw [length_removeRange (by omega) hle]; omega), hi]
    simp
  · have hm : ¬ i = movedUp (i + 1) stop j := by
      unfold movedUp
      split <;> omega
    rw [if_neg hm, removeRange_movedUp (by omega) hle hj]
    cases t.rows[j]? <;> simp [hji]

theorem Removed.depths {stop : Nat} (h : t.Removed t' i stop row) (hend : IsEnd t.depths i stop)
    (hi : t.rows[i]? = some row) : t'.depths = removeRange (i + 1) stop t.depths := by
  have hlt := hend.lt
  have hle := hend.le
  apply List.ext_getElem?
  intro j
  obtain ⟨m, rfl, hm⟩ := removeRange_cases (show i + 1 ≤ stop by omega) j
  rw [depths_getElem?, h.getElem? hend hi hm, removeRange_movedUp (by omega) hle hm, depths_getElem?,
    Option.map_map]
  congr 1
  funext r
  show (if m = i then _ else r : Row μ).depth = r.depth
  split <;> rfl

theorem Removed.cases {stop : Nat} (h : t.Removed t' i stop row) (hend : IsEnd t.depths i stop)
    (hi : t.rows[i]? = some row) {j : Nat} {r : Row μ} (hj : t'.rows[j]? = some r) :
    ∃ m, j = movedUp (i + 1) stop m ∧ (m < i + 1 ∨ stop ≤ m) ∧
      ∃ old, t.rows[m]? = some old ∧
        (m = i ∧ r = { old with expansion := .collapsed } ∨ m ≠ i ∧ r = old) := by
  have hlt := hend.lt
  obtain ⟨m, rfl, hm⟩ := removeRange_cases (show i + 1 ≤ stop by omega) j
  rw [h.getElem? hend hi hm] at hj
  obtain ⟨old, hold, rfl⟩ := Option.map_eq_some_iff.mp hj
  refine ⟨m, rfl, hm, old, hold, ?_⟩
  by_cases hmi : m = i
  · exact .inl ⟨hmi, by rw [if_pos hmi]⟩
  · exact .inr ⟨hmi, by rw [if_neg hmi]⟩

/-- **A subtree is closed.** -/
theorem Wf.collapse (he : e ≤ 1) (h : t.Wf e) (hi : t.rows[i]? = some row) {stop : Nat}
    (hend : IsEnd t.depths i stop) (hrem : t.Removed t' i stop row) : t'.Wf e := by
  have hlt := hend.lt
  have hdepths := hrem.depths hend hi
  -- A placement that stays is not of a row that goes.
  have hlookup {id : RequestId} {q : Placement} (hq : t'.placements.lookup id = some q) :
      ∃ p, t.placements.lookup id = some p ∧ q = p.afterRemoval (i + 1) stop ∧
        (p.parent < i ∨ stop ≤ p.parent) := by
    rw [hrem.lookup] at hq
    split at hq
    · simp at hq
    · next hnot =>
      obtain ⟨p, hp, rfl⟩ := Option.map_eq_some_iff.mp hq
      refine ⟨p, hp, rfl, ?_⟩
      by_contra hcon
      obtain ⟨r, hr, hl⟩ := h.loading id p hp
      exact hnot (mem_requestsIn.mpr
        ⟨p.parent, r, by omega, by omega, hr, by rw [hl]; rfl⟩)
  refine ⟨hdepths ▸ h.outline.remove hend, ?_, ?_, ?_, ?_⟩
  · intro id q hq
    obtain ⟨p, hp, rfl, hpar⟩ := hlookup hq
    have hslot := h.slot id p hp
    rw [hdepths, Placement.afterRemoval]
    split
    · next hsp => exact hslot.removeBefore hend hsp
    · next hsp =>
      have hpi : p.parent < i := by omega
      rcases (hslot.loosen he).outside hend hpi with hn | hn
      · rw [if_neg (by omega), if_neg (by omega)]
        exact hslot.removeAfter hend hn
      · rw [if_pos hn]
        exact hslot.removeInside hend hpi hn
  · intro id q hq
    obtain ⟨p, hp, rfl, hpar⟩ := hlookup hq
    obtain ⟨r, hr, hl⟩ := h.loading id p hp
    have hmoved : (p.afterRemoval (i + 1) stop).parent = movedUp (i + 1) stop p.parent := by
      unfold Placement.afterRemoval movedUp
      by_cases hsp : stop ≤ p.parent
      · rw [if_pos hsp, if_neg (by omega)]
      · have hpi : p.parent < i + 1 := by omega
        rw [if_neg hsp, if_pos hpi]
        split
        · rfl
        · split <;> rfl
    refine ⟨r, ?_, hl⟩
    rw [hmoved, hrem.getElem? hend hi (by omega), hr, Option.map_some, if_neg]
    omega
  · intro j r id hj hl
    obtain ⟨m, rfl, hm, old, hold, ⟨rfl, rfl⟩ | ⟨hne, rfl⟩⟩ := hrem.cases hend hi hj
    · exact absurd hl (by simp)
    · obtain ⟨p, hp⟩ := h.placed m r id hold hl
      refine ⟨p.afterRemoval (i + 1) stop, ?_⟩
      rw [hrem.lookup, hp, if_neg, Option.map_some]
      intro hin
      obtain ⟨k, r', hik, hk, hr', hid⟩ := mem_requestsIn.mp hin
      have := h.requests m k r r' id hold hr' (by rw [hl]; rfl) hid
      omega
  · intro j k r r' id hj hk hr hr'
    obtain ⟨m, rfl, hm, old, hold, ⟨rfl, rfl⟩ | ⟨hne, rfl⟩⟩ := hrem.cases hend hi hj
    · simp [Expansion.requestId] at hr
    obtain ⟨m', rfl, hm', old', hold', ⟨rfl, rfl⟩ | ⟨hne', rfl⟩⟩ := hrem.cases hend hi hk
    · simp [Expansion.requestId] at hr'
    rw [h.requests m m' r r' id hold hold' hr hr']

end Tree

end FilePeeker.Browser
