import FilePeeker.Browser.Placed
import FilePeeker.Lib.Hedge
import FilePeeker.Lib.Steps

/-!
# The rows are a tree of directories

`Directories` is what a browsed root is for: a tree in which every group of
entries is appended to the children of its own directory.  It knows no indices:
a group finds its directory by the request.

`rows_refine_directories`: after any operations, in any order, the rows are that
tree in pre-order, each with its path and depth; and each placement is at the end
of the subtree of the row that is loading.
-/

namespace FilePeeker.Browser

open PreOrder

variable {μ : Type}

/-- An entry in the tree, and how its listing stands. -/
structure Item (μ : Type) where
  entry : DirectoryEntry μ
  expansion : Expansion

def Item.new (entry : DirectoryEntry μ) : Item μ := { entry, expansion := .collapsed }

/-- What a node inherits: the path of the directory it is in, and its depth. -/
structure Above where
  path : PathString
  depth : Nat

def Above.down (above : Above) (item : Item μ) : Above :=
  { path := childPath above.path item.entry.name, depth := above.depth + 1 }

def Above.row (above : Above) (item : Item μ) : Row μ :=
  { path := childPath above.path item.entry.name
    depth := above.depth
    entry := item.entry
    expansion := item.expansion }

structure Directories (μ : Type) where
  rootPath : PathString
  tops : Hedge (Item μ)
  status : Status

namespace Directories

def new (rootPath : PathString) : Directories μ := { rootPath, tops := .nil, status := .loading }

/-- The tree in pre-order. -/
def rows (d : Directories μ) : List (Row μ) :=
  d.tops.flatten Above.down Above.row { path := d.rootPath, depth := 0 }

/-- Changes the directory that request `id` lists. -/
def modifyListed (d : Directories μ) (id : RequestId)
    (f : Item μ → Hedge (Item μ) → Item μ × Hedge (Item μ)) : Directories μ :=
  { d with tops := d.tops.modifyWhere (fun item => item.expansion = .loading id) f }

def modifyAt (d : Directories μ) (index : Nat)
    (f : Item μ → Hedge (Item μ) → Item μ × Hedge (Item μ)) : Directories μ :=
  { d with tops := d.tops.modifyAt f index }

end Directories

/-- What is done to a tree. -/
inductive TreeOp (μ : Type)
  | extendRoot (entries : List (DirectoryEntry μ))
  | finishRoot (result : Except String Unit)
  | beginExpansion (index : Nat) (requestId : RequestId)
  | extendChild (requestId : RequestId) (entries : List (DirectoryEntry μ))
  | finishChild (requestId : RequestId) (result : Except String Unit)
  | collapse (index : Nat)
  | restart

/-- The code's operation. -/
def Tree.apply (t : Tree μ) : TreeOp μ → Option (Tree μ)
  | .extendRoot entries => some (t.extendRoot entries)
  | .finishRoot result => some (t.finishRoot result)
  | .beginExpansion index requestId => (t.beginExpansion index requestId).map Prod.fst
  | .extendChild requestId entries => t.extendChild requestId entries
  | .finishChild requestId result => t.finishChild requestId result
  | .collapse index => (t.collapse index).map Prod.fst
  | .restart => some t.restart

/-- What the operation means for the directories. -/
def Directories.apply (d : Directories μ) : TreeOp μ → Directories μ
  | .extendRoot entries => { d with tops := d.tops.append (.leaves (entries.map Item.new)) }
  | .finishRoot result =>
    { d with
      status :=
        match result with
        | .ok () => .complete
        | .error error => .failed error }
  | .beginExpansion index requestId =>
    d.modifyAt index fun item below => ({ item with expansion := .loading requestId }, below)
  | .extendChild requestId entries =>
    d.modifyListed requestId fun item below =>
      (item, below.append (.leaves (entries.map Item.new)))
  | .finishChild requestId result =>
    d.modifyListed requestId fun item below =>
      ({ item with expansion := Tree.finished requestId result }, below)
  | .collapse index => d.modifyAt index fun item _ => ({ item with expansion := .collapsed }, .nil)
  | .restart => { d with tops := .nil, status := .loading }

/-- When an operation may be done: a row is expanded only when it is collapsed
with nothing beneath it, with a request no row has, and above the deepest level. -/
def TreeOp.Allowed (t : Tree μ) : TreeOp μ → Prop
  | .beginExpansion index requestId =>
    ∃ row, t.rows[index]? = some row ∧ row.expansion = .collapsed ∧
      t.subtreeEnd index = some (index + 1) ∧ t.Fresh requestId ∧ row.depth < maxDepth
  | .collapse index => index < t.rows.length
  | _ => True

instance (t : Tree μ) : (op : TreeOp μ) → Decidable (op.Allowed t)
  | .beginExpansion index requestId =>
    match h : t.rows[index]? with
    | none => .isFalse fun ⟨_, hrow, _⟩ => by rw [h] at hrow; cases hrow
    | some row =>
      decidable_of_iff
        (row.expansion = .collapsed ∧ t.subtreeEnd index = some (index + 1) ∧
          (∀ row ∈ t.rows, row.expansion.requestId ≠ some requestId) ∧ row.depth < maxDepth)
        ⟨fun hok => ⟨row, h, hok⟩,
          fun ⟨row', hrow', hok⟩ => by rw [h] at hrow'; cases hrow'; exact hok⟩
  | .collapse index => inferInstanceAs (Decidable (index < t.rows.length))
  | .extendRoot _ | .finishRoot _ | .extendChild .. | .finishChild .. | .restart => .isTrue trivial

/-- Both together. -/
def bothApply (s : Tree μ × Directories μ) (op : TreeOp μ) : Option (Tree μ × Directories μ) :=
  (s.1.apply op).map fun t => (t, s.2.apply op)

/-- The rows are the directories in pre-order. -/
structure Refines (t : Tree μ) (d : Directories μ) : Prop where
  rows : t.rows = d.rows
  rootPath : t.rootPath = d.rootPath
  status : t.status = d.status

variable {t t' : Tree μ} {d d' : Directories μ} {e i : Nat} {id : RequestId} {p : Placement}
  {row : Row μ} {entries : List (DirectoryEntry μ)} {result : Except String Unit}

theorem depths_ok : Hedge.Depths (α := Item μ) Above.down Above.row Above.depth Row.depth :=
  ⟨fun _ _ => rfl, fun _ _ => rfl⟩

/-- What a row shows of its entry. -/
def Row.item (row : Row μ) : Item μ := { entry := row.entry, expansion := row.expansion }

theorem Refines.items (h : Refines t d) : t.rows.map Row.item = d.tops.labels := by
  rw [h.rows, Directories.rows, Hedge.map_flatten fun _ _ => rfl]

/-- Every row has its node. -/
theorem Refines.node? (h : Refines t d) (hi : t.rows[i]? = some row) :
    ∃ (above : Above) (item : Item μ) (below : Hedge (Item μ)),
      d.tops.node? Above.down { path := d.rootPath, depth := 0 } i = some (above, item, below) ∧
      row = above.row item := by
  have hlt : i < d.tops.size := by
    have := (List.getElem?_eq_some_iff.mp hi).1
    rwa [h.rows, Directories.rows, Hedge.length_flatten] at this
  have hsome : (d.tops.node? Above.down { path := d.rootPath, depth := 0 } i).isSome :=
    Hedge.node?_isSome _ _ i hlt
  obtain ⟨⟨above, item, below⟩, hnode⟩ := Option.isSome_iff_exists.mp hsome
  refine ⟨above, item, below, hnode, ?_⟩
  rw [h.rows, Directories.rows, Hedge.getElem?_flatten hnode, Option.some.injEq] at hi
  exact hi.symm

/-- Where a row stands in the tree, and what a change of it does to the rows. -/
theorem Refines.node (h : Refines t d) (hi : t.rows[i]? = some row) :
    ∃ (above : Above) (item : Item μ) (below : Hedge (Item μ)) (before behind : List (Row μ)),
      row = above.row item ∧ before.length = i ∧ d.tops.labels[i]? = some item ∧
      IsEnd t.depths i (i + 1 + below.size) ∧
      t.rows = before ++ (row :: (below.flatten Above.down Above.row (above.down item) ++ behind)) ∧
      ∀ f, (d.modifyAt i f).rows = before ++ (above.row (f item below).1 ::
        ((f item below).2.flatten Above.down Above.row (above.down (f item below).1) ++ behind)) := by
  obtain ⟨above, item, below, hnode, hrow⟩ := h.node? hi
  obtain ⟨before, behind, hlen, heq, hmod⟩ := Hedge.exists_split Above.row hnode
  refine ⟨above, item, below, before, behind, hrow, hlen, Hedge.labels_of_node? hnode, ?_, ?_, ?_⟩
  · rw [Tree.depths, h.rows]
    exact depths_ok.isEnd hnode
  · rw [h.rows, Directories.rows, heq, Hedge.flatten_cons, Hedge.flatten_nil, List.append_nil, hrow,
      List.cons_append]
  · intro f
    show Hedge.flatten Above.down Above.row { path := d.rootPath, depth := 0 }
      (d.tops.modifyAt f i) = _
    rw [hmod f, Hedge.flatten_cons, Hedge.flatten_nil, List.append_nil, List.cons_append]

/-- A request that some row is loading changes that row's directory. -/
theorem Refines.modifyListed (h : Refines t d) (hwf : t.Wf e) (hi : t.rows[i]? = some row)
    (hl : row.expansion = .loading id) (f : Item μ → Hedge (Item μ) → Item μ × Hedge (Item μ)) :
    d.modifyListed id f = d.modifyAt i f := by
  have hlabel {j : Nat} {item : Item μ} (hj : d.tops.labels[j]? = some item) :
      ∃ r, t.rows[j]? = some r ∧ r.expansion = item.expansion := by
    rw [← h.items, List.getElem?_map] at hj
    obtain ⟨r, hr, rfl⟩ := Option.map_eq_some_iff.mp hj
    exact ⟨r, hr, rfl⟩
  have hitem : d.tops.labels[i]? = some row.item := by
    rw [← h.items, List.getElem?_map, hi, Option.map_some]
  rw [Directories.modifyListed, Directories.modifyAt, Hedge.modifyWhere_eq_modifyAt hitem]
  · exact decide_eq_true hl
  · intro j item hj hitem
    obtain ⟨r, hr, hre⟩ := hlabel hj
    have hrl : r.expansion = .loading id := by rw [hre]; exact of_decide_eq_true hitem
    exact hwf.requests j i r row id hr hi (by rw [hrl]; rfl) (by rw [hl]; rfl)

/-- A request that no row is loading changes nothing. -/
theorem Refines.modifyListed_none (h : Refines t d) (hwf : t.Wf e)
    (hp : t.placements.lookup id = none) (f : Item μ → Hedge (Item μ) → Item μ × Hedge (Item μ)) :
    d.modifyListed id f = d := by
  rw [Directories.modifyListed, Hedge.modifyWhere_none]
  intro item hitem
  rw [← h.items] at hitem
  obtain ⟨r, hr, rfl⟩ := List.mem_map.mp hitem
  obtain ⟨i, hi⟩ := List.mem_iff_getElem?.mp hr
  apply decide_eq_false
  intro hl
  obtain ⟨p, hp'⟩ := hwf.placed i r id hi hl
  rw [hp] at hp'
  simp at hp'

/-! ### Each operation -/

theorem refines_extendRoot (h : Refines t d) (entries : List (DirectoryEntry μ)) :
    Refines (t.extendRoot entries) (d.apply (.extendRoot entries)) := by
  obtain ⟨⟨hrows, -⟩, hroot, hstatus⟩ := Tree.extendRoot_spec t entries
  refine ⟨?_, hroot.trans h.rootPath, hstatus.trans h.status⟩
  rw [hrows, splice, List.take_length, List.drop_length, List.append_nil, h.rows]
  show _ = Hedge.flatten _ _ _ (d.tops.append _)
  rw [Hedge.flatten_append, Hedge.flatten_leaves, List.map_map, Tree.rootRows, h.rootPath]
  rfl

theorem refines_finishRoot (h : Refines t d) (result : Except String Unit) :
    Refines (t.finishRoot result) (d.apply (.finishRoot result)) := by
  refine ⟨h.rows, h.rootPath, ?_⟩
  cases result <;> rfl

/-- A row whose expansion changes is the same change of its node. -/
theorem Refines.marked (h : Refines t d) {expansion : Expansion} (hm : t.Marked t' i expansion)
    (hroot : t'.rootPath = t.rootPath) (hstatus : t'.status = t.status) :
    Refines t' (d.modifyAt i fun item below => ({ item with expansion }, below)) := by
  obtain ⟨row, hi, hrows⟩ := hm
  obtain ⟨above, item, below, before, behind, rfl, hlen, -, -, heq, hmod⟩ := h.node hi
  refine ⟨?_, hroot.trans h.rootPath, hstatus.trans h.status⟩
  rw [hrows, hmod, heq, ← hlen, List.set_append_right _ _ (Nat.le_refl _), Nat.sub_self,
    List.set_cons_zero]
  rfl

theorem refines_beginExpansion (h : Refines t d) {path : PathString}
    (heq : t.beginExpansion i id = some (t', path)) (hi : t.rows[i]? = some row) :
    Refines t' (d.apply (.beginExpansion i id)) := by
  obtain ⟨t₂, heq', hmark, -, hroot, hstatus, -⟩ := Tree.beginExpansion_spec id hi
  obtain rfl : t' = t₂ := by
    rw [heq, Option.some.injEq, Prod.mk.injEq] at heq'
    exact heq'.1
  exact h.marked hmark hroot hstatus

theorem refines_finishChild (h : Refines t d) (hwf : t.Wf e)
    (heq : t.finishChild id result = some t') :
    Refines t' (d.apply (.finishChild id result)) := by
  cases hp : t.placements.lookup id with
  | none =>
    rw [Tree.finishChild_none hp, Option.some.injEq] at heq
    rw [Directories.apply, h.modifyListed_none hwf hp, ← heq]
    exact h
  | some p =>
    obtain ⟨t₂, heq', hmark, -, hroot, hstatus⟩ := Tree.finishChild_spec hwf hp result
    obtain rfl : t' = t₂ := by rw [heq, Option.some.injEq] at heq'; exact heq'
    obtain ⟨row, hrow, hl⟩ := hwf.loading id p hp
    rw [Directories.apply, h.modifyListed hwf hrow hl]
    exact h.marked hmark hroot hstatus

/-- **A group goes to its own directory.**  It goes in at the end of the subtree
of the row that is loading, which is behind the children the directory has. -/
theorem refines_extendChild (h : Refines t d) (hwf : t.Wf 0)
    (heq : t.extendChild id entries = some t') :
    Refines t' (d.apply (.extendChild id entries)) := by
  cases hp : t.placements.lookup id with
  | none =>
    rw [Tree.extendChild_none hp, Option.some.injEq] at heq
    rw [Directories.apply, h.modifyListed_none hwf hp, ← heq]
    exact h
  | some p =>
    obtain ⟨parent, t₂, hparent, heq', ⟨hrows, -⟩, hroot, hstatus⟩ :=
      Tree.extendChild_spec hwf hp entries
    obtain rfl : t' = t₂ := by rw [heq, Option.some.injEq] at heq'; exact heq'
    obtain ⟨row, hrow, hl⟩ := hwf.loading id p hp
    obtain rfl : row = parent := by rw [hrow, Option.some.injEq] at hparent; exact hparent
    obtain ⟨above, item, below, before, behind, hab, hlen, -, hend, hsplit, hmod⟩ := h.node hrow
    have hslot := hwf.slot id p hp
    have hins : p.insertion = p.parent + 1 + below.size :=
      hslot.isEnd.unique hend (Tree.depths_of_row hrow)
    have hdepth : p.depth = above.depth + 1 := by
      obtain ⟨x, hx, hpx⟩ := hslot.parent
      rw [Tree.depths_of_row hrow, Option.some.injEq, hab] at hx
      rw [hpx, ← hx]
      rfl
    have hfront : (before ++ row :: below.flatten Above.down Above.row (above.down item)).length =
        p.insertion := by
      rw [List.length_append, List.length_cons, Hedge.length_flatten]
      omega
    refine ⟨?_, hroot.trans h.rootPath, hstatus.trans h.status⟩
    rw [Directories.apply, h.modifyListed hwf hrow hl, hmod, hrows, hsplit, splice,
      ← List.cons_append, ← List.append_assoc before, ← hfront, List.take_left, List.drop_left,
      Hedge.flatten_append, Hedge.flatten_leaves, List.map_map, hab]
    have hnew : Tree.childRows (above.row item) p.depth entries =
        entries.map (Above.row (above.down item) ∘ Item.new) := by
      rw [hdepth]
      rfl
    rw [hnew]
    simp

theorem refines_collapse (h : Refines t d) (hwf : t.Wf e) (hi : t.rows[i]? = some row)
    {ids : List RequestId} (heq : t.collapse i = some (t', ids)) :
    Refines t' (d.apply (.collapse i)) := by
  obtain ⟨t₂, stop, heq', hend, -, hrem⟩ := Tree.collapse_spec hwf hi
  obtain rfl : t' = t₂ := by
    rw [heq, Option.some.injEq, Prod.mk.injEq] at heq'
    exact heq'.1
  obtain ⟨above, item, below, before, behind, hab, hlen, -, hend', hsplit, hmod⟩ := h.node hi
  have hstop : stop = i + 1 + below.size := hend.unique hend' (Tree.depths_of_row hi)
  refine ⟨?_, hrem.rootPath.trans h.rootPath, hrem.status.trans h.status⟩
  have htake : t.rows.take (i + 1) = before ++ [row] := by
    have hfront : (before ++ [row]).length = i + 1 := by
      rw [List.length_append, List.length_singleton, hlen]
    have hassoc : t.rows = (before ++ [row]) ++
        (below.flatten Above.down Above.row (above.down item) ++ behind) := by
      rw [hsplit, List.append_assoc, List.singleton_append]
    rw [hassoc, ← hfront, List.take_left]
  have hdrop : t.rows.drop stop = behind := by
    have hfront : (before ++ row :: below.flatten Above.down Above.row (above.down item)).length =
        stop := by
      rw [List.length_append, List.length_cons, Hedge.length_flatten]
      omega
    rw [hsplit, ← hfront, ← List.cons_append, ← List.append_assoc before, List.drop_left]
  rw [Directories.apply, hmod, hrem.rows, removeRange, htake, hdrop, List.append_assoc, ← hlen,
    List.set_append_right _ _ (Nat.le_refl _), Nat.sub_self, hab]
  rfl

theorem refines_restart (h : Refines t d) : Refines t.restart (d.apply .restart) :=
  ⟨rfl, h.rootPath, rfl⟩

/-! ### Any operations -/

/-- What holds of both trees at all times. -/
structure InStep (s : Tree μ × Directories μ) : Prop where
  wf : s.1.Wf 0
  refines : Refines s.1 s.2

theorem wf_apply (hwf : t.Wf 0) (op : TreeOp μ) (hok : op.Allowed t) (heq : t.apply op = some t') :
    t'.Wf 0 := by
  cases op with
  | extendRoot entries => obtain rfl := Option.some.inj heq; exact hwf.extendRoot entries
  | finishRoot result => obtain rfl := Option.some.inj heq; exact hwf.finishRoot result
  | restart => obtain rfl := Option.some.inj heq; exact Tree.wf_restart t
  | beginExpansion i id =>
    obtain ⟨row, hi, hc, hend, hfresh, hdepth⟩ := hok
    obtain ⟨⟨t₂, path⟩, hb, rfl⟩ := Option.map_eq_some_iff.mp heq
    obtain ⟨stop, hstop, hIsEnd⟩ := Tree.subtreeEnd_spec hi
    obtain rfl : stop = i + 1 := by rw [hend, Option.some.injEq] at hstop; exact hstop.symm
    exact hwf.beginExpansion hi (by simp [hc]) hfresh hdepth
      (hIsEnd.slot (Tree.depths_of_row hi)) hb
  | extendChild id entries =>
    cases hp : t.placements.lookup id with
    | none =>
      rw [Tree.apply, Tree.extendChild_none hp, Option.some.injEq] at heq
      exact heq ▸ hwf
    | some p => exact hwf.extendChild (by omega) hp heq
  | finishChild id result =>
    cases hp : t.placements.lookup id with
    | none =>
      rw [Tree.apply, Tree.finishChild_none hp, Option.some.injEq] at heq
      exact heq ▸ hwf
    | some p => exact hwf.finishChild hp heq
  | collapse i =>
    obtain ⟨⟨t₂, ids⟩, hc, rfl⟩ := Option.map_eq_some_iff.mp heq
    obtain ⟨row, hi⟩ : ∃ row, t.rows[i]? = some row := ⟨_, List.getElem?_eq_getElem hok⟩
    obtain ⟨t₃, stop, heq', hend, -, hrem⟩ := Tree.collapse_spec hwf hi
    obtain rfl : t₂ = t₃ := by
      rw [hc, Option.some.injEq, Prod.mk.injEq] at heq'
      exact heq'.1
    exact hwf.collapse (by omega) hi hend hrem

theorem refines_apply (hwf : t.Wf 0) (h : Refines t d) {op : TreeOp μ} (hok : op.Allowed t)
    (heq : t.apply op = some t') : Refines t' (d.apply op) := by
  cases op with
  | extendRoot entries => obtain rfl := Option.some.inj heq; exact refines_extendRoot h entries
  | finishRoot result => obtain rfl := Option.some.inj heq; exact refines_finishRoot h result
  | restart => obtain rfl := Option.some.inj heq; exact refines_restart h
  | beginExpansion i id =>
    obtain ⟨row, hi, -⟩ := hok
    obtain ⟨⟨t₂, path⟩, hb, rfl⟩ := Option.map_eq_some_iff.mp heq
    exact refines_beginExpansion h hb hi
  | extendChild id entries => exact refines_extendChild h hwf heq
  | finishChild id result => exact refines_finishChild h hwf heq
  | collapse i =>
    obtain ⟨⟨t₂, ids⟩, hc, rfl⟩ := Option.map_eq_some_iff.mp heq
    obtain ⟨row, hi⟩ : ∃ row, t.rows[i]? = some row := ⟨_, List.getElem?_eq_getElem hok⟩
    exact refines_collapse h hwf hi hc

/-- No allowed operation indexes out of bounds. -/
theorem apply_isSome (hwf : t.Wf e) {op : TreeOp μ} (hok : op.Allowed t) :
    ∃ t', t.apply op = some t' := by
  cases op with
  | extendRoot entries => exact ⟨_, rfl⟩
  | finishRoot result => exact ⟨_, rfl⟩
  | restart => exact ⟨_, rfl⟩
  | beginExpansion i id =>
    obtain ⟨row, hi, -⟩ := hok
    obtain ⟨t', hb, -⟩ := Tree.beginExpansion_spec id hi
    exact ⟨t', by rw [Tree.apply, hb]; rfl⟩
  | extendChild id entries =>
    cases hp : t.placements.lookup id with
    | none => exact ⟨t, Tree.extendChild_none hp entries⟩
    | some p =>
      obtain ⟨parent, t', -, heq, -⟩ := Tree.extendChild_spec hwf hp entries
      exact ⟨t', heq⟩
  | finishChild id result =>
    cases hp : t.placements.lookup id with
    | none => exact ⟨t, Tree.finishChild_none hp result⟩
    | some p =>
      obtain ⟨t', heq, -⟩ := Tree.finishChild_spec hwf hp result
      exact ⟨t', heq⟩
  | collapse i =>
    obtain ⟨row, hi⟩ : ∃ row, t.rows[i]? = some row := ⟨_, List.getElem?_eq_getElem hok⟩
    obtain ⟨t', stop, heq, -⟩ := Tree.collapse_spec hwf hi
    exact ⟨t', by rw [Tree.apply, heq]; rfl⟩

theorem inStep_run {rootPath : PathString} {s : Tree μ × Directories μ}
    (h : Steps bothApply (fun s op => op.Allowed s.1) (.new rootPath, .new rootPath) s) :
    InStep s := by
  refine h.invariant ?_ ⟨Tree.wf_new rootPath, rfl, rfl, rfl⟩
  intro s op s' hs hok heq
  obtain ⟨t', ht', rfl⟩ := Option.map_eq_some_iff.mp heq
  exact ⟨wf_apply hs.wf op hok ht', refines_apply hs.wf hs.refines hok ht'⟩

/-- **The rows are the tree of directories.**  After any operations on a new
tree, in any order, the rows are the directories in pre-order; the placements are
those of the rows that load, each at the end of its row's subtree; a collapse
takes out what is beneath its row and reports what was in flight there; what
comes for another request changes nothing; and every operation succeeds. -/
theorem rows_refine_directories {rootPath : PathString} {t : Tree μ} {d : Directories μ}
    (h : Steps bothApply (fun s op => op.Allowed s.1) (.new rootPath, .new rootPath) (t, d)) :
    t.rows = d.rows ∧ t.rootPath = d.rootPath ∧ t.status = d.status ∧
    (∀ id, (∃ p, t.placements.lookup id = some p) ↔ ∃ row ∈ t.rows, row.expansion = .loading id) ∧
    (∀ id p, t.placements.lookup id = some p →
      (∃ row, t.rows[p.parent]? = some row ∧ row.expansion = .loading id) ∧
        t.subtreeEnd p.parent = some p.insertion) ∧
    (∀ i row, t.rows[i]? = some row →
      ∃ t' stop, t.collapse i = some (t', t.inFlight i stop) ∧ t.subtreeEnd i = some stop ∧
        t'.rows = t.rows.take i ++ { row with expansion := .collapsed } :: t.rows.drop stop) ∧
    (∀ id entries result, (∀ row ∈ t.rows, row.expansion ≠ .loading id) →
      t.extendChild id entries = some t ∧ t.finishChild id result = some t) ∧
    (∀ op : TreeOp μ, op.Allowed t → ∃ t', t.apply op = some t') := by
  obtain ⟨hwf, hrefines⟩ := inStep_run h
  simp only at hwf hrefines
  have hkeys (id : RequestId) : (∃ p, t.placements.lookup id = some p) ↔
      ∃ row ∈ t.rows, row.expansion = .loading id := by
    constructor
    · rintro ⟨p, hp⟩
      obtain ⟨row, hrow, hl⟩ := hwf.loading id p hp
      exact ⟨row, List.mem_of_getElem? hrow, hl⟩
    · rintro ⟨row, hrow, hl⟩
      obtain ⟨i, hi⟩ := List.mem_iff_getElem?.mp hrow
      exact hwf.placed i row id hi hl
  refine ⟨hrefines.rows, hrefines.rootPath, hrefines.status, hkeys, ?_, ?_, ?_, ?_⟩
  · intro id p hp
    obtain ⟨row, hrow, hl⟩ := hwf.loading id p hp
    obtain ⟨stop, hstop, hend⟩ := Tree.subtreeEnd_spec hrow
    refine ⟨⟨row, hrow, hl⟩, ?_⟩
    rw [hstop, hend.unique (hwf.slot id p hp).isEnd (Tree.depths_of_row hrow)]
  · intro i row hi
    obtain ⟨t', stop, heq, hend, hstop, hrem⟩ := Tree.collapse_spec hwf hi
    refine ⟨t', stop, heq, hstop, ?_⟩
    have hlt := (List.getElem?_eq_some_iff.mp hi).1
    rw [hrem.rows, removeRange, List.take_add_one, hi, Option.toList_some, List.append_assoc,
      List.set_append_right _ _ (by rw [List.length_take]; omega), List.length_take,
      Nat.min_eq_left (Nat.le_of_lt hlt), Nat.sub_self]
    rfl
  · intro id entries result hno
    have hp : t.placements.lookup id = none := by
      cases hp : t.placements.lookup id with
      | none => rfl
      | some p =>
        obtain ⟨row, hrow, hl⟩ := (hkeys id).mp ⟨p, hp⟩
        exact absurd hl (hno row hrow)
    exact ⟨Tree.extendChild_none hp entries, Tree.finishChild_none hp result⟩
  · intro op hok
    exact apply_isSome hwf hok

/-! ### A directory that is listed while its parent is -/

/-- A path of ASCII letters. -/
def letters (text : Bytes) : PathString :=
  if h : Utf8.Valid text then ⟨⟨text, h⟩⟩ else ⟨Str.empty⟩

/-- An entry named by one letter. -/
def entryNamed (letter : PathString) (navigable : Bool) : DirectoryEntry Unit :=
  { name := letter
    kind := if navigable then .directory else .file
    navigable
    metadata := ()
    defect := none }

/-- The directory `a` is expanded, and its groups come before and after a group
of the root. -/
def interleaved : Tree Unit × Directories Unit :=
  runs bothApply (fun s op => op.Allowed s.1) (.new (letters [0x72]), .new (letters [0x72]))
    [.extendRoot [entryNamed (letters [0x61]) true], .beginExpansion 0 1,
      .extendChild 1 [entryNamed (letters [0x62]) false],
      .extendRoot [entryNamed (letters [0x63]) false],
      .extendChild 1 [entryNamed (letters [0x64]) false]]

theorem reaches_interleaved :
    Steps bothApply (fun s op => op.Allowed s.1)
      (.new (letters [0x72]), .new (letters [0x72])) interleaved :=
  steps_runs _ _

theorem interleaved_rows : interleaved.1.rows = interleaved.2.rows ∧
    interleaved.1.rows.map (fun row => (row.entry.name, row.depth)) =
      [(letters [0x61], 0), (letters [0x62], 1), (letters [0x64], 1), (letters [0x63], 0)] :=
  ⟨(rows_refine_directories (t := interleaved.1) (d := interleaved.2) reaches_interleaved).1,
    by decide +kernel⟩

end FilePeeker.Browser
