import FilePeeker.Browser.Refines
import FilePeeker.Gui.App

/-!
# Whose rows the root shows

An event of a root listing only says which browser it is for.  A browser that is
given another root while its root is being listed takes what the old listing
still sends for the new root's (`old_root_fills_new_root`).

`rows_of_current_root` says what holds of the runs in which a browser gets
another root only once its own is listed: the top rows are what the listing of
the current root delivered, the status is that listing's, and what a listing of
an earlier root sends changes nothing.
-/

namespace FilePeeker.Gui

open FilePeeker.Browser PreOrder

variable {μ : Type}

/-! ### The top rows of a tree -/

/-- The entries of the rows at depth 0. -/
def topEntries (tree : Browser.Tree μ) : List (DirectoryEntry μ) :=
  (tree.rows.filter fun row => row.depth = 0).map Row.entry

/-- Groups of directories go in below the top. -/
def Deep (tree : Browser.Tree μ) : Prop :=
  ∀ id p, tree.placements.lookup id = some p → 0 < p.depth

/-- A change below the top, which places no request but `new`. -/
structure Below (t t' : Browser.Tree μ) (new : Option RequestId) : Prop where
  tops : topEntries t' = topEntries t
  rootPath : t'.rootPath = t.rootPath
  status : t'.status = t.status
  deep : Deep t → Deep t'
  placed : ∀ id p', t'.placements.lookup id = some p' →
    new = some id ∨ ∃ p, t.placements.lookup id = some p

variable {t t' t'' : Browser.Tree μ} {new : Option RequestId} {id : RequestId} {i : Nat}
  {row : Row μ}

theorem Below.refl (t : Browser.Tree μ) : Below t t none :=
  ⟨rfl, rfl, rfl, fun h => h, fun _ p h => .inr ⟨p, h⟩⟩

theorem Below.trans (h : Below t t' none) (h' : Below t' t'' new) : Below t t'' new := by
  refine ⟨h'.tops.trans h.tops, h'.rootPath.trans h.rootPath, h'.status.trans h.status,
    fun hd => h'.deep (h.deep hd), fun id p' hp' => ?_⟩
  rcases h'.placed id p' hp' with hnew | ⟨p, hp⟩
  · exact .inl hnew
  · rcases h.placed id p hp with hnone | hold
    · simp at hnone
    · exact .inr hold

/-- How a row is expanded does not show at the top. -/
theorem topEntries_set {expansion : Expansion} (hi : t.rows[i]? = some row)
    (h : t'.rows = t.rows.set i { row with expansion }) : topEntries t' = topEntries t := by
  obtain ⟨hlt, hget⟩ := List.getElem?_eq_some_iff.mp hi
  have hsplit : t.rows = t.rows.take i ++ row :: t.rows.drop (i + 1) := by
    rw [← hget, List.getElem_cons_drop, List.take_append_drop]
  have hset : t'.rows = t.rows.take i ++ { row with expansion } :: t.rows.drop (i + 1) := by
    rw [h, List.set_eq_take_append_cons_drop, if_pos hlt]
  rw [topEntries, topEntries, hset]
  conv => rhs; rw [hsplit]
  simp only [List.filter_append, List.filter_cons, List.map_append]
  by_cases hdepth : row.depth = 0
  · simp [hdepth]
  · simp [hdepth]

theorem depth_afterInsertion (index count depth : Nat) (p : Placement) :
    (p.afterInsertion index count depth).depth = p.depth := by
  unfold Placement.afterInsertion
  split
  · rfl
  · split <;> rfl

theorem depth_afterRemoval (start stop : Nat) (p : Placement) :
    (p.afterRemoval start stop).depth = p.depth := by
  unfold Placement.afterRemoval
  simp only
  split
  · rfl
  · split
    · rfl
    · split <;> rfl

theorem topEntries_extendRoot (t : Browser.Tree μ) (entries : List (DirectoryEntry μ)) :
    topEntries (t.extendRoot entries) = topEntries t ++ entries := by
  obtain ⟨⟨hrows, -⟩, -⟩ := Tree.extendRoot_spec t entries
  have hnew : ((t.rootRows entries).filter fun row => row.depth = 0).map Row.entry = entries := by
    rw [List.filter_eq_self.mpr, Tree.rootRows, List.map_map]
    · exact List.map_id _
    · intro row hrow
      obtain ⟨entry, -, rfl⟩ := List.mem_map.mp hrow
      exact decide_eq_true rfl
  rw [topEntries, hrows, splice, List.take_length, List.drop_length, List.append_nil,
    List.filter_append, List.map_append, hnew]
  rfl

theorem deep_extendRoot (entries : List (DirectoryEntry μ)) (h : Deep t) :
    Deep (t.extendRoot entries) := by
  intro id p hp
  obtain ⟨⟨-, hplaced⟩, -⟩ := Tree.extendRoot_spec t entries
  rw [hplaced, Table.lookup_map, Option.map_eq_some_iff] at hp
  obtain ⟨q, hq, rfl⟩ := hp
  rw [depth_afterInsertion]
  exact h id q hq

theorem placed_extendRoot {entries : List (DirectoryEntry μ)} {p' : Placement}
    (h : (t.extendRoot entries).placements.lookup id = some p') :
    ∃ p, t.placements.lookup id = some p := by
  obtain ⟨⟨-, hplaced⟩, -⟩ := Tree.extendRoot_spec t entries
  rw [hplaced, Table.lookup_map, Option.map_eq_some_iff] at h
  obtain ⟨p, hp, -⟩ := h
  exact ⟨p, hp⟩

theorem below_extendChild {entries : List (DirectoryEntry μ)} (hdeep : Deep t)
    (h : t.extendChild id entries = some t') : Below t t' none := by
  rw [Tree.extendChild] at h
  split at h
  · obtain rfl := Option.some.inj h
    exact .refl t
  · next p hp =>
    simp only [Option.bind_eq_bind, Option.bind_eq_some_iff] at h
    obtain ⟨parent, -, h⟩ := h
    split at h
    · simp at h
    · obtain rfl := Option.some.inj h
      have hplaced {id : RequestId} {q : Placement} (hq : (t.placements.map (Placement.afterInsertion
          p.insertion entries.length p.depth)).lookup id = some q) :
          ∃ p', t.placements.lookup id = some p' ∧
            p'.afterInsertion p.insertion entries.length p.depth = q := by
        rwa [Table.lookup_map, Option.map_eq_some_iff] at hq
      refine ⟨?_, rfl, rfl, fun _ id q hq => ?_, fun id q hq => ?_⟩
      · -- The new rows are as deep as the placement says.
        have hnew : (entries.map fun entry => Row.new (childPath parent.path entry.name) p.depth
            entry).filter (fun row => row.depth = 0) = [] := by
          rw [List.filter_eq_nil_iff]
          intro row hrow
          obtain ⟨entry, -, rfl⟩ := List.mem_map.mp hrow
          have hpos := hdeep _ p hp
          show ¬ decide (p.depth = 0) = true
          simp only [decide_eq_true_eq]
          omega
        show ((t.rows.take p.insertion ++ _ ++ t.rows.drop p.insertion).filter _).map _ = _
        rw [List.filter_append, List.filter_append, hnew, List.append_nil, ← List.filter_append,
          List.take_append_drop]
        rfl
      · obtain ⟨p', hp', rfl⟩ := hplaced hq
        rw [depth_afterInsertion]
        exact hdeep id p' hp'
      · obtain ⟨p', hp', -⟩ := hplaced hq
        exact .inr ⟨p', hp'⟩

theorem below_finishChild {result : Except String Unit} (h : t.finishChild id result = some t') :
    Below t t' none := by
  rw [Tree.finishChild.eq_def] at h
  split at h
  · obtain rfl := Option.some.inj h
    exact .refl t
  · next p hp =>
    simp only [Option.bind_eq_bind, Option.bind_eq_some_iff] at h
    obtain ⟨parent, hparent, h⟩ := h
    obtain rfl := Option.some.inj h
    have herase {id' : RequestId} {q : Placement}
        (hq : (t.placements.erase id).lookup id' = some q) : t.placements.lookup id' = some q := by
      rw [Table.lookup_erase_if] at hq
      split at hq
      · simp at hq
      · exact hq
    exact ⟨topEntries_set hparent rfl, rfl, rfl, fun hd id' q hq => hd id' q (herase hq),
      fun id' q hq => .inr ⟨q, herase hq⟩⟩

theorem below_beginExpansion {path : PathString}
    (h : t.beginExpansion i id = some (t', path)) : Below t t' (some id) := by
  simp only [Tree.beginExpansion, Option.bind_eq_bind, Option.bind_eq_some_iff] at h
  obtain ⟨row, hrow, h⟩ := h
  obtain ⟨rfl, -⟩ := Prod.mk.inj (Option.some.inj h)
  refine ⟨topEntries_set hrow rfl, rfl, rfl, fun hd id' q hq => ?_, fun id' q hq => ?_⟩
  · simp only [Table.lookup_insert_if] at hq
    split at hq
    · obtain rfl := Option.some.inj hq
      show 0 < depthBelow row.depth
      rw [depthBelow, maxDepth]
      omega
    · exact hd id' q hq
  · simp only [Table.lookup_insert_if] at hq
    split at hq
    · next heq => exact .inl (congrArg some heq.symm)
    · exact .inr ⟨q, hq⟩

theorem below_collapse {ids : List RequestId} (h : t.collapse i = some (t', ids)) :
    Below t t' none := by
  simp only [Tree.collapse, Option.bind_eq_bind, Option.bind_eq_some_iff] at h
  obtain ⟨row, hrow, stop, hstop, h⟩ := h
  obtain ⟨rfl, -⟩ := Prod.mk.inj (Option.some.inj h)
  obtain ⟨stop', hstop', hend⟩ := Tree.subtreeEnd_spec hrow
  obtain rfl := Option.some.inj (hstop.symm.trans hstop')
  have hle := hend.le
  rw [Tree.length_depths] at hle
  have hlt := hend.lt
  -- What goes is deeper than a row.
  have hgone : ((t.rows.take stop).drop (i + 1)).filter (fun row => row.depth = 0) = [] := by
    rw [List.filter_eq_nil_iff]
    intro r hr
    obtain ⟨j, hj⟩ := List.mem_iff_getElem?.mp hr
    rw [List.getElem?_drop, List.getElem?_take] at hj
    split at hj
    · next hjs =>
      have hdeeper := hend.inside (i + 1 + j) row.depth r.depth (by omega) hjs
        (Tree.depths_of_row hrow) (Tree.depths_of_row hj)
      simp only [decide_eq_true_eq]
      omega
    · simp at hj
  have hkept : ((t.rows.take (i + 1) ++ t.rows.drop stop).filter fun row => row.depth = 0) =
      t.rows.filter fun row => row.depth = 0 := by
    have hsplit : t.rows = t.rows.take (i + 1) ++ (t.rows.take stop).drop (i + 1) ++
        t.rows.drop stop := by
      have htake := List.take_append_drop (i + 1) (t.rows.take stop)
      rw [List.take_take, Nat.min_eq_left (by omega)] at htake
      rw [htake, List.take_append_drop]
    conv => rhs; rw [hsplit]
    rw [List.filter_append, List.filter_append, List.filter_append, hgone, List.append_nil]
  have hrow' : (t.rows.take (i + 1) ++ t.rows.drop stop)[i]? = some row := by
    rw [List.getElem?_append_left (by rw [List.length_take]; omega), List.getElem?_take,
      if_pos (Nat.lt_succ_self i), hrow]
  have hplaced {id : RequestId} {q : Placement} (hq : ((dropPlacements t.placements
      (((t.rows.take stop).drop i).filterMap fun row => row.expansion.requestId)).1.map
        (Placement.afterRemoval (i + 1) stop)).lookup id = some q) :
      ∃ p, t.placements.lookup id = some p ∧ q.depth = p.depth := by
    rw [Table.lookup_map, Option.map_eq_some_iff] at hq
    obtain ⟨p, hp, rfl⟩ := hq
    rw [Tree.lookup_dropPlacements] at hp
    split at hp
    · simp at hp
    · exact ⟨p, hp, depth_afterRemoval _ _ p⟩
  refine ⟨?_, rfl, rfl, fun hd id q hq => ?_, fun id q hq => ?_⟩
  · rw [← show topEntries { t with rows := t.rows.take (i + 1) ++ t.rows.drop stop } = topEntries t
      from congrArg (List.map Row.entry) hkept]
    exact topEntries_set hrow' rfl
  · obtain ⟨p, hp, heq⟩ := hplaced hq
    rw [heq]
    exact hd id p hp
  · obtain ⟨p, hp, -⟩ := hplaced hq
    exact .inr ⟨p, hp⟩

theorem below_toggle {request : RequestId} {path : Option PathString}
    (h : toggle t i request = some (t', path)) : Below t t' (path.map fun _ => request) := by
  unfold toggle at h
  split at h
  · obtain ⟨rfl, rfl⟩ := Prod.mk.inj (Option.some.inj h)
    exact .refl t
  · split at h
    · split at h
      all_goals simp only [Option.bind_eq_bind, Option.bind_eq_some_iff] at h
      · obtain ⟨⟨t₁, p⟩, hbegin, h⟩ := h
        obtain ⟨rfl, rfl⟩ := Prod.mk.inj (Option.some.inj h)
        exact below_beginExpansion hbegin
      · obtain ⟨⟨t₁, ids⟩, hcollapse, ⟨t₂, p⟩, hbegin, h⟩ := h
        obtain ⟨rfl, rfl⟩ := Prod.mk.inj (Option.some.inj h)
        exact (below_collapse hcollapse).trans (below_beginExpansion hbegin)
      · obtain ⟨⟨t₁, ids⟩, hcollapse, h⟩ := h
        obtain ⟨rfl, rfl⟩ := Prod.mk.inj (Option.some.inj h)
        exact below_collapse hcollapse
      · obtain ⟨⟨t₁, ids⟩, hcollapse, h⟩ := h
        obtain ⟨rfl, rfl⟩ := Prod.mk.inj (Option.some.inj h)
        exact below_collapse hcollapse
    · obtain ⟨rfl, rfl⟩ := Prod.mk.inj (Option.some.inj h)
      exact .refl t

/-! ### The tabs of the dock -/

section Dock

variable {f : Browser.Tree μ → Option (Browser.Tree μ)} {b : BrowserId}
  {dock dock' : List (Browser μ)}
  {tab tab' : Browser μ}

theorem ids_changeTab : ∀ {dock dock' : List (Browser μ)}, App.changeTab f b dock = some dock' →
    dock'.map Browser.id = dock.map Browser.id := by
  intro dock
  induction dock with
  | nil =>
    intro dock' h
    obtain rfl := Option.some.inj h
    rfl
  | cons tab tabs ih =>
    intro dock' h
    rw [App.changeTab] at h
    split at h
    · obtain ⟨tree, -, rfl⟩ := Option.map_eq_some_iff.mp h
      rfl
    · obtain ⟨tabs', htabs, rfl⟩ := Option.map_eq_some_iff.mp h
      rw [List.map_cons, List.map_cons, ih htabs]

/-- A tab of the dock is as it was, or it is the one that was changed. -/
theorem mem_changeTab : ∀ {dock dock' : List (Browser μ)}, App.changeTab f b dock = some dock' →
    (dock.map Browser.id).Nodup → ∀ tab' ∈ dock', (tab' ∈ dock ∧ tab'.id ≠ b) ∨
      ∃ tab ∈ dock, tab.id = b ∧ tab'.id = b ∧ f tab.tree = some tab'.tree := by
  intro dock
  induction dock with
  | nil =>
    intro dock' h _ tab' htab'
    obtain rfl := Option.some.inj h
    exact absurd htab' List.not_mem_nil
  | cons tab tabs ih =>
    intro dock' h hids tab' htab'
    rw [List.map_cons, List.nodup_cons] at hids
    rw [App.changeTab] at h
    split at h
    · next hb =>
      obtain ⟨tree, htree, rfl⟩ := Option.map_eq_some_iff.mp h
      rcases List.mem_cons.mp htab' with rfl | htab'
      · exact .inr ⟨tab, by simp, hb, hb, htree⟩
      · refine .inl ⟨List.mem_cons_of_mem _ htab', fun heq => hids.1 ?_⟩
        rw [hb, ← heq]
        exact List.mem_map_of_mem htab'
    · next hb =>
      obtain ⟨tabs', htabs, rfl⟩ := Option.map_eq_some_iff.mp h
      rcases List.mem_cons.mp htab' with rfl | htab'
      · exact .inl ⟨by simp, hb⟩
      · rcases ih htabs hids.2 tab' htab' with ⟨hin, hne⟩ | ⟨old, hin, hold⟩
        · exact .inl ⟨List.mem_cons_of_mem _ hin, hne⟩
        · exact .inr ⟨old, List.mem_cons_of_mem _ hin, hold⟩

/-- What leaves the tree of its tab as it is leaves the dock as it is. -/
theorem changeTab_same : ∀ {dock : List (Browser μ)},
    (∀ tab ∈ dock, tab.id = b → f tab.tree = some tab.tree) →
      App.changeTab f b dock = some dock := by
  intro dock
  induction dock with
  | nil => intro _; rfl
  | cons tab tabs ih =>
    intro h
    rw [App.changeTab]
    split
    · next hb =>
      rw [h tab (by simp) hb]
      rfl
    · rw [ih fun tab htab => h tab (List.mem_cons_of_mem _ htab)]
      rfl

theorem browser_eq_some (app : App μ) (hids : (app.dock.map Browser.id).Nodup)
    (htab : tab ∈ app.dock) : app.browser tab.id = some tab := by
  obtain ⟨found, hfound⟩ : ∃ found, app.browser tab.id = some found := by
    rw [← Option.isSome_iff_exists, App.browser, List.find?_isSome]
    exact ⟨tab, htab, decide_eq_true rfl⟩
  rw [hfound]
  have hid : found.id = tab.id :=
    of_decide_eq_true (List.find?_some (p := fun t : Browser μ => decide (t.id = tab.id)) hfound)
  exact congrArg some (List.inj_on_of_nodup_map hids (List.mem_of_find?_eq_some hfound) htab hid)

end Dock

/-! ### What the listing of a root has delivered -/

/-- What listing `n` delivered. -/
def deliveredBy (ss : List (Sent μ)) (n : Nat) : List (DirectoryEntry μ) :=
  (ss.filter fun s => s.handle = n).flatMap fun s => s.report.group

def Report.status : Report μ → Option Status
  | .entries _ => none
  | .finished (.ok ()) => some .complete
  | .finished (.error error) => some (.failed error)

/-- How listing `n` is getting on. -/
def statusOf (ss : List (Sent μ)) (n : Nat) : Status :=
  ((ss.filter fun s => s.handle = n).findSome? fun s => s.report.status).getD .loading

variable {ss : List (Sent μ)} {s : Sent μ} {n : Nat}

theorem deliveredBy_other (h : s.handle ≠ n) : deliveredBy (ss ++ [s]) n = deliveredBy ss n := by
  simp [deliveredBy, h]

theorem deliveredBy_self :
    deliveredBy (ss ++ [s]) s.handle = deliveredBy ss s.handle ++ s.report.group := by
  simp [deliveredBy]

theorem statusOf_other (h : s.handle ≠ n) : statusOf (ss ++ [s]) n = statusOf ss n := by
  simp [statusOf, h]

theorem status_isSome (report : Report μ) : report.status.isSome = report.terminal := by
  cases report with
  | entries _ => rfl
  | finished result => cases result <;> rfl

theorem statusOf_of_open (h : ∀ s ∈ ss, s.handle = n → s.report.terminal = false) :
    statusOf ss n = .loading := by
  rw [statusOf, List.findSome?_eq_none_iff.mpr, Option.getD_none]
  intro s hs
  obtain ⟨hin, heq⟩ : s ∈ ss ∧ s.handle = n := by simpa using hs
  rw [← Option.not_isSome_iff_eq_none, status_isSome, h s hin heq]
  simp

theorem statusOf_self (h : ∀ s' ∈ ss, s'.handle = s.handle → s'.report.terminal = false) :
    statusOf (ss ++ [s]) s.handle = s.report.status.getD .loading := by
  have hnone : ((ss.filter fun s' => s'.handle = s.handle).findSome? fun s => s.report.status) =
      none := by
    rw [List.findSome?_eq_none_iff]
    intro s' hs'
    obtain ⟨hin, heq⟩ : s' ∈ ss ∧ s'.handle = s.handle := by simpa using hs'
    rw [← Option.not_isSome_iff_eq_none, status_isSome, h s' hin heq]
    simp
  simp [statusOf, List.filter_append, List.findSome?_append, hnone]

/-- A listing whose status is known has sent how it ended. -/
theorem ended_of_statusOf (h : statusOf ss n ≠ .loading) :
    ∃ s ∈ ss, s.handle = n ∧ s.report.terminal = true := by
  by_contra hnone
  refine h (statusOf_of_open fun s hs heq => ?_)
  by_contra hterminal
  exact hnone ⟨s, hs, heq, by simpa using hterminal⟩

/-! ### Every step -/

/-- A browser is given another root only once its own is listed; and ids do not
come round. -/
def Waits (w : World μ) : WorldAct μ → Prop
  | .action (.enter browser _) => ∀ tab ∈ w.app.dock, tab.id = browser → tab.tree.status ≠ .loading
  | .action (.toggle ..) => w.app.nextId + 1 < idLimit
  | _ => True

instance (w : World μ) : (a : WorldAct μ) → Decidable (Waits w a)
  | .action (.enter browser _) => inferInstanceAs
      (Decidable (∀ tab ∈ w.app.dock, tab.id = browser → tab.tree.status ≠ .loading))
  | .action (.toggle ..) => inferInstanceAs (Decidable (w.app.nextId + 1 < idLimit))
  | .select .. | .close _ | .send .. | .receive => .isTrue trivial

/-- Listing `n` is that of the tab's root, and the tab shows it. -/
structure Rooted (w : World μ) (tab : Browser μ) (n : Nat) : Prop where
  listing : w.app.listings[n]? =
    some { browser := tab.id, request := .root, path := tab.tree.rootPath }
  last : ∀ (m : Nat) (l : Listing), w.app.listings[m]? = some l → l.browser = tab.id →
    l.request = .root → m ≤ n
  tops : topEntries tab.tree = deliveredBy w.delivered n
  status : tab.tree.status = statusOf w.delivered n
  deep : Deep tab.tree
  placed : ∀ id p, tab.tree.placements.lookup id = some p → ∃ (m : Nat) (l : Listing),
    n < m ∧ w.app.listings[m]? = some l ∧ l.request = .child id
  /-- The listings of the roots before it have ended, and all they sent has been
  taken. -/
  past : ∀ (m : Nat) (l : Listing), m < n → w.app.listings[m]? = some l → l.browser = tab.id →
    l.request = .root → ∃ s ∈ w.delivered, s.handle = m ∧ s.report.terminal = true

/-- What holds of the application and its channel at all times. -/
structure Sound (w : World μ) : Prop where
  ids : (w.app.dock.map Browser.id).Nodup
  sent : ∀ s ∈ w.sent, w.app.listings[s.handle]? = some s.listing
  ordered : w.sent.Pairwise fun s s' => s.report.terminal = true → s'.handle ≠ s.handle
  requests : ∀ (m : Nat) (l : Listing) (id : Nat), w.app.listings[m]? = some l →
    l.request = .child id → id ≤ w.app.nextId
  once : ∀ (m m' : Nat) (l l' : Listing) id, w.app.listings[m]? = some l →
    w.app.listings[m']? = some l' → l.request = .child id → l'.request = .child id → m = m'
  rooted : ∀ tab ∈ w.app.dock, ∃ n, Rooted w tab n

variable {w w' : World μ} {tab : Browser μ}

theorem Sound.handle_lt (h : Sound w) (hs : s ∈ w.sent) : s.handle < w.app.listings.length :=
  (List.getElem?_eq_some_iff.mp (h.sent s hs)).1

theorem listings_cases {ls : List Listing} {l l' : Listing} {m : Nat}
    (h : (ls ++ [l])[m]? = some l') : ls[m]? = some l' ∨ m = ls.length ∧ l' = l := by
  rw [List.getElem?_append] at h
  split at h
  · exact .inl h
  · next hge =>
    obtain ⟨hlt, hget⟩ := List.getElem?_eq_some_iff.mp h
    rw [List.length_singleton] at hlt
    rw [List.getElem_singleton] at hget
    exact .inr ⟨by omega, hget.symm⟩

/-- Below the top of a tab, anything may change. -/
theorem Rooted.below (h : Rooted w tab n) {tree : Browser.Tree μ} {new : Option RequestId}
    (hb : Below tab.tree tree new) {tab' : Browser μ} (hid : tab'.id = tab.id)
    (htree : tab'.tree = tree) (hlistings : ∀ (m : Nat) (l : Listing),
      w.app.listings[m]? = some l → w'.app.listings[m]? = some l)
    (hback : ∀ (m : Nat) (l : Listing), w'.app.listings[m]? = some l →
      w.app.listings[m]? = some l ∨ ¬ (l.browser = tab.id ∧ l.request = .root))
    (hnew : ∀ id, new = some id → ∃ (m : Nat) (l : Listing), n < m ∧
      w'.app.listings[m]? = some l ∧ l.request = .child id)
    (hdelivered : deliveredBy w'.delivered n = deliveredBy w.delivered n ∧
      statusOf w'.delivered n = statusOf w.delivered n)
    (hmore : ∀ s ∈ w.delivered, s ∈ w'.delivered) : Rooted w' tab' n := by
  subst htree
  refine ⟨?_, ?_, ?_, ?_, hb.deep h.deep, ?_, ?_⟩
  · rw [hlistings n _ h.listing, hid, hb.rootPath]
  · intro m l hl hbrowser hroot
    rcases hback m l hl with hl | hchild
    · exact h.last m l hl (hbrowser.trans hid) hroot
    · exact absurd ⟨hbrowser.trans hid, hroot⟩ hchild
  · rw [hb.tops, h.tops, hdelivered.1]
  · rw [hb.status, h.status, hdelivered.2]
  · intro id p hp
    rcases hb.placed id p hp with hnew' | ⟨q, hq⟩
    · exact hnew id hnew'
    · obtain ⟨m, l, hlt, hl, hchild⟩ := h.placed id q hq
      exact ⟨m, l, hlt, hlistings m l hl, hchild⟩
  · intro m l hlt hl hbrowser hroot
    rcases hback m l hl with hl | hnot
    · obtain ⟨s, hs, hboth⟩ := h.past m l hlt hl (hbrowser.trans hid) hroot
      exact ⟨s, hmore s hs, hboth⟩
    · exact absurd ⟨hbrowser.trans hid, hroot⟩ hnot

/-- Nothing is on its way from the listings of earlier roots. -/
theorem Sound.not_earlier (h : Sound w) (hr : Rooted w tab n) (hs : s ∈ w.incoming)
    (hlt : s.handle < n) (hbrowser : s.listing.browser = tab.id) : s.listing.request ≠ .root := by
  intro hroot
  obtain ⟨s₀, hs₀, heq, hterminal⟩ := hr.past s.handle s.listing hlt
    (h.sent s (List.mem_append_right _ hs)) hbrowser hroot
  have hordered := h.ordered
  rw [World.sent, List.pairwise_append] at hordered
  exact hordered.2.2 s₀ hs₀ s hs hterminal heq.symm

/-- A toggled row. -/
theorem Sound.toggle (h : Sound w) {b : BrowserId} {i : Nat} (hlimit : w.app.nextId + 1 < idLimit)
    {app : App μ} (heq : w.app.apply (.toggle b i) = some app) : Sound { w with app } := by
  have hnext : w.app.newId.nextId = w.app.nextId + 1 := Nat.mod_eq_of_lt hlimit
  rw [App.apply] at heq
  split at heq
  · obtain rfl := Option.some.inj heq
    refine ⟨h.ids, h.sent, h.ordered, fun m l id hl hid => ?_, h.once, fun tab htab => ?_⟩
    · have := h.requests m l id hl hid
      show id ≤ w.app.newId.nextId
      omega
    · obtain ⟨n, hn⟩ := h.rooted tab htab
      exact ⟨n, hn.below (.refl _) rfl rfl (fun _ _ hl => hl) (fun _ _ hl => .inl hl) (by simp)
        ⟨rfl, rfl⟩ fun _ hs => hs⟩
  · next tab hfound =>
    simp only [Option.bind_eq_bind, Option.bind_eq_some_iff] at heq
    obtain ⟨⟨tree, path⟩, htoggle, app₁, hchange, heq⟩ := heq
    obtain ⟨dock, hdock, rfl⟩ := Option.map_eq_some_iff.mp hchange
    have hbelow := below_toggle htoggle
    have hids := ids_changeTab hdock
    have hnext' : app.nextId = w.app.nextId + 1 := by
      obtain rfl := Option.some.inj heq
      cases path <;> exact hnext
    have hdock' : app.dock = dock := by
      obtain rfl := Option.some.inj heq
      cases path <;> rfl
    have hlistings : path = none ∧ app.listings = w.app.listings ∨ ∃ p, path = some p ∧
        app.listings = w.app.listings ++
          [{ browser := b, request := .child (w.app.nextId + 1), path := p }] := by
      obtain rfl := Option.some.inj heq
      cases path with
      | none => exact .inl ⟨rfl, rfl⟩
      | some p => exact .inr ⟨p, rfl, by rw [← hnext]; rfl⟩
    have hmono (m : Nat) (l : Listing) (hl : w.app.listings[m]? = some l) :
        app.listings[m]? = some l := by
      rcases hlistings with ⟨-, heq⟩ | ⟨p, -, heq⟩
      · rwa [heq]
      · rw [heq, List.getElem?_append_left (List.getElem?_eq_some_iff.mp hl).1, hl]
    have hback (m : Nat) (l : Listing) (hl : app.listings[m]? = some l) :
        w.app.listings[m]? = some l ∨
          m = w.app.listings.length ∧ l.request = .child (w.app.nextId + 1) := by
      rcases hlistings with ⟨-, heq⟩ | ⟨p, -, heq⟩
      · exact .inl (by rwa [heq] at hl)
      · rw [heq] at hl
        rcases listings_cases hl with hl | ⟨hm, rfl⟩
        · exact .inl hl
        · exact .inr ⟨hm, rfl⟩
    refine ⟨?_, fun s hs => hmono _ _ (h.sent s hs), h.ordered, ?_, ?_, ?_⟩
    · show (app.dock.map Browser.id).Nodup
      rw [hdock', hids]
      exact h.ids
    · intro m l id hl hid
      show id ≤ app.nextId
      rw [hnext']
      rcases hback m l hl with hl | ⟨-, hl⟩
      · have := h.requests m l id hl hid
        omega
      · obtain rfl := Request.child.inj (hid.symm.trans hl)
        omega
    · intro m m' l l' id hl hl' hid hid'
      rcases hback m l hl with hold | ⟨hm, hnew⟩
      · rcases hback m' l' hl' with hold' | ⟨-, hnew'⟩
        · exact h.once m m' l l' id hold hold' hid hid'
        · have := h.requests m l id hold hid
          obtain rfl := Request.child.inj (hid'.symm.trans hnew')
          omega
      · rcases hback m' l' hl' with hold' | ⟨hm', -⟩
        · have := h.requests m' l' id hold' hid'
          obtain rfl := Request.child.inj (hid.symm.trans hnew)
          omega
        · exact hm.trans hm'.symm
    · intro tab' htab'
      have htab' : tab' ∈ dock := hdock' ▸ htab'
      have hnotRoot (tab : Browser μ) (m : Nat) (l : Listing) (hl : app.listings[m]? = some l) :
          w.app.listings[m]? = some l ∨ ¬ (l.browser = tab.id ∧ l.request = .root) := by
        rcases hback m l hl with hl | ⟨-, hl⟩
        · exact .inl hl
        · exact .inr fun hroot => by simp [hl] at hroot
      rcases mem_changeTab hdock h.ids tab' htab' with ⟨hold, -⟩ | ⟨old, hold, hb, hb', htree⟩
      · obtain ⟨n, hn⟩ := h.rooted tab' hold
        exact ⟨n, hn.below (.refl _) rfl rfl hmono (hnotRoot _) (by simp) ⟨rfl, rfl⟩
          fun _ hs => hs⟩
      · obtain rfl : old = tab := by
          have := browser_eq_some _ h.ids hold
          rw [hb] at this
          exact Option.some.inj (this.symm.trans hfound)
        obtain ⟨n, hn⟩ := h.rooted old hold
        refine ⟨n, hn.below hbelow (hb'.trans hb.symm) (Option.some.inj htree).symm hmono
          (hnotRoot _) ?_ ⟨rfl, rfl⟩ fun _ hs => hs⟩
        intro id hid
        have hlt := (List.getElem?_eq_some_iff.mp hn.listing).1
        rcases hlistings with ⟨rfl, -⟩ | ⟨p, rfl, hls⟩
        · simp at hid
        · refine ⟨w.app.listings.length,
            { browser := b, request := .child (w.app.nextId + 1), path := p }, hlt, ?_, ?_⟩
          · show app.listings[_]? = _
            rw [hls]
            exact List.getElem?_concat_length
          · rw [← hnext, ← Option.some.inj hid]

/-- Another root. -/
theorem Sound.enter (h : Sound w) {b : BrowserId} {path : PathString}
    (hwaits : ∀ tab ∈ w.app.dock, tab.id = b → tab.tree.status ≠ .loading)
    {app : App μ} (heq : w.app.apply (.enter b path) = some app) : Sound { w with app } := by
  simp only [App.apply, Option.bind_eq_bind, Option.bind_eq_some_iff] at heq
  obtain ⟨app₁, hchange, heq⟩ := heq
  obtain ⟨dock, hdock, rfl⟩ := Option.map_eq_some_iff.mp hchange
  obtain rfl := Option.some.inj heq
  have hids := ids_changeTab hdock
  have hnodup : (dock.map Browser.id).Nodup := hids ▸ h.ids
  have hsame := mem_changeTab hdock h.ids
  unfold App.startRoot
  split
  · next hnone =>
    -- There is no such tab.
    have hnot (tab : Browser μ) (htab : tab ∈ dock) : tab.id ≠ b := by
      intro heq
      have := browser_eq_some { w.app with dock } hnodup htab
      rw [heq, hnone] at this
      simp at this
    refine ⟨hnodup, h.sent, h.ordered, h.requests, h.once, fun tab htab => ?_⟩
    rcases hsame tab htab with ⟨hold, -⟩ | ⟨-, -, -, hb, -⟩
    · obtain ⟨n, hn⟩ := h.rooted tab hold
      exact ⟨n, hn.below (.refl _) rfl rfl (fun _ _ hl => hl) (fun _ _ hl => .inl hl) (by simp)
        ⟨rfl, rfl⟩ fun _ hs => hs⟩
    · exact absurd hb (hnot tab htab)
  · next tab hfound =>
    have hmono (m : Nat) (l l' : Listing) (hl : w.app.listings[m]? = some l) :
        (w.app.listings ++ [l'])[m]? = some l := by
      rw [List.getElem?_append_left (List.getElem?_eq_some_iff.mp hl).1, hl]
    refine ⟨hnodup, fun s hs => hmono _ _ _ (h.sent s hs), h.ordered, ?_, ?_, ?_⟩
    · intro m l id hl hid
      rcases listings_cases hl with hl | ⟨-, rfl⟩
      · exact h.requests m l id hl hid
      · simp at hid
    · intro m m' l l' id hl hl' hid hid'
      rcases listings_cases hl with hl | ⟨-, rfl⟩
      · rcases listings_cases hl' with hl' | ⟨-, rfl⟩
        · exact h.once m m' l l' id hl hl' hid hid'
        · simp at hid'
      · simp at hid
    · intro tab' htab'
      have htab' : tab' ∈ dock := htab'
      rcases hsame tab' htab' with ⟨hold, hne⟩ | ⟨old, hold, hb, hb', htree⟩
      · obtain ⟨n, hn⟩ := h.rooted tab' hold
        refine ⟨n, hn.below (.refl _) rfl rfl (fun m l hl => hmono m l _ hl) (fun m l hl => ?_)
          (by simp) ⟨rfl, rfl⟩ fun _ hs => hs⟩
        rcases listings_cases hl with hl | ⟨-, rfl⟩
        · exact .inl hl
        · exact .inr fun hroot => hne hroot.1.symm
      · obtain rfl : tab' = tab := by
          have := browser_eq_some { w.app with dock } hnodup htab'
          rw [hb'] at this
          exact Option.some.inj (this.symm.trans hfound)
        obtain ⟨n, hn⟩ := h.rooted old hold
        have htree : old.tree.reroot path = tab'.tree := Option.some.inj htree
        have hunheard (s : Sent μ) (hs : s ∈ w.sent) : s.handle ≠ w.app.listings.length := by
          have := h.handle_lt hs
          omega
        refine ⟨w.app.listings.length, ?_, fun m l hl _ _ => ?_, ?_, ?_, ?_, ?_, ?_⟩
        · rw [hb']
          exact List.getElem?_concat_length
        · have hlt : m < (w.app.listings ++ [({
              browser := b
              request := .root
              path := tab'.tree.rootPath } : Listing)]).length := (List.getElem?_eq_some_iff.mp hl).1
          rw [List.length_append, List.length_singleton] at hlt
          omega
        · rw [← htree]
          refine Eq.symm (List.flatMap_eq_nil_iff.mpr fun s hs => ?_)
          obtain ⟨hin, heq⟩ : s ∈ w.delivered ∧ s.handle = w.app.listings.length := by
            simpa using hs
          exact absurd heq (hunheard s (List.mem_append_left _ hin))
        · rw [← htree]
          exact (statusOf_of_open fun s hs heq =>
            absurd heq (hunheard s (List.mem_append_left _ hs))).symm
        · rw [← htree]
          intro id p hp
          simp [Tree.reroot, Tree.restart] at hp
        · rw [← htree]
          intro id p hp
          simp [Tree.reroot, Tree.restart] at hp
        · -- The listing of the old root has ended, and so had those before it.
          intro m l hlt hl hbrowser hroot
          have hold' : w.app.listings[m]? = some l := by
            rcases listings_cases hl with hl | ⟨hm, -⟩
            · exact hl
            · exact absurd (hm ▸ hlt) (Nat.lt_irrefl _)
          have hlb : l.browser = old.id := hbrowser.trans (hb'.trans hb.symm)
          rcases Nat.lt_or_eq_of_le (hn.last m l hold' hlb hroot) with hlt | rfl
          · exact hn.past m l hlt hold' hlb hroot
          · have hstatus := hwaits old hold hb
            rw [hn.status] at hstatus
            exact ended_of_statusOf hstatus

/-- Only what is in the dock changes. -/
theorem Sound.dock (h : Sound w) {dock : List (Browser μ)} (hids : (dock.map Browser.id).Nodup)
    (hrooted : ∀ tab ∈ dock, ∃ n, Rooted { w with app := { w.app with dock } } tab n) :
    Sound { w with app := { w.app with dock } } :=
  ⟨hids, h.sent, h.ordered, h.requests, h.once, hrooted⟩

/-- A task sends what it has. -/
theorem Sound.send (h : Sound w) {report : Report μ} {l : Listing}
    (hl : w.app.listings[n]? = some l) (hopen : w.hasEnded n = false) :
    Sound { w with incoming := w.incoming ++ [{ handle := n, listing := l, report }] } := by
  refine ⟨h.ids, fun s hs => ?_, ?_, h.requests, h.once, fun tab htab => ?_⟩
  · rw [World.sent, ← List.append_assoc, List.mem_append, List.mem_singleton] at hs
    rcases hs with hs | rfl
    · exact h.sent s hs
    · exact hl
  · rw [World.sent, ← List.append_assoc, List.pairwise_append]
    refine ⟨h.ordered, List.pairwise_singleton _ _, fun s hs s' hs' hterminal heq => ?_⟩
    obtain rfl := List.mem_singleton.mp hs'
    have hended : w.hasEnded n = true :=
      List.any_eq_true.mpr ⟨s, hs, by simp [← heq, hterminal]⟩
    rw [hopen] at hended
    simp at hended
  · obtain ⟨k, hk⟩ := h.rooted tab htab
    exact ⟨k, hk.listing, hk.last, hk.tops, hk.status, hk.deep, hk.placed, hk.past⟩

/-- What an event does to the tree of its tab. -/
theorem Sound.receive (h : Sound w) {incoming : List (Sent μ)}
    (hincoming : w.incoming = s :: incoming)
    {app : App μ} (heq : w.app.receive (s.listing.event s.report) = some app) :
    Sound { app, incoming, delivered := w.delivered ++ [s] } := by
  have hs : s ∈ w.sent := by simp [World.sent, hincoming]
  have hl := h.sent s hs
  obtain ⟨dock, hdock, rfl⟩ := Option.map_eq_some_iff.mp heq
  have hbrowser : (s.listing.event s.report).browser = s.listing.browser := by
    cases s.report <;> rfl
  rw [hbrowser] at hdock
  have hsame : w.delivered ++ [s] ++ incoming = w.sent := by
    rw [World.sent, hincoming, List.append_assoc, List.singleton_append]
  -- The event of a tab's root is the one that its listing has not ended before.
  have hopen : ∀ s' ∈ w.delivered, s'.handle = s.handle → s'.report.terminal = false := by
    intro s' hs' heq
    have hordered := h.ordered
    rw [World.sent, hincoming, List.pairwise_append] at hordered
    by_contra hterminal
    exact hordered.2.2 s' hs' s (by simp) (by simpa using hterminal) heq.symm
  refine ⟨?_, fun s' hs' => ?_, ?_, h.requests, h.once, fun tab' htab' => ?_⟩
  · show (dock.map Browser.id).Nodup
    rw [ids_changeTab hdock]
    exact h.ids
  · rw [World.sent, hsame] at hs'
    exact h.sent s' hs'
  · rw [World.sent, hsame]
    exact h.ordered
  · have hmore (s' : Sent μ) (hs' : s' ∈ w.delivered) : s' ∈ w.delivered ++ [s] :=
      List.mem_append_left _ hs'
    rcases mem_changeTab hdock h.ids tab' htab' with ⟨hold, hne⟩ | ⟨old, hold, hb, hb', htree⟩
    · obtain ⟨n, hn⟩ := h.rooted tab' hold
      have hother : s.handle ≠ n := by
        rintro rfl
        rw [hn.listing, Option.some.injEq] at hl
        exact hne (congrArg Listing.browser hl)
      exact ⟨n, hn.below (.refl _) rfl rfl (fun _ _ hl => hl) (fun _ _ hl => .inl hl) (by simp)
        ⟨deliveredBy_other hother, statusOf_other hother⟩ hmore⟩
    · obtain ⟨n, hn⟩ := h.rooted old hold
      have hid : tab'.id = old.id := hb'.trans hb.symm
      cases hrequest : s.listing.request with
      | child id =>
        have hother : s.handle ≠ n := by
          rintro rfl
          rw [hn.listing, Option.some.injEq] at hl
          rw [← hl] at hrequest
          simp at hrequest
        have hbelow : Below old.tree tab'.tree none := by
          cases hreport : s.report with
          | entries group =>
            rw [hreport, Listing.event, hrequest] at htree
            exact below_extendChild hn.deep htree
          | finished result =>
            rw [hreport, Listing.event, hrequest] at htree
            exact below_finishChild htree
        exact ⟨n, hn.below hbelow hid rfl (fun _ _ hl => hl) (fun _ _ hl => .inl hl) (by simp)
          ⟨deliveredBy_other hother, statusOf_other hother⟩ hmore⟩
      | root =>
        obtain rfl : s.handle = n := by
          have hle := hn.last s.handle s.listing hl hb.symm hrequest
          by_contra hne
          exact h.not_earlier hn (by simp [hincoming]) (by omega) hb.symm hrequest
        refine ⟨s.handle, ?_⟩
        cases hreport : s.report with
        | entries group =>
          rw [hreport, Listing.event, hrequest] at htree
          have htree : old.tree.extendRoot group = tab'.tree := Option.some.inj htree
          obtain ⟨-, hroot, hstatus⟩ := Tree.extendRoot_spec old.tree group
          rw [htree] at hroot hstatus
          refine ⟨?_, fun m l hl hb => hn.last m l hl (hb.trans hid), ?_, ?_, ?_, ?_, ?_⟩
          · rw [hid, hroot]
            exact hn.listing
          · rw [deliveredBy_self, ← htree, topEntries_extendRoot, hn.tops, hreport]
            rfl
          · rw [hstatus, hn.status, statusOf_of_open hopen, statusOf_self hopen, hreport]
            rfl
          · rw [← htree]
            exact deep_extendRoot group hn.deep
          · intro id p hp
            rw [← htree] at hp
            obtain ⟨q, hq⟩ := placed_extendRoot hp
            exact hn.placed id q hq
          · intro m l hlt hl hb hroot
            obtain ⟨s', hs', hboth⟩ := hn.past m l hlt hl (hb.trans hid) hroot
            exact ⟨s', hmore s' hs', hboth⟩
        | finished result =>
          rw [hreport, Listing.event, hrequest] at htree
          have htree : old.tree.finishRoot result = tab'.tree := Option.some.inj htree
          refine ⟨?_, fun m l hl hb => hn.last m l hl (hb.trans hid), ?_, ?_, ?_, ?_, ?_⟩
          · rw [hid, ← htree]
            exact hn.listing
          · rw [deliveredBy_self, ← htree, hreport]
            exact hn.tops.trans (List.append_nil _).symm
          · rw [statusOf_self hopen, hreport, ← htree]
            cases result <;> rfl
          · rw [← htree]
            exact hn.deep
          · rw [← htree]
            exact hn.placed
          · intro m l hlt hl hb hroot
            obtain ⟨s', hs', hboth⟩ := hn.past m l hlt hl (hb.trans hid) hroot
            exact ⟨s', hmore s' hs', hboth⟩

theorem Sound.step {a : WorldAct μ} (h : Sound w) (hok : Waits w a) (heq : w.step a = some w') :
    Sound w' := by
  cases a with
  | action action =>
    obtain ⟨app, happly, rfl⟩ := Option.map_eq_some_iff.mp heq
    cases action with
    | toggle b i => exact h.toggle hok happly
    | enter b path => exact h.enter hok happly
  | select b index =>
    obtain ⟨app, hchange, rfl⟩ := Option.map_eq_some_iff.mp heq
    obtain ⟨dock, hdock, rfl⟩ := Option.map_eq_some_iff.mp hchange
    refine h.dock ((ids_changeTab hdock).symm ▸ h.ids) fun tab htab => ?_
    rcases mem_changeTab hdock h.ids tab htab with ⟨hold, -⟩ | ⟨old, hold, hb, hb', htree⟩
    · obtain ⟨n, hn⟩ := h.rooted tab hold
      exact ⟨n, hn.listing, hn.last, hn.tops, hn.status, hn.deep, hn.placed, hn.past⟩
    · obtain ⟨n, hn⟩ := h.rooted old hold
      have hbelow : Below old.tree tab.tree none := by
        rw [← Option.some.inj htree]
        exact ⟨rfl, rfl, rfl, fun h => h, fun _ p h => .inr ⟨p, h⟩⟩
      exact ⟨n, hn.below hbelow (hb'.trans hb.symm) rfl (fun _ _ hl => hl) (fun _ _ hl => .inl hl)
        (by simp) ⟨rfl, rfl⟩ fun _ hs => hs⟩
  | close b =>
    obtain rfl := Option.some.inj heq
    refine h.dock (h.ids.sublist (List.filter_sublist.map _)) fun tab htab => ?_
    obtain ⟨n, hn⟩ := h.rooted tab (List.mem_of_mem_filter htab)
    exact ⟨n, hn.listing, hn.last, hn.tops, hn.status, hn.deep, hn.placed, hn.past⟩
  | send handle report =>
    rw [World.step] at heq
    split at heq
    · simp at heq
    · next l hl =>
      split at heq
      · next hopen =>
        obtain rfl := Option.some.inj heq
        exact h.send hl hopen.1
      · simp at heq
  | receive =>
    rw [World.step] at heq
    split at heq
    · simp at heq
    · next s incoming hincoming =>
      obtain ⟨app, happly, rfl⟩ := Option.map_eq_some_iff.mp heq
      exact h.receive hincoming happly

theorem sound_run {root : PathString} {w : World μ}
    (h : Steps World.step Waits (World.new root) w) : Sound w := by
  refine h.invariant (fun w a w' hw hok heq => hw.step hok heq) ?_
  have hlisting {m : Nat} {l : Listing}
      (hl : (World.new root : World μ).app.listings[m]? = some l) :
      m = 0 ∧ l = { browser := 1, request := .root, path := root } := by
    have hl :
        ([] ++ [{ browser := 1, request := .root, path := root }] : List Listing)[m]? = some l :=
      hl
    rcases listings_cases hl with hl | hl
    · simp at hl
    · exact hl
  refine ⟨List.nodup_singleton _, fun s hs => absurd hs List.not_mem_nil, .nil, ?_, ?_, ?_⟩
  · intro m l id hl hid
    obtain ⟨-, rfl⟩ := hlisting hl
    simp at hid
  · intro m m' l l' id hl hl' _ _
    rw [(hlisting hl).1, (hlisting hl').1]
  · intro tab htab
    obtain rfl := List.mem_singleton.mp htab
    refine ⟨0, rfl, fun m l hl _ _ => ?_, rfl, rfl, ?_, ?_, fun m l hlt => absurd hlt (by omega)⟩
    · rw [(hlisting hl).1]
    · intro id p hp
      simp [Tree.new] at hp
    · intro id p hp
      simp [Tree.new] at hp

/-- **The rows are those of the current root**, in every run in which a browser
gets another root only once its own is listed.  The top rows of a browser are
what the last listing started for its root delivered, which is a listing of its
root path; the status is that listing's; and nothing that an earlier listing for
this browser still sends changes anything. -/
theorem rows_of_current_root {root : PathString} {w : World μ}
    (h : Steps World.step Waits (World.new root) w) :
    ∀ tab ∈ w.app.dock, ∃ n,
      w.app.listings[n]? = some { browser := tab.id, request := .root, path := tab.tree.rootPath } ∧
      (∀ (m : Nat) (l : Listing), w.app.listings[m]? = some l → l.browser = tab.id →
        l.request = .root → m ≤ n) ∧
      topEntries tab.tree = deliveredBy w.delivered n ∧
      tab.tree.status = statusOf w.delivered n ∧
      ∀ s ∈ w.incoming, s.listing.browser = tab.id → s.handle < n →
        w.app.receive (s.listing.event s.report) = some w.app := by
  intro tab htab
  have hw := sound_run h
  obtain ⟨n, hn⟩ := hw.rooted tab htab
  refine ⟨n, hn.listing, hn.last, hn.tops, hn.status, fun s hs hbrowser hlt => ?_⟩
  have hbrowser' : (s.listing.event s.report).browser = tab.id := by
    rw [← hbrowser]
    cases s.report <;> rfl
  have hsame : ((s.listing.event s.report).applyTo tab.tree) = some tab.tree := by
    cases hrequest : s.listing.request with
    | root => exact absurd hrequest (hw.not_earlier hn hs hlt hbrowser)
    | child id =>
      -- Its request is not placed: what is placed was asked for under this root.
      have hnone : tab.tree.placements.lookup id = none := by
        by_contra hsome
        obtain ⟨p, hp⟩ := Option.ne_none_iff_exists'.mp hsome
        obtain ⟨m, l, hm, hl, hid⟩ := hn.placed id p hp
        have := hw.once m s.handle l s.listing id hl
          (hw.sent s (List.mem_append_right _ hs)) hid hrequest
        omega
      cases s.report with
      | entries group =>
        rw [Listing.event, hrequest]
        exact Tree.extendChild_none hnone group
      | finished result =>
        rw [Listing.event, hrequest]
        exact Tree.finishChild_none hnone result
  rw [App.receive, App.change, hbrowser']
  rw [changeTab_same fun tab' htab' hid => ?_]
  · rfl
  · obtain rfl := List.inj_on_of_nodup_map hw.ids htab' htab hid
    exact hsame

/-! ### Another root while the old one is listed -/

def fileNamed (letter : PathString) : DirectoryEntry Unit :=
  { name := letter, kind := .file, navigable := false, metadata := (), defect := none }

/-- The root `r` is listed to its end; then the root is `s`. -/
def listedThenEntered : World Unit :=
  runs World.step Waits (.new (letters [0x72]))
    [.send 0 (.entries [fileNamed (letters [0x61])]), .receive, .send 0 (.finished (.ok ())),
      .receive, .action (.enter 1 (letters [0x73])),
      .send 1 (.entries [fileNamed (letters [0x62])]), .receive]

theorem reaches_listedThenEntered :
    Steps World.step Waits (.new (letters [0x72])) listedThenEntered := steps_runs _ _

theorem listedThenEntered_rows :
    (∀ tab ∈ listedThenEntered.app.dock, ∃ n, topEntries tab.tree =
      deliveredBy listedThenEntered.delivered n) ∧
    listedThenEntered.app.dock.map (fun tab => (tab.tree.rootPath, topEntries tab.tree)) =
      [(letters [0x73], [fileNamed (letters [0x62])])] := by
  refine ⟨fun tab htab => ?_, by decide +kernel⟩
  obtain ⟨n, -, -, htops, -⟩ := rows_of_current_root reaches_listedThenEntered tab htab
  exact ⟨n, htops⟩

/-- The root is `s` while `r` is being listed. -/
def enteredWhileListed : World Unit :=
  runs World.step (fun _ _ => True) (.new (letters [0x72]))
    [.action (.enter 1 (letters [0x73])), .send 0 (.entries [fileNamed (letters [0x61])]),
      .send 0 (.finished (.ok ())), .receive, .receive]

/-- What the listing of `r` delivers is shown as rows of `s`, whose listing has
delivered nothing yet, and `s` counts as listed. -/
theorem old_root_fills_new_root :
    Steps World.step (fun _ _ => True) (World.new (letters [0x72])) enteredWhileListed ∧
    enteredWhileListed.app.listings = [
      { browser := 1, request := .root, path := letters [0x72] },
      { browser := 1, request := .root, path := letters [0x73] }] ∧
    enteredWhileListed.app.dock.map (fun tab =>
      (tab.tree.rootPath, topEntries tab.tree, tab.tree.status)) =
        [(letters [0x73], [fileNamed (letters [0x61])], .complete)] ∧
    deliveredBy enteredWhileListed.delivered 1 = [] ∧
    statusOf enteredWhileListed.delivered 1 = .loading :=
  ⟨steps_runs _ _, by decide +kernel, by decide +kernel, by decide +kernel, by decide +kernel⟩

end FilePeeker.Gui
