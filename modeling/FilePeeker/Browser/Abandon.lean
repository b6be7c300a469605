import FilePeeker.Browser.OldRows
import FilePeeker.Browser.Prompt
import FilePeeker.Browser.Sound

/-!
# Abandoning the filter prompt

`Opened` is what the directories are that a prompt has opened since it was begun: the
browser without them is the one that had the same events and no prompt.  Opening a
collapsed directory keeps it, and so does closing it, and what the listings send; so
when all are closed again the browser is that other one (`abandon_restores`).

A directory whose listing had failed is opened by a `/` as well, and closed it is
collapsed, with its rows gone.
-/

namespace FilePeeker.Browser

open PreOrder BrowserContext

variable {μ : Type} {c c' plain : BrowserContext μ} {n k first : Nat} {paths : List PathString}
  {sent : List (Sent μ)} {path : PathString} {row : Row μ} {i stop : Nat} {t t' : Tree μ}

/-- The paths of the directories that were opened. -/
def pathsOf (descents : List Descent) : List PathString :=
  (descents.filter Descent.opened).map Descent.path

/-- The listing was aborted, or has sent how it ended. -/
def Stopped (c : BrowserContext μ) (sent : List (Sent μ)) (handle : Nat) : Prop :=
  .aborted handle ∈ c.history ∨ ∃ s ∈ sent, s.handle = handle ∧ s.event.result.terminal

/-- At most one directory has the path. -/
def Tree.Sole (t : Tree μ) (path : PathString) : Prop :=
  ∀ (i j : Nat) (row row' : Row μ), t.rows[i]? = some row → t.rows[j]? = some row' →
    row.path = path → row'.path = path → row.entry.navigable → row'.entry.navigable → i = j

theorem Tree.sole_iff {t : Tree μ} {path : PathString} : t.Sole path ↔
    ∀ (i j : Fin t.rows.length), t.rows[i].path = path → t.rows[j].path = path →
      t.rows[i].entry.navigable → t.rows[j].entry.navigable → i = j := by
  constructor
  · intro h i j hi hj hnav hnav'
    exact Fin.ext (h i j _ _ (List.getElem?_eq_getElem i.isLt) (List.getElem?_eq_getElem j.isLt)
      hi hj hnav hnav')
  · intro h i j row row' hrow hrow' hi hj hnav hnav'
    obtain ⟨hlt, rfl⟩ := List.getElem?_eq_some_iff.mp hrow
    obtain ⟨hlt', rfl⟩ := List.getElem?_eq_some_iff.mp hrow'
    exact congrArg Fin.val (h ⟨i, hlt⟩ ⟨j, hlt'⟩ hi hj hnav hnav')

instance (t : Tree μ) (path : PathString) : Decidable (t.Sole path) :=
  decidable_of_iff _ Tree.sole_iff.symm

/-- What was opened after request `n`, with the listings from `first` on. -/
structure Opened (n first : Nat) (paths : List PathString) (sent : List (Sent μ))
    (c plain : BrowserContext μ) : Prop where
  sound : Sound c
  plainWf : plain.tree.Wf 1
  without : Tree.Without n c.tree plain.tree
  next : n ≤ c.nextRequestId
  id : plain.id = c.id
  generation : plain.generation = c.generation
  later : ∀ row ∈ c.tree.rows, row.isLater n → row.entry.navigable ∧ row.path ∈ paths
  closes : ∀ row ∈ c.tree.rows, row.path ∈ paths → row.entry.navigable →
    row.isLater n ∨ row.expansion = .collapsed
  listings : ∀ (k : Nat) (l : Listing), first ≤ k → c.listings[k]? = some l →
    ∃ (path : PathString) (id : Nat), l.target = .directory path id ∧ n < id ∧
      (Stopped c sent k ∨ c.listingTasks.lookup id = some k ∧
        ∃ p, c.tree.placements.lookup id = some p)

theorem Stopped.append (h : Stopped c sent k) {more : List (Happened μ)}
    (hmore : c'.history = c.history ++ more) : Stopped c' sent k := by
  rcases h with haborted | hended
  · exact .inl (hmore ▸ List.mem_append_left _ haborted)
  · exact .inr hended

/-- Another selection, prompt or viewport. -/
theorem Opened.looks (h : Opened n first paths sent c plain) (hlooks : Looks c c') :
    Opened n first paths sent c' plain := by
  obtain ⟨selected, filter, offset, height, rfl⟩ := hlooks
  exact ⟨h.sound.move (m := .look selected filter offset height) trivial rfl, h.plainWf,
    ⟨h.without.rows, h.without.lookup, h.without.hidden, h.without.rootPath, h.without.status⟩,
    h.next, h.id, h.generation, h.later, h.closes, h.listings⟩

/-! ### A directory is opened -/

theorem startDirectoryListing_tasks (h : c.startDirectoryListing i = some c') :
    c'.listingTasks = c.listingTasks.insert c.freshId c.listings.length := by
  simp only [startDirectoryListing, Option.bind_eq_bind, Option.bind_eq_some_iff] at h
  obtain ⟨row, -, ⟨tree, path⟩, -, h⟩ := h
  obtain rfl := Option.some.inj h
  rfl

/-- The rows of listings after request `n` are among those opened. -/
theorem Opened.later_marked {id : RequestId} (h : Opened n first paths sent c plain)
    (hi : c.tree.rows[i]? = some row) (hnavigable : row.entry.navigable)
    (hmark : c.tree.Marked t' i (.loading id)) :
    ∀ r ∈ t'.rows, r.isLater n → r.entry.navigable ∧ r.path ∈ paths ++ [row.path] := by
  intro r hr hrlater
  obtain ⟨j, hj⟩ := List.mem_iff_getElem?.mp hr
  obtain ⟨old, hold, ⟨rfl, rfl⟩ | ⟨-, rfl⟩⟩ := hmark.cases hj
  · obtain rfl : row = old := Option.some.inj (hi.symm.trans hold)
    exact ⟨hnavigable, by simp⟩
  · obtain ⟨hnav, hin⟩ := h.later r (List.mem_of_getElem? hold) hrlater
    exact ⟨hnav, List.mem_append_left _ hin⟩

/-- Those opened are of such a listing, or collapsed. -/
theorem Opened.closes_marked {id : RequestId} (h : Opened n first paths sent c plain)
    (hi : c.tree.rows[i]? = some row) (hnavigable : row.entry.navigable)
    (hsole : c.tree.Sole row.path) (hlater : n < id)
    (hmark : c.tree.Marked t' i (.loading id)) :
    ∀ r ∈ t'.rows, r.path ∈ paths ++ [row.path] → r.entry.navigable →
      r.isLater n ∨ r.expansion = .collapsed := by
  intro r hr hin hnav
  obtain ⟨j, hj⟩ := List.mem_iff_getElem?.mp hr
  obtain ⟨old, hold, ⟨rfl, rfl⟩ | ⟨hij, rfl⟩⟩ := hmark.cases hj
  · exact .inl (Tree.isLater_iff.mpr ⟨_, rfl, hlater⟩)
  · rcases List.mem_append.mp hin with hin | hin
    · exact h.closes r (List.mem_of_getElem? hold) hin hnav
    · exact absurd (hsole i j row r hi hold rfl (List.mem_singleton.mp hin) hnavigable hnav) hij

theorem Opened.expand (h : Opened n first paths sent c plain) (hi : c.tree.rows[i]? = some row)
    (hcollapsed : row.expansion = .collapsed) (hnavigable : row.entry.navigable)
    (hdepth : row.depth < maxDepth) (hlimit : c.nextRequestId + 1 < counterLimit)
    (hsole : c.tree.Sole row.path) (heq : c.startDirectoryListing i = some c') :
    Opened n first (paths ++ [row.path]) sent c' plain := by
  have hok : Expandable c i := ⟨row, hi, fun id hl => by simp [hcollapsed] at hl, hdepth, hlimit⟩
  have hnext := h.next
  have hfresh : @Eq Nat c.freshId (c.nextRequestId + 1) := freshId_eq hlimit
  obtain ⟨row₂, hrow₂, hbegin, hgen, hid, hnext', hhist⟩ := startDirectoryListing_spec heq
  obtain rfl : row₂ = row := Option.some.inj (hrow₂.symm.trans hi)
  obtain ⟨t', hb, hmark, hplacements, -⟩ := Tree.beginExpansion_spec c.freshId hi
  obtain rfl : c'.tree = t' := by
    rw [hbegin, Option.some.injEq, Prod.mk.injEq] at hb
    exact hb.1
  have htasks := startDirectoryListing_tasks heq
  have hlater : n < c.freshId := by omega
  refine ⟨h.sound.move (m := .expand i) hok heq, h.plainWf,
    h.without.beginExpansion h.sound.leaves hi hcollapsed hlater hbegin, by omega,
    h.id.trans hid.symm, h.generation.trans hgen.symm, h.later_marked hi hnavigable hmark,
    h.closes_marked hi hnavigable hsole hlater hmark, ?_⟩
  intro k l hk hl
  rcases listings_cases (listings_append hhist) hl with hl | ⟨rfl, rfl⟩
  · obtain ⟨path, id, htarget, hid', hgoing⟩ := h.listings k l hk hl
    refine ⟨path, id, htarget, hid', ?_⟩
    have hne : id ≠ c.freshId := by
      have := (h.sound.ledger.directory k l path id hl htarget).2
      rintro rfl
      omega
    rcases hgoing with hstopped | ⟨htask, p, hp⟩
    · exact .inl (hstopped.append hhist)
    · refine .inr ⟨?_, p, ?_⟩
      · rw [htasks, Table.lookup_insert_if, if_neg hne, htask]
      · rw [hplacements, Table.lookup_insert_if, if_neg hne, hp]
  · refine ⟨row₂.path, c.freshId, rfl, hlater,
      .inr ⟨?_, Tree.firstPlacement i row₂.depth, ?_⟩⟩
    · rw [htasks, Table.lookup_insert_if, if_pos rfl]
    · rw [hplacements, Table.lookup_insert_if, if_pos rfl]

/-! ### A directory is closed -/

/-- Every task that is taken out is aborted. -/
theorem abortListings_tasks : ∀ (ids : List RequestId) (c : BrowserContext μ) (id : RequestId)
    (handle : Nat), c.listingTasks.lookup id = some handle →
      if id ∈ ids then .aborted handle ∈ (c.abortListings ids).history
      else (c.abortListings ids).listingTasks.lookup id = some handle := by
  intro ids
  induction ids with
  | nil =>
    intro c id handle h
    exact h
  | cons first ids ih =>
    intro c id handle h
    rw [abortListings]
    cases hfirst : c.listingTasks.lookup first with
    | none =>
      have hne : id ≠ first := by
        rintro rfl
        rw [hfirst] at h
        cases h
      have := ih c id handle h
      simp only [List.mem_cons, hne, false_or]
      exact this
    | some handle' =>
      obtain ⟨-, -, -, handles, hhist⟩ := abortListings_spec ids
        { c.record [.aborted handle'] with listingTasks := c.listingTasks.erase first }
      by_cases hid : id = first
      · subst hid
        obtain rfl : handle = handle' := Option.some.inj (h.symm.trans hfirst)
        rw [if_pos List.mem_cons_self]
        exact Eq.mpr (congrArg (Happened.aborted handle ∈ ·) hhist)
          (List.mem_append_left _ (List.mem_append_right _ List.mem_cons_self))
      · have := ih { c.record [.aborted handle'] with listingTasks := c.listingTasks.erase first }
          id handle (by
            show (c.listingTasks.erase first).lookup id = some handle
            rw [Table.lookup_erase_if, if_neg hid, h])
        simp only [List.mem_cons, hid, false_or]
        exact this

theorem collapseDirectory_tasks {ids : List RequestId} (h : c.collapseDirectory i = some c')
    (hids : c.tree.collapse i = some (c'.tree, ids)) {id : RequestId} {handle : Nat}
    (htask : c.listingTasks.lookup id = some handle) :
    if id ∈ ids then .aborted handle ∈ c'.history
    else c'.listingTasks.lookup id = some handle := by
  simp only [collapseDirectory, Option.bind_eq_bind, Option.bind_eq_some_iff] at h
  obtain ⟨row, -, ⟨tree, ids'⟩, hcollapse, h⟩ := h
  obtain rfl := Option.some.inj h
  obtain ⟨-, rfl⟩ := Prod.mk.inj (Option.some.inj (hcollapse.symm.trans hids))
  exact abortListings_tasks ids' ({ c with tree }.record [.collapsed row]) id handle htask

/-- **A directory is closed** that the prompt opened, or that is closed already. -/
theorem Opened.later_removed (h : Opened n first (paths ++ [path]) sent c plain)
    (hsole : c.tree.Sole path) (hi : c.tree.rows[i]? = some row) (hpath : row.path = path)
    (hnavigable : row.entry.navigable) (hend : IsEnd c.tree.depths i stop)
    (hrem : c.tree.Removed t' i stop row) :
    ∀ r ∈ t'.rows, r.isLater n → r.entry.navigable ∧ r.path ∈ paths := by
  intro r hr hlater
  obtain ⟨j, hj⟩ := List.mem_iff_getElem?.mp hr
  obtain ⟨m, -, -, old, hold, ⟨-, rfl⟩ | ⟨hmi, rfl⟩⟩ := hrem.cases hend hi hj
  · cases hlater
  · obtain ⟨hnav, hin⟩ := h.later r (List.mem_of_getElem? hold) hlater
    refine ⟨hnav, (List.mem_append.mp hin).resolve_right fun hlast => hmi ?_⟩
    exact hsole m i r row hold hi (List.mem_singleton.mp hlast) hpath hnav hnavigable

theorem Opened.closes_removed (h : Opened n first (paths ++ [path]) sent c plain)
    (hi : c.tree.rows[i]? = some row) (hend : IsEnd c.tree.depths i stop)
    (hrem : c.tree.Removed t' i stop row) :
    ∀ r ∈ t'.rows, r.path ∈ paths → r.entry.navigable →
      r.isLater n ∨ r.expansion = .collapsed := by
  intro r hr hin hnav
  obtain ⟨j, hj⟩ := List.mem_iff_getElem?.mp hr
  obtain ⟨m, -, -, old, hold, ⟨-, rfl⟩ | ⟨-, rfl⟩⟩ := hrem.cases hend hi hj
  · exact .inr rfl
  · exact h.closes r (List.mem_of_getElem? hold) (List.mem_append_left _ hin) hnav

theorem Opened.collapse (h : Opened n first (paths ++ [path]) sent c plain)
    (hsole : c.tree.Sole path) (hi : c.tree.rows[i]? = some row) (hpath : row.path = path)
    (hnavigable : row.entry.navigable) (heq : c.collapseDirectory i = some c') :
    Opened n first paths sent c' plain := by
  have hcase := h.closes row (List.mem_of_getElem? hi) (by simp [hpath]) hnavigable
  obtain ⟨row₂, ids, hrow₂, hcollapse, hgen, hkept, handles, hhist⟩ := collapseDirectory_spec heq
  obtain rfl : row₂ = row := Option.some.inj (hrow₂.symm.trans hi)
  obtain ⟨t', stop, hc, hend, -, hrem⟩ := Tree.collapse_spec h.sound.wf hi
  obtain ⟨rfl, rfl⟩ : c'.tree = t' ∧ ids = c.tree.inFlight i stop := by
    rw [hcollapse, Option.some.injEq, Prod.mk.injEq] at hc
    exact hc
  refine ⟨h.sound.move (m := .collapse i) trivial heq, h.plainWf,
    h.without.collapse h.sound.wf h.sound.leaves hi hcase hend hrem,
    hkept.nextRequestId ▸ h.next, h.id.trans hkept.id.symm, h.generation.trans hgen.symm,
    h.later_removed hsole hi hpath hnavigable hend hrem, h.closes_removed hi hend hrem, ?_⟩
  intro k l hk hl
  have hlistings : c'.listings = c.listings := by
    rw [listings_append hhist]
    show c.listings ++ spawned (handles.map .aborted) = c.listings
    rw [spawned_aborted, List.append_nil]
  rw [hlistings] at hl
  obtain ⟨path', id, htarget, hid, hgoing⟩ := h.listings k l hk hl
  refine ⟨path', id, htarget, hid, ?_⟩
  rcases hgoing with hstopped | ⟨htask, p, hp⟩
  · exact .inl (hstopped.append hhist)
  have htasks := collapseDirectory_tasks heq hcollapse htask
  by_cases hin : id ∈ c.tree.inFlight i stop
  · rw [if_pos hin] at htasks
    exact .inl (.inl htasks)
  · rw [if_neg hin] at htasks
    refine .inr ⟨htasks, p.afterRemoval (i + 1) stop, ?_⟩
    rw [hrem.lookup, if_neg, hp, Option.map_some]
    -- Its row is not among those that go.
    intro hrequests
    obtain ⟨j, r, hij, hj, hr, hrid⟩ := Tree.mem_requestsIn.mp hrequests
    obtain ⟨parent, hparent, hl⟩ := h.sound.wf.loading id p hp
    obtain rfl := h.sound.wf.parent_eq hp hr hrid
    obtain rfl : parent = r := Option.some.inj (hparent.symm.trans hr)
    refine hin (List.mem_filterMap.mpr ⟨parent, Tree.mem_subtree.mpr ⟨_, hij, hj, hr⟩, ?_⟩)
    rw [hl]
    rfl

/-! ### What listings send -/

/-- What any event does to the rows: nothing, or collapsed rows go in, or a row that loads
is finished. -/
theorem event_cases {event : BrowserContextEvent μ} (hwf : t.Wf 1)
    (ht : t.apply event.op = some t') : t'.rows = t.rows ∨
      (∃ k d new, t.Inserted t' k new d ∧ ∀ r ∈ new, r.expansion = .collapsed) ∨
      ∃ i row id result, t.rows[i]? = some row ∧ row.expansion = .loading id ∧
        t.Marked t' i (Tree.finished id result) := by
  have extended {id : Nat} {entries : List (DirectoryEntry μ)}
      (ht : t.extendChild id entries = some t') : t'.rows = t.rows ∨
      ∃ k d new, t.Inserted t' k new d ∧ ∀ r ∈ new, r.expansion = .collapsed := by
    cases hp : t.placements.lookup id with
    | none => exact .inl (congrArg Tree.rows
        (Option.some.inj (ht.symm.trans (Tree.extendChild_none hp entries))))
    | some p =>
      obtain ⟨parent, t₂, -, heq, hins, -⟩ := Tree.extendChild_spec hwf hp entries
      obtain rfl : t' = t₂ := Option.some.inj (ht.symm.trans heq)
      exact .inr ⟨_, _, _, hins,
        fun r hr => (Tree.childRows_collapsed parent p.depth entries r hr).2⟩
  have finished {id : Nat} {result : Except String Unit}
      (ht : t.finishChild id result = some t') : t'.rows = t.rows ∨
      ∃ i row id result, t.rows[i]? = some row ∧ row.expansion = .loading id ∧
        t.Marked t' i (Tree.finished id result) := by
    cases hp : t.placements.lookup id with
    | none => exact .inl (congrArg Tree.rows
        (Option.some.inj (ht.symm.trans (Tree.finishChild_none hp result))))
    | some p =>
      obtain ⟨t₂, heq, hmark, -⟩ := Tree.finishChild_spec hwf hp result
      obtain rfl : t' = t₂ := Option.some.inj (ht.symm.trans heq)
      obtain ⟨row, hrow, hl⟩ := hwf.loading id p hp
      exact .inr ⟨_, row, id, result, hrow, hl, hmark⟩
  unfold BrowserContextEvent.op at ht
  split at ht
  · next entries _ _ =>
    obtain rfl := Option.some.inj ht
    refine .inr (.inl ⟨_, _, _, (Tree.extendRoot_spec t entries).1, fun r hr => ?_⟩)
    obtain ⟨entry, -, rfl⟩ := List.mem_map.mp hr
    rfl
  · exact .inl (congrArg Tree.rows (Option.some.inj ht)).symm
  · exact .inl (congrArg Tree.rows (Option.some.inj ht)).symm
  · exact (extended ht).imp_right .inl
  · exact (finished (show t.finishChild _ (.ok ()) = some t' from ht)).imp_right .inr
  · exact (finished (show t.finishChild _ (.error _) = some t' from ht)).imp_right .inr

/-- The rows after an event are collapsed, or of a row that was there. -/
theorem rows_of_event {event : BrowserContextEvent μ} (hwf : t.Wf 1)
    (ht : t.apply event.op = some t') {r : Row μ} (hr : r ∈ t'.rows) :
    r.expansion = .collapsed ∨ ∃ row ∈ t.rows, r.path = row.path ∧ r.entry = row.entry ∧
      r.expansion.requestId = row.expansion.requestId := by
  rcases event_cases hwf ht with
    hsame | ⟨k, d, new, hins, hnew⟩ | ⟨i, row, id, result, hi, hl, hmark⟩
  · exact .inr ⟨r, hsame ▸ hr, rfl, rfl, rfl⟩
  · rw [hins.1, splice, List.append_assoc, List.mem_append, List.mem_append] at hr
    rcases hr with hr | hr | hr
    · exact .inr ⟨r, List.mem_of_mem_take hr, rfl, rfl, rfl⟩
    · exact .inl (hnew r hr)
    · exact .inr ⟨r, List.mem_of_mem_drop hr, rfl, rfl, rfl⟩
  · obtain ⟨j, hj⟩ := List.mem_iff_getElem?.mp hr
    obtain ⟨old, hold, ⟨rfl, rfl⟩ | ⟨-, rfl⟩⟩ := hmark.cases hj
    · obtain rfl : row = old := Option.some.inj (hi.symm.trans hold)
      refine .inr ⟨row, List.mem_of_getElem? hold, rfl, rfl, ?_⟩
      rw [hl]
      exact Tree.finished_requestId id result
    · exact .inr ⟨r, List.mem_of_getElem? hold, rfl, rfl, rfl⟩

/-- Rows stay, with their paths, their depths and their entries, and as they are expanded
unless their listing was going on. -/
def Row.Goes (row r : Row μ) : Prop :=
  r.path = row.path ∧ r.depth = row.depth ∧ r.entry = row.entry ∧
    (r.expansion = row.expansion ∨ ∃ id result, row.expansion = .loading id ∧
      r.expansion = Tree.finished id result)

theorem Row.Goes.trans {row r r' : Row μ} (h : row.Goes r) (h' : r.Goes r') : row.Goes r' := by
  obtain ⟨hpath, hdepth, hentry, hexp⟩ := h
  obtain ⟨hpath', hdepth', hentry', hexp'⟩ := h'
  refine ⟨hpath'.trans hpath, hdepth'.trans hdepth, hentry'.trans hentry, ?_⟩
  rcases hexp' with hexp' | ⟨id', result', hl', hexp'⟩
  · rw [hexp']
    exact hexp
  · rcases hexp with hexp | ⟨id, result, -, hexp⟩
    · exact .inr ⟨id', result', hexp ▸ hl', hexp'⟩
    · rw [hexp] at hl'
      exact absurd hl' (Tree.finished_ne_loading id id' result)

theorem goes_of_event {event : BrowserContextEvent μ} (hwf : t.Wf 1)
    (ht : t.apply event.op = some t') (hrow : row ∈ t.rows) : ∃ r ∈ t'.rows, row.Goes r := by
  rcases event_cases hwf ht with
    hsame | ⟨k, d, new, hins, hnew⟩ | ⟨i, old, id, result, hi, hl, hmark⟩
  · exact ⟨row, hsame ▸ hrow, rfl, rfl, rfl, .inl rfl⟩
  · refine ⟨row, ?_, rfl, rfl, rfl, .inl rfl⟩
    rw [hins.1, splice, List.append_assoc, List.mem_append, List.mem_append]
    rw [← List.take_append_drop k t.rows, List.mem_append] at hrow
    rcases hrow with hrow | hrow
    · exact .inl hrow
    · exact .inr (.inr hrow)
  · obtain ⟨j, hj⟩ := List.mem_iff_getElem?.mp hrow
    have hat := hmark.getElem? j
    rw [hj, Option.map_some] at hat
    refine ⟨_, List.mem_of_getElem? hat, ?_⟩
    by_cases hij : i = j
    · subst hij
      obtain rfl : old = row := Option.some.inj (hi.symm.trans hj)
      rw [if_pos rfl]
      exact ⟨rfl, rfl, rfl, .inr ⟨id, result, hl, rfl⟩⟩
    · rw [if_neg hij]
      exact ⟨rfl, rfl, rfl, .inl rfl⟩

theorem Tree.Without.finishRoot {u : Tree μ} (h : Tree.Without n t u)
    (result : Except String Unit) : Tree.Without n (t.finishRoot result) (u.finishRoot result) :=
  ⟨h.rows, h.lookup, h.hidden, h.rootPath, rfl⟩

/-- An event of the root, or of an earlier request, is the same for both trees. -/
theorem Tree.Without.event {u : Tree μ} {event : BrowserContextEvent μ}
    (h : Tree.Without n t u) (hwf : t.Wf 1) (hwf' : u.Wf 1)
    (hearlier : ∀ path (id : Nat), event.target = .directory path id → id ≤ n)
    (ht : t.apply event.op = some t') :
    ∃ u', u.apply event.op = some u' ∧ Tree.Without n t' u' := by
  unfold BrowserContextEvent.op at ht ⊢
  split at ht
  · obtain rfl := Option.some.inj ht
    exact ⟨_, rfl, h.extendRoot hwf _⟩
  · obtain rfl := Option.some.inj ht
    exact ⟨_, rfl, h.finishRoot _⟩
  · obtain rfl := Option.some.inj ht
    exact ⟨_, rfl, h.finishRoot _⟩
  · next htarget _ => exact h.extendChild hwf hwf' (hearlier _ _ htarget) ht
  · next htarget _ =>
    exact h.finishChild hwf hwf' (hearlier _ _ htarget)
      (show t.finishChild _ (.ok ()) = some t' from ht)
  · next htarget _ =>
    exact h.finishChild hwf hwf' (hearlier _ _ htarget)
      (show t.finishChild _ (.error _) = some t' from ht)

/-- An event of a later request changes nothing of what there is without it. -/
theorem Tree.Without.eventLater {u : Tree μ} {event : BrowserContextEvent μ} {id : Nat}
    (h : Tree.Without n t u) (hwf : t.Wf 1) (htarget : event.target = .directory path id)
    (hid : n < id) (ht : t.apply event.op = some t') : Tree.Without n t' u := by
  unfold BrowserContextEvent.op at ht
  rw [htarget] at ht
  cases hresult : event.result with
  | entries entries =>
    rw [hresult] at ht
    exact h.extendLater hwf hid ht
  | finished =>
    rw [hresult] at ht
    exact h.finishLater hwf hid (show t.finishChild id (.ok ()) = some t' from ht)
  | failed error =>
    rw [hresult] at ht
    exact h.finishLater hwf hid (show t.finishChild id (.error error) = some t' from ht)

/-- A listing that has not ended keeps its placement. -/
theorem placement_of_event {event : BrowserContextEvent μ} {id : Nat} {p : Placement}
    (hwf : t.Wf 1) (ht : t.apply event.op = some t') (hp : t.placements.lookup id = some p)
    (hgoing : ∀ path, event.target = .directory path id → event.result.terminal = false) :
    ∃ p', t'.placements.lookup id = some p' := by
  have inserted {k d : Nat} {new : List (Row μ)} (hins : t.Inserted t' k new d) :
      ∃ p', t'.placements.lookup id = some p' :=
    ⟨_, by rw [hins.2, Table.lookup_map, hp, Option.map_some]⟩
  have finished {id' : Nat} {result : Except String Unit} (hne : id ≠ id')
      (ht : t.finishChild id' result = some t') : ∃ p', t'.placements.lookup id = some p' := by
    cases hp' : t.placements.lookup id' with
    | none => exact ⟨p, Option.some.inj ((Tree.finishChild_none hp' result).symm.trans ht) ▸ hp⟩
    | some p' =>
      obtain ⟨t₂, heq, -, hplacements, -⟩ := Tree.finishChild_spec hwf hp' result
      obtain rfl : t' = t₂ := Option.some.inj (ht.symm.trans heq)
      exact ⟨p, by rw [hplacements, Table.lookup_erase_if, if_neg hne, hp]⟩
  unfold BrowserContextEvent.op at ht
  split at ht
  · obtain rfl := Option.some.inj ht
    exact inserted (Tree.extendRoot_spec t _).1
  · obtain rfl := Option.some.inj ht
    exact ⟨p, hp⟩
  · obtain rfl := Option.some.inj ht
    exact ⟨p, hp⟩
  · next path id' entries _ _ =>
    cases hp' : t.placements.lookup id' with
    | none => exact ⟨p, Option.some.inj ((Tree.extendChild_none hp' entries).symm.trans ht) ▸ hp⟩
    | some p' =>
      obtain ⟨parent, t₂, -, heq, hins, -⟩ := Tree.extendChild_spec hwf hp' entries
      obtain rfl : t' = t₂ := Option.some.inj (ht.symm.trans heq)
      exact inserted hins
  · next path id' htarget hresult =>
    refine finished ?_ (show t.finishChild id' (.ok ()) = some t' from ht)
    rintro rfl
    have := hgoing path htarget
    rw [hresult] at this
    cases this
  · next path id' error htarget hresult =>
    refine finished ?_ (show t.finishChild id' (.error error) = some t' from ht)
    rintro rfl
    have := hgoing path htarget
    rw [hresult] at this
    cases this

/-- Only the end of a listing takes its task out. -/
theorem apply_tasks {event : BrowserContextEvent μ} {id : Nat} {handle : Nat}
    (heq : c.apply event = some c') (htask : c.listingTasks.lookup id = some handle)
    (hgoing : ∀ path, event.target = .directory path id → event.result.terminal = false) :
    c'.listingTasks.lookup id = some handle := by
  unfold apply at heq
  split at heq
  · exact Option.some.inj heq ▸ htask
  split at heq
  · split at heq
    · obtain rfl := Option.some.inj heq
      unfold applyRootListing
      split <;> exact htask
    · next path id' htarget =>
      unfold applyDirectoryListing at heq
      split at heq
      · exact Option.some.inj heq ▸ htask
      have erased (hterminal : event.result.terminal = true) :
          (c.listingTasks.erase id').lookup id = some handle := by
        rw [Table.lookup_erase_if, if_neg, htask]
        rintro rfl
        rw [hgoing path htarget] at hterminal
        cases hterminal
      split at heq
      · simp only [Option.bind_eq_bind, Option.bind_eq_some_iff] at heq
        obtain ⟨tree, -, heq⟩ := heq
        exact Option.some.inj heq ▸ htask
      · next hresult =>
        simp only [Option.bind_eq_bind, Option.bind_eq_some_iff] at heq
        obtain ⟨tree, -, heq⟩ := heq
        exact Option.some.inj heq ▸ erased (by rw [hresult]; rfl)
      · next error hresult =>
        simp only [Option.bind_eq_bind, Option.bind_eq_some_iff] at heq
        obtain ⟨tree, -, heq⟩ := heq
        exact Option.some.inj heq ▸ erased (by rw [hresult]; rfl)
  · exact Option.some.inj heq ▸ htask

theorem filter_of_apply {event : BrowserContextEvent μ} (heq : c.apply event = some c') :
    c'.filter = c.filter := by
  unfold apply at heq
  split at heq
  · exact Option.some.inj heq ▸ rfl
  split at heq
  · split at heq
    · obtain rfl := Option.some.inj heq
      unfold applyRootListing
      split <;> rfl
    · unfold applyDirectoryListing at heq
      split at heq
      · exact Option.some.inj heq ▸ rfl
      split at heq
      all_goals
        simp only [Option.bind_eq_bind, Option.bind_eq_some_iff] at heq
        obtain ⟨tree, -, heq⟩ := heq
        exact Option.some.inj heq ▸ rfl
  · exact Option.some.inj heq ▸ rfl

/-- No event panics. -/
theorem exists_apply (hwf : c.tree.Wf 1) (event : BrowserContextEvent μ) :
    ∃ c', c.apply event = some c' := by
  have done {result : Option (Tree μ)} (h : ∃ t', result = some t')
      (f : Tree μ → BrowserContext μ) : ∃ c', (result.bind fun t' => some (f t')) = some c' := by
    obtain ⟨t', rfl⟩ := h
    exact ⟨f t', rfl⟩
  unfold apply
  split
  · exact ⟨c, rfl⟩
  split
  · split
    · exact ⟨_, rfl⟩
    · next path id _ =>
      unfold applyDirectoryListing
      split
      · exact ⟨c, rfl⟩
      split
      · next entries _ =>
        exact done
          (apply_isSome hwf (show TreeOp.Allowed c.tree (.extendChild id entries) from trivial))
          fun tree => { c with tree }
      · exact done
          (apply_isSome hwf (show TreeOp.Allowed c.tree (.finishChild id (.ok ())) from trivial))
          fun tree => { c with tree, listingTasks := c.listingTasks.erase id }
      · next error _ =>
        have hallowed : TreeOp.Allowed c.tree (.finishChild id (.error error)) := trivial
        exact done (apply_isSome hwf hallowed)
          fun tree => { c with tree, listingTasks := c.listingTasks.erase id }
  · exact ⟨c, rfl⟩

/-- The browser without a prompt takes the same event. -/
theorem Opened.exists_plain {event : BrowserContextEvent μ}
    (h : Opened n first paths sent c plain) (heq : c.apply event = some c') :
    ∃ plain', plain.apply event = some plain' ∧ plain'.tree.Wf 1 ∧
      Tree.Without n c'.tree plain'.tree ∧ plain'.id = plain.id ∧
      plain'.generation = plain.generation := by
  have hwf := h.sound.wf
  -- What is past for the one is past for the other.
  have hpast (hnot : ¬ Current c event) : ¬ Current plain event := by
    rintro ⟨hid, hgen, hloading⟩
    refine hnot ⟨hid.trans h.id, hgen.trans h.generation, fun path id htarget => ?_⟩
    obtain ⟨p, hp⟩ := hloading path id htarget
    rw [h.without.lookup] at hp
    split at hp
    · obtain ⟨p', hp', -⟩ := Option.map_eq_some_iff.mp hp
      exact ⟨p', hp'⟩
    · cases hp
  by_cases hcur : Current c event
  · obtain ⟨htree, -, hgen, hkept⟩ := apply_of_current hwf hcur heq
    by_cases hlater : ∃ path id, event.target = .directory path id ∧ n < id
    · obtain ⟨path, id, htarget, hid⟩ := hlater
      have hnot : ¬ Current plain event := by
        rintro ⟨-, -, hloading⟩
        obtain ⟨p, hp⟩ := hloading path id htarget
        rw [h.without.lookup, if_neg (Nat.not_le.mpr hid)] at hp
        cases hp
      exact ⟨plain, apply_of_not_current h.plainWf hnot, h.plainWf,
        h.without.eventLater hwf htarget hid htree, rfl, rfl⟩
    · have hearlier (path : PathString) (id : Nat) (htarget : event.target = .directory path id) :
          id ≤ n := by
        by_contra hid
        exact hlater ⟨path, id, htarget, Nat.not_le.mp hid⟩
      have hcur' : Current plain event := by
        refine ⟨hcur.contextId.trans h.id.symm, hcur.generation.trans h.generation.symm,
          fun path id htarget => ?_⟩
        obtain ⟨p, hp⟩ := hcur.loading path id htarget
        exact ⟨_, by rw [h.without.lookup, if_pos (hearlier path id htarget), hp, Option.map_some]⟩
      obtain ⟨plain', hplain⟩ := exists_apply h.plainWf event
      obtain ⟨htree', -, hgen', hkept'⟩ := apply_of_current h.plainWf hcur' hplain
      obtain ⟨u', hu', hwithout⟩ := h.without.event hwf h.plainWf hearlier htree
      obtain rfl : plain'.tree = u' := Option.some.inj (htree'.symm.trans hu')
      exact ⟨plain', hplain, wf_of_event h.plainWf htree', hwithout, hkept'.id, hgen'⟩
  · obtain rfl := Option.some.inj ((apply_of_not_current hwf hcur).symm.trans heq)
    exact ⟨plain, apply_of_not_current h.plainWf (hpast hcur), h.plainWf, h.without, rfl, rfl⟩

theorem Opened.later_event {event : BrowserContextEvent μ}
    (h : Opened n first paths sent c plain) (ht : c.tree.apply event.op = some t') :
    ∀ r ∈ t'.rows, r.isLater n → r.entry.navigable ∧ r.path ∈ paths := by
  intro r hr hlater
  rcases rows_of_event h.sound.wf ht hr with hcollapsed | ⟨row, hrow, hpath, hentry, hrequest⟩
  · rw [Tree.not_later_collapsed hcollapsed] at hlater
    cases hlater
  · rw [hpath, hentry]
    rw [Row.isLater, hrequest] at hlater
    exact h.later row hrow hlater

theorem collapsed_of_requestId_eq_none {expansion : Expansion} (h : expansion.requestId = none) :
    expansion = .collapsed := by
  cases expansion with
  | collapsed => rfl
  | loading id => cases h
  | expanded id => cases h
  | failed id error => cases h

theorem Opened.closes_event {event : BrowserContextEvent μ}
    (h : Opened n first paths sent c plain) (ht : c.tree.apply event.op = some t') :
    ∀ r ∈ t'.rows, r.path ∈ paths → r.entry.navigable →
      r.isLater n ∨ r.expansion = .collapsed := by
  intro r hr hin hnav
  rcases rows_of_event h.sound.wf ht hr with hcollapsed | ⟨row, hrow, hpath, hentry, hrequest⟩
  · exact .inr hcollapsed
  · rw [hpath] at hin
    rw [hentry] at hnav
    rcases h.closes row hrow hin hnav with hlater | hcollapsed
    · exact .inl (by rw [Row.isLater, hrequest]; exact hlater)
    · rw [hcollapsed] at hrequest
      exact .inr (collapsed_of_requestId_eq_none hrequest)

/-- **An event** keeps what was opened apart. -/
theorem Opened.event {s : Sent μ} {l : Listing} (h : Opened n first paths sent c plain)
    (hl : c.listings[s.handle]? = some l) (hevent : s.event = l.event s.event.result)
    (heq : c.apply s.event = some c') : ∃ plain', plain.apply s.event = some plain' ∧
      Opened n first paths (sent ++ [s]) c' plain' := by
  obtain ⟨plain', hplain, hwf', hwithout, hid', hgen'⟩ := h.exists_plain heq
  refine ⟨plain', hplain, ?_⟩
  have hwf := h.sound.wf
  by_cases hcur : Current c s.event
  · obtain ⟨htree, hhist, hgen, hkept⟩ := apply_of_current hwf hcur heq
    have hlistings : c'.listings = c.listings := by rw [listings_eq, hhist, ← listings_eq]
    refine ⟨h.sound.event heq, hwf', hwithout, hkept.nextRequestId ▸ h.next,
      hid'.trans (h.id.trans hkept.id.symm), hgen'.trans (h.generation.trans hgen.symm),
      h.later_event htree, h.closes_event htree, ?_⟩
    intro k l' hk hl'
    rw [hlistings] at hl'
    obtain ⟨path, id, htarget, hid, hgoing⟩ := h.listings k l' hk hl'
    refine ⟨path, id, htarget, hid, ?_⟩
    rcases hgoing with hstopped | ⟨htask, p, hp⟩
    · rcases hstopped with haborted | ⟨s', hs', hended⟩
      · exact .inl (.inl (hhist ▸ haborted))
      · exact .inl (.inr ⟨s', List.mem_append_left _ hs', hended⟩)
    · by_cases hends : ∃ path', s.event.target = .directory path' id ∧ s.event.result.terminal
      · -- The listing that ends is this one.
        obtain ⟨path', htarget', hterminal⟩ := hends
        rw [hevent] at htarget'
        have hsame := h.sound.ledger.once k s.handle l' l path path' id hl' hl htarget htarget'
        exact .inl (.inr ⟨s, by simp, hsame.symm, hterminal⟩)
      · have hgoing (path' : PathString) (htarget' : s.event.target = .directory path' id) :
            s.event.result.terminal = false :=
          Bool.eq_false_iff.mpr fun hterminal => hends ⟨path', htarget', hterminal⟩
        exact .inr ⟨apply_tasks heq htask hgoing, placement_of_event hwf htree hp hgoing⟩
  · obtain rfl := Option.some.inj ((apply_of_not_current hwf hcur).symm.trans heq)
    refine ⟨h.sound, hwf', hwithout, h.next, hid'.trans h.id, hgen'.trans h.generation, h.later,
      h.closes, fun k l' hk hl' => ?_⟩
    obtain ⟨path, id, htarget, hid, hgoing⟩ := h.listings k l' hk hl'
    refine ⟨path, id, htarget, hid, hgoing.imp_left fun hstopped => ?_⟩
    rcases hstopped with haborted | ⟨s', hs', hended⟩
    · exact .inl haborted
    · exact .inr ⟨s', List.mem_append_left _ hs', hended⟩

/-! ### All are closed again -/

variable {descents : List Descent} {descent : Descent} {filter : Filter}

theorem pathsOf_append : pathsOf (descents ++ [descent]) =
    pathsOf descents ++ if descent.opened then [descent.path] else [] := by
  rw [pathsOf, List.filter_append, List.map_append, ← pathsOf, List.filter_singleton]
  cases descent.opened <;> rfl

theorem Tree.Sole.removed (h : t.Sole path) (hrem : t.Removed t' i stop row)
    (hend : IsEnd t.depths i stop) (hi : t.rows[i]? = some row) : t'.Sole path := by
  have hold {j : Nat} {r : Row μ} (hj : t'.rows[j]? = some r) : ∃ m old, t.rows[m]? = some old ∧
      j = movedUp (i + 1) stop m ∧ old.path = r.path ∧ old.entry = r.entry := by
    obtain ⟨m, rfl, -, old, hold, ⟨-, rfl⟩ | ⟨-, rfl⟩⟩ := hrem.cases hend hi hj
    · exact ⟨m, old, hold, rfl, rfl, rfl⟩
    · exact ⟨m, r, hold, rfl, rfl, rfl⟩
  intro j k r r' hj hk hpath hpath' hnav hnav'
  obtain ⟨m, old, hm, rfl, hold₁, hold₂⟩ := hold hj
  obtain ⟨m', old', hm', rfl, hold₁', hold₂'⟩ := hold hk
  rw [h m m' old old' hm hm' (hold₁.trans hpath) (hold₁'.trans hpath') (hold₂ ▸ hnav)
    (hold₂' ▸ hnav')]

/-- The directory that was stepped into last is closed, if the prompt opened it. -/
theorem Opened.closeDescent (h : Opened n first (pathsOf (descents ++ [descent])) sent c plain)
    (hsole : ∀ path ∈ pathsOf (descents ++ [descent]), c.tree.Sole path) :
    ∃ c', c.closeDescent descent = some c' ∧ c'.filter = c.filter ∧
      Opened n first (pathsOf descents) sent c' plain ∧
      ∀ path ∈ pathsOf descents, c'.tree.Sole path := by
  obtain ⟨c', heq, hfilter⟩ := c.exists_closeDescent descent
  refine ⟨c', heq, hfilter, ?_⟩
  rw [pathsOf_append] at h hsole
  unfold BrowserContext.closeDescent at heq
  by_cases hopened : descent.opened = true
  · rw [if_pos hopened] at heq h hsole
    split at heq
    · next hnone =>
      obtain rfl := Option.some.inj heq
      -- Its row is gone.
      rw [List.findIdx?_eq_none_iff] at hnone
      refine ⟨⟨h.sound, h.plainWf, h.without, h.next, h.id, h.generation, ?_, ?_, h.listings⟩,
        fun path hpath => hsole path (List.mem_append_left _ hpath)⟩
      · intro row hrow hlater
        obtain ⟨hnav, hin⟩ := h.later row hrow hlater
        refine ⟨hnav, (List.mem_append.mp hin).resolve_right fun hlast => ?_⟩
        have := hnone row hrow
        rw [List.mem_singleton.mp hlast, hnav] at this
        simp at this
      · intro row hrow hin
        exact h.closes row hrow (List.mem_append_left _ hin)
    · next i hi =>
      obtain ⟨hlt, hfound, -⟩ := List.findIdx?_eq_some_iff_getElem.mp hi
      rw [Bool.and_eq_true, decide_eq_true_eq] at hfound
      have hrow := List.getElem?_eq_getElem hlt
      refine ⟨h.collapse (hsole _ (by simp)) hrow hfound.1 hfound.2 heq, fun path hpath => ?_⟩
      obtain ⟨row, ids, hrow', hcollapse, -⟩ := collapseDirectory_spec heq
      obtain ⟨t', stop, hc, hend, -, hrem⟩ := Tree.collapse_spec h.sound.wf hrow'
      obtain rfl : c'.tree = t' := by
        rw [hcollapse, Option.some.injEq, Prod.mk.injEq] at hc
        exact hc.1
      exact (hsole path (List.mem_append_left _ hpath)).removed hrem hend hrow'
  · rw [if_neg hopened] at heq
    rw [if_neg hopened, List.append_nil] at h hsole
    obtain rfl := Option.some.inj heq
    exact ⟨h, hsole⟩

/-- **All that the prompt opened is closed**, the last first. -/
theorem Opened.closeDescents : ∀ (descents : List Descent) {c : BrowserContext μ},
    Opened n first (pathsOf descents) sent c plain →
    (∀ path ∈ pathsOf descents, c.tree.Sole path) →
    ∃ c', c.closeDescents descents.reverse = some c' ∧ c'.filter = c.filter ∧
      Opened n first [] sent c' plain := by
  intro descents
  induction descents using List.reverseRecOn with
  | nil =>
    intro c h _
    exact ⟨c, rfl, rfl, h⟩
  | append_singleton descents descent ih =>
    intro c h hsole
    obtain ⟨c₁, hclose, hfilter, h₁, hsole₁⟩ := h.closeDescent hsole
    obtain ⟨c', hrest, hfilter', h'⟩ := ih h₁ hsole₁
    refine ⟨c', ?_, hfilter'.trans hfilter, h'⟩
    rw [List.reverse_append, List.reverse_singleton, List.singleton_append,
      BrowserContext.closeDescents, hclose, Option.bind_some, hrest]

/-- Nothing is left of what was opened. -/
theorem Opened.eq (h : Opened n first [] sent c plain) : plain.tree.rows = c.tree.rows ∧
    (∀ id, plain.tree.placements.lookup id = c.tree.placements.lookup id) ∧
    ∀ (k : Nat) (l : Listing), first ≤ k → c.listings[k]? = some l → Stopped c sent k := by
  have hno : ∀ row ∈ c.tree.rows, row.isLater n = false := by
    intro row hrow
    refine Bool.eq_false_iff.mpr fun hlater => ?_
    exact absurd (h.later row hrow hlater).2 List.not_mem_nil
  obtain ⟨hrows, hplacements⟩ := h.without.eq h.sound.wf hno
  refine ⟨hrows, hplacements, fun k l hk hl => ?_⟩
  obtain ⟨path, id, -, hid, hstopped | ⟨-, p, hp⟩⟩ := h.listings k l hk hl
  · exact hstopped
  · -- A listing that goes on would have its row.
    obtain ⟨row, hrow, hloading⟩ := h.sound.wf.loading id p hp
    have hlater := Tree.isLater_iff.mpr ⟨id, by rw [hloading]; rfl, hid⟩
    rw [hno row (List.mem_of_getElem? hrow)] at hlater
    cases hlater

/-- The row of the path is selected, if there is one. -/
def Reselected (c : BrowserContext μ) (restorePath : Option PathString) : Prop :=
  ∀ path ∈ restorePath, (∃ row ∈ c.tree.rows, row.path = path) →
    ∃ row, c.tree.selectedRow = some row ∧ row.path = path

theorem reselected_select (c : BrowserContext μ) (restorePath : Option PathString) :
    Reselected (c.select (restorePath.bind fun path =>
      c.tree.rows.findIdx? fun row => row.path = path)) restorePath := by
  rintro path hpath ⟨row, hrow, hrowpath⟩
  obtain rfl := hpath
  obtain ⟨i, hi⟩ : ∃ i, (c.tree.rows.findIdx? fun row => row.path = path) = some i := by
    refine Option.isSome_iff_exists.mp ?_
    rw [List.findIdx?_isSome, List.any_eq_true]
    exact ⟨row, hrow, decide_eq_true hrowpath⟩
  obtain ⟨hlt, hfound, -⟩ := List.findIdx?_eq_some_iff_getElem.mp hi
  refine ⟨c.tree.rows[i], ?_, of_decide_eq_true hfound⟩
  have hne : ¬ c.tree.rows.isEmpty = true := by
    rw [List.isEmpty_iff]
    rintro hnil
    rw [hnil] at hlt
    exact Nat.not_lt_zero _ hlt
  rw [Option.bind_some, hi, Tree.selectedRow, Tree.effectiveSelection]
  show (if c.tree.rows.isEmpty then none else some (min i (c.tree.rows.length - 1))).bind
    (c.tree.rows[·]?) = _
  rw [if_neg hne, Option.bind_some, Nat.min_eq_left (by omega), List.getElem?_eq_getElem hlt]

/-- **The prompt is abandoned.** -/
theorem Opened.abandonFilter (h : Opened n first (pathsOf filter.descents) sent c plain)
    (hfilter : c.filter = some filter)
    (hsole : ∀ path ∈ pathsOf filter.descents, c.tree.Sole path) :
    ∃ c', c.abandonFilter = some c' ∧ c'.filter = none ∧ Opened n first [] sent c' plain ∧
      Reselected c' filter.restorePath := by
  obtain ⟨c₁, hclose, hnone, h₁⟩ := Opened.closeDescents filter.descents
    (h.looks (looks_filter c none)) hsole
  have hrestored := reselected_select c₁ filter.restorePath
  have heq : c.abandonFilter = some (c₁.select (filter.restorePath.bind fun path =>
      c₁.tree.rows.findIdx? fun row => row.path = path)) := by
    unfold BrowserContext.abandonFilter
    simp only [hfilter, hclose, Option.bind_eq_bind, Option.bind_some, pure]
  generalize (filter.restorePath.bind fun path =>
    c₁.tree.rows.findIdx? fun row => row.path = path) = restored at hrestored heq
  exact ⟨c₁.select restored, heq, hnone, h₁.looks (looks_select c₁ restored), hrestored⟩

/-! ### Each key -/

/-- What the prompt has opened, and the path it was begun on. -/
def opening (c : BrowserContext μ) : Option (List Descent × Option PathString) :=
  c.filter.map fun filter => (filter.descents, filter.restorePath)

def openPaths (c : BrowserContext μ) : List PathString :=
  match c.filter with
  | none => []
  | some filter => pathsOf filter.descents

theorem openPaths_eq (h : opening c' = opening c) : openPaths c' = openPaths c := by
  unfold opening at h
  unfold openPaths
  cases hc : c.filter with
  | none =>
    rw [hc, Option.map_none, Option.map_eq_none_iff] at h
    rw [h]
  | some filter =>
    rw [hc, Option.map_some, Option.map_eq_some_iff] at h
    obtain ⟨filter', hfilter', heq⟩ := h
    rw [hfilter']
    exact congrArg pathsOf (congrArg Prod.fst heq)

/-- A browser whose prompt was begun on a path, and the one without the prompt. -/
structure Prompting (n first : Nat) (restorePath : Option PathString) (sent : List (Sent μ))
    (c plain : BrowserContext μ) : Prop where
  opened : Opened n first (openPaths c) sent c plain
  begun : ∀ filter, c.filter = some filter → filter.restorePath = restorePath
  reselected : c.filter = none → Reselected c restorePath

/-- The keys of an open prompt; `Enter` only where it fills a name in. -/
def InPrompt [Lowercase] (c : BrowserContext μ) : ContextOp → Prop
  | .viewport _ | .moveSelection _ | .scrollHalfPage _ => True
  | .extendFilter _ | .shortenFilter | .completeFilter | .descendFilter | .clearFilterEntry => True
  | .submitFilter => c.submitFilter.filter.isSome
  | _ => False

instance [Lowercase] (c : BrowserContext μ) : (op : ContextOp) → Decidable (InPrompt c op)
  | .viewport _ | .moveSelection _ | .scrollHalfPage _ => .isTrue trivial
  | .extendFilter _ | .shortenFilter | .completeFilter | .descendFilter | .clearFilterEntry =>
    .isTrue trivial
  | .submitFilter => inferInstanceAs (Decidable (c.submitFilter.filter.isSome = true))
  | .beginFilter | .commitFilter | .abandonFilter | .refresh | .enterSelected | .leave |
    .activateSelected | .cancel => .isFalse id

/-- A key can be undone if no other directory has the path of one that the prompt has
opened or opens; what it opens is collapsed, and the counters have not come round. -/
def Undoable [Lowercase] (c : BrowserContext μ) (op : ContextOp) : Prop :=
  (∀ path ∈ openPaths c, c.tree.Sole path) ∧
    ∀ i ∈ c.opens op, c.nextRequestId + 1 < counterLimit ∧ ∀ row ∈ c.tree.rows[i]?,
      row.expansion = .collapsed ∧ row.depth < maxDepth ∧ c.tree.Sole row.path

instance [Lowercase] (c : BrowserContext μ) (op : ContextOp) : Decidable (Undoable c op) :=
  inferInstanceAs (Decidable (_ ∧ _))

variable {restorePath : Option PathString} {op : ContextOp}

/-- What the prompt has opened stays the same. -/
theorem Prompting.looks (h : Prompting n first restorePath sent c plain) (hlooks : Looks c c')
    (hopen : c.filter.isSome) (hsame : opening c' = opening c) :
    Prompting n first restorePath sent c' plain := by
  refine ⟨openPaths_eq hsame ▸ h.opened.looks hlooks, fun filter' hfilter' => ?_, fun hnone => ?_⟩
  · rw [opening, hfilter', Option.map_some] at hsame
    obtain ⟨filter, hfilter, heq⟩ := Option.map_eq_some_iff.mp hsame.symm
    rw [← h.begun filter hfilter]
    exact (congrArg Prod.snd heq).symm
  · rw [opening, hnone, Option.map_none] at hsame
    rw [Option.map_eq_none_iff.mp hsame.symm] at hopen
    cases hopen

section Keys

variable [Lowercase]

@[simp] theorem opening_followFilter (c : BrowserContext μ) :
    opening c.followFilter = opening c := by
  rw [opening, followFilter_filter, opening]

@[simp] theorem opening_fillFromSelection (c : BrowserContext μ) :
    opening c.fillFromSelection = opening c := by
  unfold fillFromSelection opening
  cases h : c.filter <;> simp [h]

@[simp] theorem opening_viewport (c : BrowserContext μ) (height : Nat) :
    opening (c.viewport height).2 = opening c := by
  unfold viewport
  simp only
  split <;> rfl

@[simp] theorem opening_moveSelection (c : BrowserContext μ) (down : Bool) :
    opening (c.moveSelection down) = opening c := by
  unfold moveSelection
  split
  · rfl
  · simp only
    split
    · rfl
    · rw [opening_fillFromSelection]
      rfl

@[simp] theorem opening_scrollHalfPage (c : BrowserContext μ) (down : Bool) :
    opening (c.scrollHalfPage down) = opening c := by
  unfold scrollHalfPage
  simp only
  split
  · rfl
  · split
    · rfl
    · rw [opening_fillFromSelection]
      rfl

@[simp] theorem opening_extendFilter (c : BrowserContext μ) (character : Char) :
    opening (c.extendFilter character) = opening c := by
  unfold extendFilter
  split
  · rfl
  · next filter hfilter =>
    rw [opening_followFilter, opening, opening, hfilter]
    rfl

@[simp] theorem opening_completeFilter (c : BrowserContext μ) :
    opening c.completeFilter = opening c := by
  cases hfilter : c.filter with
  | none =>
    unfold completeFilter
    simp only [hfilter]
  | some filter =>
    have hadopt : opening ({ c with filter := some filter.adoptFilled } : BrowserContext μ) =
        opening c := by
      rw [opening, opening, hfilter]
      rfl
    unfold completeFilter
    simp only [hfilter]
    split
    · exact hadopt
    split
    · exact hadopt
    split
    · exact hadopt
    split
    · exact hadopt
    · rw [opening_followFilter]
      exact hadopt

/-- Enter, where it leaves the prompt open. -/
theorem opening_submitFilter (h : c.submitFilter.filter.isSome) :
    opening c.submitFilter = opening c := by
  unfold submitFilter at h ⊢
  split
  · rfl
  · next filter hfilter =>
    simp only [hfilter] at h
    split at h
    · cases h
    · split at h
      · next name hname hne => simp only [if_pos hne, opening_fillFromSelection]
      · cases h

/-- A key that only chooses what is on screen. -/
theorem opening_of_act (hin : InPrompt c op) (hopens : op ≠ .shortenFilter)
    (hdescends : op ≠ .descendFilter) (hclears : op ≠ .clearFilterEntry)
    (h : c.act op = some c') : Looks c c' ∧ opening c' = opening c := by
  cases op with
  | viewport height =>
    obtain rfl := Option.some.inj h
    exact ⟨looks_viewport c height, opening_viewport c height⟩
  | moveSelection down =>
    obtain rfl := Option.some.inj h
    exact ⟨looks_moveSelection c down, opening_moveSelection c down⟩
  | scrollHalfPage down =>
    obtain rfl := Option.some.inj h
    exact ⟨looks_scrollHalfPage c down, opening_scrollHalfPage c down⟩
  | extendFilter character =>
    obtain rfl := Option.some.inj h
    exact ⟨looks_extendFilter c character, opening_extendFilter c character⟩
  | completeFilter =>
    obtain rfl := Option.some.inj h
    exact ⟨looks_completeFilter c, opening_completeFilter c⟩
  | submitFilter =>
    obtain rfl := Option.some.inj h
    exact ⟨looks_submitFilter c, opening_submitFilter hin⟩
  | shortenFilter => exact absurd rfl hopens
  | descendFilter => exact absurd rfl hdescends
  | clearFilterEntry => exact absurd rfl hclears
  | beginFilter => exact absurd hin id
  | commitFilter => exact absurd hin id
  | abandonFilter => exact absurd hin id
  | refresh => exact absurd hin id
  | enterSelected => exact absurd hin id
  | leave => exact absurd hin id
  | activateSelected => exact absurd hin id
  | cancel => exact absurd hin id

omit [Lowercase] in
theorem openPaths_some (h : c.filter = some filter) : openPaths c = pathsOf filter.descents := by
  rw [openPaths, h]

omit [Lowercase] in
/-- The prompt is abandoned. -/
theorem Prompting.abandon (h : Prompting n first restorePath sent c plain)
    (hfilter : c.filter = some filter) (hsole : ∀ path ∈ openPaths c, c.tree.Sole path) :
    ∃ c', c.abandonFilter = some c' ∧ c'.filter = none ∧
      Prompting n first restorePath sent c' plain := by
  have hopened := h.opened
  rw [openPaths_some hfilter] at hopened hsole
  obtain ⟨c', heq, hnone, hopened', hreselected⟩ := hopened.abandonFilter hfilter hsole
  refine ⟨c', heq, hnone, ?_, fun filter' hfilter' => ?_, fun _ => ?_⟩
  · rw [openPaths, hnone]
    exact hopened'
  · rw [hnone] at hfilter'
    cases hfilter'
  · rw [← h.begun filter hfilter]
    exact hreselected

/-- A step back out of a directory. -/
theorem Prompting.ascend (h : Prompting n first restorePath sent c plain)
    (hfilter : c.filter = some filter) (hdescents : filter.descents ≠ [])
    (hsole : ∀ path ∈ openPaths c, c.tree.Sole path) :
    ∃ c', c.ascendFilter = some c' ∧ (∃ filter', c'.filter = some filter') ∧
      Prompting n first restorePath sent c' plain := by
  have hlast := List.getLast?_eq_some_getLast hdescents
  have hsplit := List.dropLast_append_getLast hdescents
  generalize filter.descents.getLast hdescents = descent at hlast hsplit
  have hopened := h.opened
  rw [openPaths_some hfilter, ← hsplit] at hopened hsole
  obtain ⟨c₁, hclose, hkeeps, hopened₁, -⟩ :=
    (hopened.looks (looks_filter c (some { filter with
      query := descent.query, descents := filter.descents.dropLast }))).closeDescent hsole
  have hfilter₁ : c₁.followFilter.filter = some { filter with
      query := descent.query, descents := filter.descents.dropLast } :=
    (followFilter_filter c₁).trans hkeeps
  refine ⟨c₁.followFilter, ?_, ⟨_, hfilter₁⟩, ?_, fun filter' hfilter' => ?_, fun hnone => ?_⟩
  · unfold ascendFilter
    simp only [hfilter, hlast, hclose, Option.bind_eq_bind, Option.bind_some, pure]
  · rw [openPaths_some hfilter₁]
    exact hopened₁.looks (looks_followFilter c₁)
  · rw [hfilter₁] at hfilter'
    rw [← h.begun filter hfilter, ← Option.some.inj hfilter']
  · rw [hfilter₁] at hnone
    cases hnone

theorem Prompting.shorten (h : Prompting n first restorePath sent c plain)
    (hfilter : c.filter = some filter) (hsole : ∀ path ∈ openPaths c, c.tree.Sole path) :
    ∃ c', c.shortenFilter = some c' ∧ Prompting n first restorePath sent c' plain := by
  have hadopt : opening ({ c with filter := some filter.adoptFilled } : BrowserContext μ) =
      opening c := by
    rw [opening, opening, hfilter]
    rfl
  have hopen : c.filter.isSome := by rw [hfilter]; rfl
  have hadopted := h.looks (looks_filter c (some filter.adoptFilled)) hopen hadopt
  have hsole' : ∀ path ∈ openPaths ({ c with filter := some filter.adoptFilled } :
      BrowserContext μ), c.tree.Sole path := openPaths_eq hadopt ▸ hsole
  unfold shortenFilter
  simp only [hfilter]
  split
  · exact ⟨_, rfl, h.looks (looks_filter c _).follow hopen (by
      rw [opening_followFilter]
      exact hadopt)⟩
  · split
    · obtain ⟨c', heq, -, h'⟩ := hadopted.abandon rfl hsole'
      exact ⟨c', heq, h'⟩
    · next hdescents =>
      obtain ⟨c', heq, -, h'⟩ := hadopted.ascend rfl hdescents hsole'
      exact ⟨c', heq, h'⟩

theorem Prompting.clear (h : Prompting n first restorePath sent c plain)
    (hfilter : c.filter = some filter) (hsole : ∀ path ∈ openPaths c, c.tree.Sole path) :
    ∃ c', c.clearFilterEntry = some c' ∧ Prompting n first restorePath sent c' plain := by
  have hopen : c.filter.isSome := by rw [hfilter]; rfl
  unfold clearFilterEntry
  simp only [hfilter]
  split
  · refine ⟨_, rfl, h.looks (looks_filter c _).follow hopen ?_⟩
    rw [opening_followFilter, opening, opening, hfilter]
    rfl
  · split
    · obtain ⟨c', heq, -, h'⟩ := h.abandon hfilter hsole
      exact ⟨c', heq, h'⟩
    · next hdescents =>
      obtain ⟨c₁, heq, ⟨filter₁, hfilter₁⟩, h₁⟩ := h.ascend hfilter hdescents hsole
      simp only [heq, Option.bind_eq_bind, Option.bind_some, pure]
      refine ⟨_, rfl, h₁.looks (looks_filter c₁ _).follow (by rw [hfilter₁]; rfl) ?_⟩
      rw [opening_followFilter, opening, opening, hfilter₁]
      rfl

/-- The `/` steps into a directory. -/
theorem descent_navigable {index : Nat} {closed : Bool}
    (h : c.descent filter = .ok (index, path, closed)) (hrow : c.tree.rows[index]? = some row) :
    row.entry.navigable ∧ row.path = path := by
  unfold descent at h
  split at h
  · cases h
  · split at h
    · cases h
    · next i row' hfound =>
      obtain ⟨j, -, hj⟩ := Option.bind_eq_some_iff.mp hfound
      obtain ⟨row'', hrow'', heq⟩ := Option.map_eq_some_iff.mp hj
      obtain ⟨rfl, rfl⟩ := Prod.mk.inj heq
      split at h
      · next hnavigable =>
        simp only [Except.ok.injEq, Prod.mk.injEq] at h
        obtain ⟨rfl, rfl, -⟩ := h
        obtain rfl : row'' = row := Option.some.inj (hrow''.symm.trans hrow)
        exact ⟨hnavigable, rfl⟩
      · cases h

theorem Prompting.descend (h : Prompting n first restorePath sent c plain)
    (hfilter : c.filter = some filter) (hundo : Undoable c .descendFilter) :
    ∃ c', c.descendFilter = some c' ∧ Prompting n first restorePath sent c' plain := by
  have hopen : c.filter.isSome := by rw [hfilter]; rfl
  unfold descendFilter
  simp only [hfilter]
  cases hdescent : c.descent filter with
  | error warning =>
    refine ⟨_, rfl, h.looks (looks_filter c _) hopen ?_⟩
    rw [opening, opening, warnFilter, hfilter]
    rfl
  | ok target =>
    obtain ⟨index, path, closed⟩ := target
    obtain ⟨row, hrow, -⟩ := descent_row hdescent
    obtain ⟨hnavigable, rfl⟩ := descent_navigable hdescent hrow
    have hopened := h.opened
    rw [openPaths_some hfilter] at hopened
    -- Whether it is opened or not, it is put on top of the descents.
    have push {c₁ : BrowserContext μ} (h₁ : Opened n first (pathsOf (filter.descents ++
        [{ path := row.path, query := filter.displayed, opened := closed }])) sent c₁ plain) :
        Prompting n first restorePath sent ({ c₁ with filter := some { filter.adoptFilled with
          query := []
          descents := filter.adoptFilled.descents ++
            [{ path := row.path, query := filter.adoptFilled.query, opened := closed }] } } :
          BrowserContext μ).followFilter plain := by
      refine ⟨?_, fun filter' hfilter' => ?_, fun hnone => ?_⟩
      · rw [openPaths_some (followFilter_filter _)]
        exact h₁.looks (looks_filter c₁ _).follow
      · rw [followFilter_filter] at hfilter'
        rw [← h.begun filter hfilter, ← Option.some.inj hfilter']
        rfl
      · rw [followFilter_filter] at hnone
        cases hnone
    cases closed with
    | false =>
      refine ⟨_, rfl, push ?_⟩
      rw [pathsOf_append, if_neg Bool.false_ne_true, List.append_nil]
      exact hopened
    | true =>
      have hopens : c.opens .descendFilter = some index := by
        rw [opens, hfilter, Option.map_some, hdescent]
      obtain ⟨hlimit, hclosed⟩ := hundo.2 index hopens
      obtain ⟨hcollapsed, hdepth, hsole⟩ := hclosed row hrow
      obtain ⟨c₁, hstart, -⟩ := exists_startDirectoryListing hrow
      simp only [if_true, hstart, Option.map_some]
      refine ⟨_, rfl, push ?_⟩
      rw [pathsOf_append, if_pos rfl]
      exact hopened.expand hrow hcollapsed hnavigable hdepth hlimit hsole hstart

/-- **Each key of the prompt** keeps what was opened apart. -/
theorem Prompting.key (h : Prompting n first restorePath sent c plain) (hopen : c.filter.isSome)
    (hin : InPrompt c op) (hundo : Undoable c op) (heq : c.act op = some c') :
    Prompting n first restorePath sent c' plain := by
  obtain ⟨filter, hfilter⟩ := Option.isSome_iff_exists.mp hopen
  by_cases hshorten : op = .shortenFilter
  · subst hshorten
    obtain ⟨c₁, heq₁, h₁⟩ := h.shorten hfilter hundo.1
    exact Option.some.inj (heq₁.symm.trans heq) ▸ h₁
  by_cases hdescend : op = .descendFilter
  · subst hdescend
    obtain ⟨c₁, heq₁, h₁⟩ := h.descend hfilter hundo
    exact Option.some.inj (heq₁.symm.trans heq) ▸ h₁
  by_cases hclear : op = .clearFilterEntry
  · subst hclear
    obtain ⟨c₁, heq₁, h₁⟩ := h.clear hfilter hundo.1
    exact Option.some.inj (heq₁.symm.trans heq) ▸ h₁
  obtain ⟨hlooks, hsame⟩ := opening_of_act hin hshorten hdescend hclear heq
  exact h.looks hlooks hopen hsame

end Keys

/-! ### Whole runs -/

section Runs

variable [Lowercase] {w w' w₀ : World μ} {a : WorldAct μ}

/-- What happens while the prompt is open. -/
def WhilePrompting (w : World μ) : WorldAct μ → Prop
  | .key op => w.context.filter.isSome ∧ InPrompt w.context op
  | .send .. => True
  | .receive => w.context.filter.isSome

def CanUndo (w : World μ) : WorldAct μ → Prop
  | .key op => Undoable w.context op
  | .send .. | .receive => True

instance (w : World μ) : (a : WorldAct μ) → Decidable (WhilePrompting w a)
  | .key op => inferInstanceAs (Decidable (w.context.filter.isSome = true ∧ InPrompt w.context op))
  | .send .. => .isTrue trivial
  | .receive => inferInstanceAs (Decidable (w.context.filter.isSome = true))

instance (w : World μ) : (a : WorldAct μ) → Decidable (CanUndo w a)
  | .key op => inferInstanceAs (Decidable (Undoable w.context op))
  | .send .. | .receive => .isTrue trivial

/-- What was delivered since. -/
def deliveredSince (w₀ w : World μ) : List (BrowserContextEvent μ) :=
  (w.delivered.drop w₀.delivered.length).map Sent.event

/-- A world whose prompt was begun in `w₀`. -/
structure PromptRun (w₀ w : World μ) : Prop where
  world : SoundWorld w
  delivered : w₀.delivered <+: w.delivered
  plain : ∃ plain, exec BrowserContext.apply w₀.context (deliveredSince w₀ w) = some plain ∧
    Prompting w₀.context.nextRequestId w₀.context.listings.length
      (w₀.context.tree.selectedRow.map Row.path) w.delivered w.context plain ∧
    ∀ row ∈ w₀.context.tree.rows, ∃ r ∈ plain.tree.rows, row.Goes r

theorem inRange_of_undoable (hin : WhilePrompting w a) (hundo : CanUndo w a) : InRange w a := by
  cases a with
  | key op =>
    refine ⟨fun hrenews => ?_, fun i hi => ?_⟩
    · have hin := hin.2
      cases op <;> first | exact absurd hrenews id | exact absurd hin id
    · obtain ⟨hlimit, hrow⟩ := hundo.2 i hi
      exact ⟨hlimit, fun row hi => (hrow row hi).2.1⟩
  | send handle result => trivial
  | receive => trivial

omit [Lowercase] in
theorem opened_begin (h : Sound c) :
    Opened c.nextRequestId c.listings.length [] sent c c := by
  have hno : ∀ row ∈ c.tree.rows, row.isLater c.nextRequestId = false := by
    intro row hrow
    refine Bool.eq_false_iff.mpr fun hlater => ?_
    obtain ⟨id, hid, hlt⟩ := Tree.isLater_iff.mp hlater
    have := h.ledger.rows row hrow id hid
    omega
  refine ⟨h, h.wf, .self h.wf hno, Nat.le_refl _, rfl, rfl, fun row hrow hlater => ?_,
    fun row hrow hin => absurd hin List.not_mem_nil, fun k l hk hl => ?_⟩
  · rw [hno row hrow] at hlater
    cases hlater
  · have := (List.getElem?_eq_some_iff.mp hl).1
    omega

omit [Lowercase] in
theorem promptRun_begin (h : SoundWorld w₀) :
    PromptRun w₀ { w₀ with context := w₀.context.beginFilter } := by
  have hlooks : Looks w₀.context w₀.context.beginFilter := looks_filter _ _
  refine ⟨⟨h.sound.moves hlooks.moves, h.sent⟩, List.prefix_rfl, w₀.context, ?_, ?_,
    fun row hrow => ⟨row, hrow, rfl, rfl, rfl, .inl rfl⟩⟩
  · rw [deliveredSince, List.drop_length]
    rfl
  · refine ⟨(opened_begin h.sound).looks hlooks, fun filter hfilter => ?_, fun hnone => ?_⟩
    · obtain rfl := Option.some.inj hfilter
      rfl
    · cases hnone

theorem PromptRun.step (h : PromptRun w₀ w) (hok : WhilePrompting w a ∧ CanUndo w a)
    (heq : w.step a = some w') : PromptRun w₀ w' := by
  have hworld := h.world.step (inRange_of_undoable hok.1 hok.2) heq
  obtain ⟨plain, hexec, hprompting, hgoes⟩ := h.plain
  cases a with
  | key op =>
    obtain ⟨context, hact, rfl⟩ := Option.map_eq_some_iff.mp heq
    exact ⟨hworld, h.delivered, plain, hexec,
      hprompting.key hok.1.1 hok.1.2 hok.2 hact, hgoes⟩
  | send handle result =>
    rw [World.step] at heq
    split at heq
    · cases heq
    · split at heq
      · obtain rfl := Option.some.inj heq
        exact ⟨hworld, h.delivered, plain, hexec, hprompting, hgoes⟩
      · cases heq
  | receive =>
    rw [World.step] at heq
    split at heq
    · cases heq
    · next s channel hchannel =>
      obtain ⟨context, happly, rfl⟩ := Option.map_eq_some_iff.mp heq
      obtain ⟨l, hl, hevent⟩ := h.world.sent s (by simp [World.sent, hchannel])
      obtain ⟨plain', hplain, hopened⟩ := hprompting.opened.event hl hevent happly
      have hsame : context.filter = w.context.filter := filter_of_apply happly
      have hopen : w.context.filter.isSome := hok.1
      refine ⟨hworld, h.delivered.trans (List.prefix_append _ _), plain', ?_, ⟨?_, ?_, ?_⟩, ?_⟩
      · have hsince : deliveredSince w₀ { context, channel, delivered := w.delivered ++ [s] } =
            deliveredSince w₀ w ++ [s.event] := by
          rw [deliveredSince, deliveredSince, List.drop_append_of_le_length h.delivered.length_le,
            List.map_append]
          rfl
        rw [hsince, exec_append, hexec, Option.bind_some]
        simp only [exec, hplain, Option.bind_some]
      · rw [openPaths, hsame]
        exact hopened
      · intro filter hfilter
        exact hprompting.begun filter (hsame ▸ hfilter)
      · intro hnone
        rw [← hsame, hnone] at hopen
        cases hopen
      · intro row hrow
        obtain ⟨r, hr, hrow⟩ := hgoes row hrow
        by_cases hcur : Current plain s.event
        · obtain ⟨r', hr', hgo⟩ := goes_of_event hprompting.opened.plainWf
            (apply_of_current hprompting.opened.plainWf hcur hplain).1 hr
          exact ⟨r', hr', hrow.trans hgo⟩
        · obtain rfl := Option.some.inj
            ((apply_of_not_current hprompting.opened.plainWf hcur).symm.trans hplain)
          exact ⟨r, hr, hrow⟩

/-- The prompt is gone, and what it did to the tree: the rows are those that the same
events leave without a prompt; the row that was selected is; and what the prompt started
has stopped. -/
structure Restored (w₀ w : World μ) (c' : BrowserContext μ) : Prop where
  filter : c'.filter = none
  plain : ∃ plain, exec BrowserContext.apply w₀.context (deliveredSince w₀ w) = some plain ∧
    c'.tree.rows = plain.tree.rows ∧ c'.tree.rootPath = plain.tree.rootPath ∧
    c'.tree.status = plain.tree.status ∧
    ∀ id, c'.tree.placements.lookup id = plain.tree.placements.lookup id
  goes : ∀ row ∈ w₀.context.tree.rows, ∃ r ∈ c'.tree.rows, row.Goes r
  selected : ∀ row, w₀.context.tree.selectedRow = some row →
    ∃ r, c'.tree.selectedRow = some r ∧ r.path = row.path
  stopped : ∀ (k : Nat) (l : Listing), w₀.context.listings.length ≤ k →
    c'.listings[k]? = some l → Stopped c' w.delivered k

/-- **Abandoning the prompt restores what it found**, if none of what it opened was there
with a listing that had failed, or shares its path with another directory. -/
theorem abandon_restores {id : ContextId} {rootPath : PathString}
    (h₀ : Steps World.step InRange (World.new id rootPath) w₀)
    (h : Steps World.step (fun w a => WhilePrompting w a ∧ CanUndo w a)
      { w₀ with context := w₀.context.beginFilter } w)
    (hlast : ∀ path ∈ openPaths w.context, w.context.tree.Sole path) :
    ∃ c', w.context.abandonFilter = some c' ∧ Restored w₀ w c' := by
  have hrun : PromptRun w₀ w :=
    h.invariant (fun _ _ _ hw hok heq => hw.step hok heq) (promptRun_begin (soundWorld_run h₀))
  obtain ⟨plain, hexec, hprompting, hgoes⟩ := hrun.plain
  obtain ⟨c', heq, hnone, hend⟩ : ∃ c', w.context.abandonFilter = some c' ∧ c'.filter = none ∧
      Prompting w₀.context.nextRequestId w₀.context.listings.length
        (w₀.context.tree.selectedRow.map Row.path) w.delivered c' plain := by
    cases hfilter : w.context.filter with
    | none => exact ⟨w.context, by unfold abandonFilter; simp only [hfilter], hfilter, hprompting⟩
    | some filter => exact hprompting.abandon hfilter hlast
  have hopened := hend.opened
  rw [openPaths, hnone] at hopened
  obtain ⟨hrows, hplacements, hstopped⟩ := Opened.eq hopened
  refine ⟨c', heq, hnone, ⟨plain, hexec, hrows.symm, hopened.without.rootPath.symm,
    hopened.without.status.symm, fun id => (hplacements id).symm⟩, fun row hrow => ?_,
    fun row hrow => ?_, hstopped⟩
  · rw [← hrows]
    exact hgoes row hrow
  · obtain ⟨i, -, hi⟩ := Option.bind_eq_some_iff.mp hrow
    obtain ⟨r, hr, hgo⟩ := hgoes row (List.mem_of_getElem? hi)
    exact hend.reselected hnone row.path (by rw [hrow]; rfl) ⟨r, hrows ▸ hr, hgo.1⟩

end Runs

section Abandoned

attribute [local instance] asciiLowercase

/-- The directory `d`, not yet opened. -/
def beforePrompt : World Unit :=
  runs World.step InRange (.new 0 (letters [0x72]))
    [.send 0 (.entries [entryNamed (letters [0x64]) true]), .receive]

/-- The prompt opens `d`, whose listing goes on. -/
def whilePrompt : World Unit :=
  runs World.step (fun w a => WhilePrompting w a ∧ CanUndo w a)
    { beforePrompt with context := beforePrompt.context.beginFilter }
    [.key (.extendFilter 'd'), .key .descendFilter,
      .send 1 (.entries [entryNamed (letters [0x78]) false]), .receive]

theorem whilePrompt_restored : whilePrompt.context.tree.rows.length = 2 ∧
    ∃ c', whilePrompt.context.abandonFilter = some c' ∧
      Restored beforePrompt whilePrompt c' :=
  ⟨by decide +kernel, abandon_restores (steps_runs _ _) (steps_runs _ _) (by decide +kernel)⟩

/-- `d` is there with the row that was listed before its listing failed. -/
def failedBefore : World Unit :=
  runs World.step InRange (.new 0 (letters [0x72])) failedPartway

/-- The prompt opens it again. -/
def failedReopened : World Unit :=
  runs World.step (fun w a => WhilePrompting w a ∧ InRange w a)
    { failedBefore with context := failedBefore.context.beginFilter }
    [.key (.extendFilter 'd'), .key .descendFilter]

/-- It is left closed, and its row gone, though no event came. -/
theorem failedReopened_lost : ¬ ∀ w₀ w : World Unit,
    Steps World.step InRange (World.new 0 (letters [0x72])) w₀ →
    Steps World.step (fun w a => WhilePrompting w a ∧ InRange w a)
      { w₀ with context := w₀.context.beginFilter } w →
    ∃ c', w.context.abandonFilter = some c' ∧ Restored w₀ w c' := by
  intro hall
  obtain ⟨c', heq, hrestored⟩ :=
    hall failedBefore failedReopened (steps_runs _ _) (steps_runs _ _)
  obtain ⟨plain, hexec, hrows, -⟩ := hrestored.plain
  have hsince : deliveredSince failedBefore failedReopened = [] := by decide +kernel
  rw [hsince] at hexec
  obtain rfl := Option.some.inj hexec
  have hbefore : failedBefore.context.tree.rows.length = 2 := by decide +kernel
  have hafter : failedReopened.context.abandonFilter.map (·.tree.rows.length) = some 1 := by
    decide +kernel
  rw [heq, Option.map_some, hrows, hbefore] at hafter
  exact absurd hafter (by decide)

end Abandoned

end FilePeeker.Browser
