import FilePeeker.Browser.Ledger

/-!
# No row is stale

Listings are not waited for: they are aborted while what they sent is still on
its way.  `rows_up_to_date` says that nothing of that shows.  Every row was
delivered by a listing of the directory it is in, which was started after the
last start of the root and after that directory was last collapsed; and an event
whose generation or request is past changes nothing.

Rows are told apart by the stamps their entries carry (`Origin`): nothing in the
browser reads an entry's metadata.

The counters wrap, and a depth saturates.  Once the generation has come round, an
old listing of the root is taken for the current one
(`wrapped_generation_is_current`).
-/

namespace FilePeeker.Browser

open PreOrder

variable {μ : Type}

/-! ### Where a row goes -/

structure Row.Same (r r' : Row μ) : Prop where
  path : r'.path = r.path
  depth : r'.depth = r.depth
  entry : r'.entry = r.entry

namespace Tree

variable {t t' : Tree μ} {i j k d e stop : Nat} {new : List (Row μ)} {row : Row μ}

/-- Row `j` of the one tree is row `j'` of the other, but for how it is expanded. -/
def Carried (t t' : Tree μ) (j j' : Nat) : Prop :=
  ∃ r r', t.rows[j]? = some r ∧ t'.rows[j']? = some r' ∧ r.Same r'

/-- And so is the row it is beneath. -/
structure Stays (t t' : Tree μ) (j j' : Nat) : Prop where
  row : t.Carried t' j j'
  parent : ∀ i, IsParent t.depths i j → ∃ i', IsParent t'.depths i' j' ∧ t.Carried t' i i'

theorem row_of_parent (h : IsParent t.depths i j) : ∃ parent, t.rows[i]? = some parent := by
  obtain ⟨x, hx, -⟩ := h.depth
  rw [depths_getElem?] at hx
  obtain ⟨parent, hparent, -⟩ := Option.map_eq_some_iff.mp hx
  exact ⟨parent, hparent⟩

theorem stays_of_rows (h : t'.rows = t.rows) (hj : t.rows[j]? = some row) : t.Stays t' j j := by
  have hcarried {j : Nat} {row : Row μ} (hj : t.rows[j]? = some row) : t.Carried t' j j :=
    ⟨row, row, hj, by rw [h, hj], rfl, rfl, rfl⟩
  refine ⟨hcarried hj, fun i hi => ⟨i, ?_, ?_⟩⟩
  · rw [depths, h]
    exact hi
  · obtain ⟨parent, hparent⟩ := row_of_parent hi
    exact hcarried hparent

/-- Rows go in before a row that is no deeper. -/
theorem Inserted.stays (h : t.Inserted t' k new d) (hnew : ∀ r ∈ new, r.depth = d)
    (hk : k ≤ t.rows.length) (hnext : ∀ x, t.depths[k]? = some x → x ≤ d)
    (hj : t.rows[j]? = some row) : t.Stays t' j (movedDown k new.length j) := by
  have hcarried {j : Nat} {row : Row μ} (hj : t.rows[j]? = some row) :
      t.Carried t' j (movedDown k new.length j) :=
    ⟨row, row, hj, by rw [h.1, splice_movedDown hk, hj], rfl, rfl, rfl⟩
  refine ⟨hcarried hj, fun i hi => ⟨movedDown k new.length i, ?_, ?_⟩⟩
  · rw [depths_inserted h hnew]
    exact hi.insert (by rwa [length_depths]) hnext
  · obtain ⟨parent, hparent⟩ := row_of_parent hi
    exact hcarried hparent

theorem Marked.stays {expansion : Expansion} (h : t.Marked t' i expansion)
    (hj : t.rows[j]? = some row) : t.Stays t' j j := by
  have hcarried {j : Nat} {row : Row μ} (hj : t.rows[j]? = some row) : t.Carried t' j j := by
    refine ⟨row, _, hj, by rw [h.getElem?, hj, Option.map_some], ?_⟩
    split <;> exact ⟨rfl, rfl, rfl⟩
  refine ⟨hcarried hj, fun m hm => ⟨m, h.depths ▸ hm, ?_⟩⟩
  obtain ⟨parent, hparent⟩ := row_of_parent hm
  exact hcarried hparent

theorem Removed.stays (h : t.Removed t' i stop row) (hend : IsEnd t.depths i stop)
    (hi : t.rows[i]? = some row) (hstay : j < i + 1 ∨ stop ≤ j) {r : Row μ}
    (hj : t.rows[j]? = some r) : t.Stays t' j (movedUp (i + 1) stop j) := by
  have hcarried {j : Nat} {r : Row μ} (hj : t.rows[j]? = some r) (hstay : j < i + 1 ∨ stop ≤ j) :
      t.Carried t' j (movedUp (i + 1) stop j) := by
    refine ⟨r, _, hj, by rw [h.getElem? hend hi hstay, hj, Option.map_some], ?_⟩
    split <;> exact ⟨rfl, rfl, rfl⟩
  refine ⟨hcarried hj hstay, fun m hm => ⟨movedUp (i + 1) stop m, ?_, ?_⟩⟩
  · rw [h.depths hend hi]
    exact hm.remove hend hstay
  · obtain ⟨parent, hparent⟩ := row_of_parent hm
    exact hcarried hparent (hm.stays hend hstay)

/-- A row that stays when `i` is collapsed is not beneath it. -/
theorem not_parent_of_stays (hend : IsEnd t.depths i stop) (hstay : j < i + 1 ∨ stop ≤ j) :
    ¬ IsParent t.depths i j := by
  intro h
  have hlt := h.lt
  obtain ⟨x, hx, hjx⟩ := h.depth
  have hlen := (List.getElem?_eq_some_iff.mp hjx).1
  have hstop : t.depths[stop]? = some t.depths[stop] := List.getElem?_eq_getElem (by omega)
  have hout := hend.outside x _ hx hstop
  have := hend.lt
  rcases Nat.lt_or_ge stop j with hlt | hge
  · have := h.between stop x _ this hlt hx hstop
    omega
  · obtain rfl : j = stop := by omega
    rw [hjx, Option.some.injEq] at hstop
    omega

end Tree

/-! ### Which listing a row came from -/

/-- Who delivered an entry, and which of its entries it was. -/
structure Origin where
  handle : Nat
  place : Nat
deriving DecidableEq, Repr

def Row.origin (row : Row Origin) : Origin := row.entry.metadata

/-- Row `j` is in the directory at `path`, which was not collapsed since its
listing was started. -/
inductive ListedFor (c : BrowserContext Origin) (j : Nat) (row : Row Origin) (path : PathString) :
    Prop
  | root (hdepth : row.depth = 0) (hpath : path = c.tree.rootPath)
  | below (i : Nat) (parent : Row Origin) (hi : c.tree.rows[i]? = some parent)
      (hparent : IsParent c.tree.depths i j) (hpath : path = parent.path)
      (hafter : ∀ r, .collapsed r ∈ since c.history row.origin.handle → r.origin ≠ parent.origin)

/-- Row `j` was listed for the directory it is in, after the last start of the
root. -/
def UpToDate (c : BrowserContext Origin) (j : Nat) (row : Row Origin) : Prop :=
  ∃ listing : Listing, c.listings[row.origin.handle]? = some listing ∧
    .restarted ∉ since c.history row.origin.handle ∧
    row.path = childPath listing.path row.entry.name ∧ ListedFor c j row listing.path

/-- What is delivered beneath this row, if it is loading, is up to date. -/
def Filling (c : BrowserContext Origin) (row : Row Origin) : Prop :=
  ∀ id (n : Nat) (l : Listing) p, row.expansion = .loading id → c.listings[n]? = some l →
    l.target = .directory p id → l.path = row.path ∧ .restarted ∉ since c.history n ∧
      ∀ r, .collapsed r ∈ since c.history n → r.origin ≠ row.origin

/-- What holds of a browser at all times, of the entries it was given. -/
structure Traced (given : List (DirectoryEntry Origin)) (c : BrowserContext Origin) : Prop where
  wf : c.tree.Wf 1
  ledger : c.Ledger
  upToDate : ∀ j row, c.tree.rows[j]? = some row → UpToDate c j row
  filling : ∀ row ∈ c.tree.rows, Filling c row
  origins : ∀ (i j : Nat) (row row' : Row Origin), c.tree.rows[i]? = some row →
    c.tree.rows[j]? = some row' → row.origin = row'.origin → i = j
  given : ∀ row ∈ c.tree.rows, row.entry ∈ given

variable {c c' : BrowserContext Origin} {given : List (DirectoryEntry Origin)} {i j j' : Nat}
  {row row' : Row Origin} {more : List (Happened Origin)} {m : Move}

theorem Row.Same.origin (h : row.Same row') : row'.origin = row.origin := by
  rw [Row.origin, Row.origin, h.entry]

/-- A row that stays is up to date still. -/
theorem UpToDate.stays (h : UpToDate c j row) (hstays : c.tree.Stays c'.tree j j')
    (hj : c.tree.rows[j]? = some row) (hj' : c'.tree.rows[j']? = some row')
    (hroot : c'.tree.rootPath = c.tree.rootPath) (hmore : c'.history = c.history ++ more)
    (hrestarted : .restarted ∉ more)
    (hcollapsed : ∀ r, .collapsed r ∈ more → ∀ i parent, c.tree.rows[i]? = some parent →
      IsParent c.tree.depths i j → r.origin ≠ parent.origin) : UpToDate c' j' row' := by
  obtain ⟨l, hl, hres, hpath, hfor⟩ := h
  obtain ⟨r, r', hr, hr', hsame⟩ := hstays.row
  obtain rfl : r = row := Option.some.inj (hr.symm.trans hj)
  obtain rfl : r' = row' := Option.some.inj (hr'.symm.trans hj')
  have hsince := BrowserContext.since_of_append hmore hl
  refine ⟨l, ?_, ?_, ?_, ?_⟩
  · rw [hsame.origin, BrowserContext.listings_append hmore]
    exact List.getElem?_append_left (List.getElem?_eq_some_iff.mp hl).1 ▸ hl
  · rw [hsame.origin, hsince, List.mem_append, not_or]
    exact ⟨hres, hrestarted⟩
  · rw [hsame.path, hsame.entry, hpath]
  · cases hfor with
    | root hdepth hroot' => exact .root (hsame.depth.trans hdepth) (hroot'.trans hroot.symm)
    | below i parent hi hparent hpar hafter =>
      obtain ⟨i', hparent', q, q', hq, hq', hsameq⟩ := hstays.parent i hparent
      obtain rfl : q = parent := Option.some.inj (hq.symm.trans hi)
      refine .below i' q' hq' hparent' (hpar.trans hsameq.path.symm) ?_
      intro r hr
      rw [hsame.origin, hsince, List.mem_append] at hr
      rw [hsameq.origin]
      rcases hr with hr | hr
      · exact hafter r hr
      · exact hcollapsed r hr i q hi hparent

/-- What is delivered beneath a row that stays is up to date still. -/
theorem Filling.stays (h : Filling c row) (hsame : row.Same row')
    (hloading : ∀ id, row'.expansion = .loading id → row.expansion = .loading id)
    (hmore : c'.history = c.history ++ more)
    (hspawned : ∀ l ∈ spawned more, ∀ p id, l.target = .directory p id → row.expansion ≠ .loading id)
    (hrestarted : .restarted ∉ more)
    (hcollapsed : ∀ r id, .collapsed r ∈ more → row.expansion = .loading id →
      r.origin ≠ row.origin) : Filling c' row' := by
  intro id n l p hl hn ht
  have hl := hloading id hl
  rw [BrowserContext.listings_append hmore, List.getElem?_append] at hn
  split at hn
  · obtain ⟨hpath, hres, hafter⟩ := h id n l p hl hn ht
    have hsince := BrowserContext.since_of_append hmore hn
    rw [hsince]
    refine ⟨hpath.trans hsame.path.symm, ?_, ?_⟩
    · rw [List.mem_append, not_or]
      exact ⟨hres, hrestarted⟩
    · intro r hr
      rw [hsame.origin]
      rcases List.mem_append.mp hr with hr | hr
      · exact hafter r hr
      · exact hcollapsed r id hr hl
  · exact absurd hl (hspawned l (List.mem_of_getElem? hn) p id ht)

/-- **What a change of the rows has to say for itself.**  Every row is one that
was there, at the place `place` takes it to, or a new one with an origin of its
own. -/
theorem Traced.change {given' : List (DirectoryEntry Origin)} (h : Traced given c)
    (place : Nat → Nat) (hwf : c'.tree.Wf 1) (hledger : c'.Ledger)
    (hroot : c'.tree.rootPath = c.tree.rootPath) (hmore : c'.history = c.history ++ more)
    (hrestarted : .restarted ∉ more) (hgiven : ∀ entry ∈ given, entry ∈ given')
    (hrows : ∀ (j' : Nat) row', c'.tree.rows[j']? = some row' →
      (∃ j row, j' = place j ∧ c.tree.rows[j]? = some row ∧ c.tree.Stays c'.tree j j' ∧
        Filling c' row' ∧ ∀ r, .collapsed r ∈ more → ∀ i parent, c.tree.rows[i]? = some parent →
          IsParent c.tree.depths i j → r.origin ≠ parent.origin) ∨
      UpToDate c' j' row' ∧ Filling c' row' ∧ row'.entry ∈ given' ∧
        (∀ row ∈ c.tree.rows, row'.origin ≠ row.origin) ∧
        ∀ (k : Nat) other, c'.tree.rows[k]? = some other → row'.origin = other.origin → j' = k) :
    Traced given' c' := by
  have same {j j' : Nat} {row row' : Row Origin} (hs : c.tree.Stays c'.tree j j')
      (hj : c.tree.rows[j]? = some row) (hj' : c'.tree.rows[j']? = some row') : row.Same row' := by
    obtain ⟨r, r', hr, hr', hsame⟩ := hs.row
    obtain rfl : r = row := Option.some.inj (hr.symm.trans hj)
    obtain rfl : r' = row' := Option.some.inj (hr'.symm.trans hj')
    exact hsame
  refine ⟨hwf, hledger, ?_, ?_, ?_, ?_⟩
  · intro j' row' hj'
    rcases hrows j' row' hj' with ⟨j, row, -, hj, hstays, -, hcollapsed⟩ | ⟨hup, -⟩
    · exact (h.upToDate j row hj).stays hstays hj hj' hroot hmore hrestarted hcollapsed
    · exact hup
  · intro row' hrow'
    obtain ⟨j', hj'⟩ := List.mem_iff_getElem?.mp hrow'
    rcases hrows j' row' hj' with ⟨-, -, -, -, -, hfill, -⟩ | ⟨-, hfill, -⟩
    · exact hfill
    · exact hfill
  · intro i' j' row₁ row₂ hi' hj' heq
    rcases hrows i' row₁ hi' with ⟨i, r₁, rfl, hi, hs₁, -⟩ | ⟨-, -, -, -, hnew⟩
    · rcases hrows j' row₂ hj' with ⟨j, r₂, rfl, hj, hs₂, -⟩ | ⟨-, -, -, -, hnew⟩
      · rw [(same hs₁ hi hi').origin, (same hs₂ hj hj').origin] at heq
        rw [h.origins i j r₁ r₂ hi hj heq]
      · exact (hnew _ _ hi' heq.symm).symm
    · exact hnew _ _ hj' heq
  · intro row' hrow'
    obtain ⟨j', hj'⟩ := List.mem_iff_getElem?.mp hrow'
    rcases hrows j' row' hj' with ⟨j, row, -, hj, hstays, -⟩ | ⟨-, -, hin, -⟩
    · rw [(same hstays hj hj').entry]
      exact hgiven _ (h.given row (List.mem_of_getElem? hj))
    · exact hin

/-! ### Each move -/

open BrowserContext

theorem Traced.expand (h : Traced given c) (hok : Expandable c i)
    (heq : c.startDirectoryListing i = some c') : Traced given c' := by
  have hledger := h.ledger.expand hok heq
  obtain ⟨row, hrow, hbegin, hgen, hid, hnext, hhist⟩ := startDirectoryListing_spec heq
  obtain ⟨row₂, hrow₂, hidle, hdepth, hlimit⟩ := hok
  obtain rfl : row₂ = row := Option.some.inj (hrow₂.symm.trans hrow)
  have hfresh := h.ledger.fresh hlimit
  obtain ⟨t', hb, hmark, -, hroot, -⟩ := Tree.beginExpansion_spec c.freshId hrow
  obtain rfl : c'.tree = t' := by
    rw [hbegin, Option.some.injEq, Prod.mk.injEq] at hb
    exact hb.1
  have hwf := h.wf.beginExpansion hrow hidle hfresh hdepth
    (h.wf.outline.slot (Tree.depths_of_row hrow)) hbegin
  refine h.change id hwf hledger hroot hhist (by simp) (fun _ h => h) ?_
  intro j' row' hj'
  obtain ⟨old, hold, hcase⟩ := hmark.cases hj'
  refine .inl ⟨j', old, rfl, hold, hmark.stays hold, ?_, by simp⟩
  rcases hcase with ⟨rfl, rfl⟩ | ⟨hne, rfl⟩
  · -- The row that is expanded: its listing is the one that was just started.
    intro id n l p hl hn ht
    obtain rfl := Expansion.loading.inj hl
    have hnew : c'.listings[c.listings.length]? = some
        { path := row₂.path
          contextId := c.id
          generation := c.generation
          target := .directory row₂.path c.freshId } := by
      rw [listings_append hhist]
      exact List.getElem?_concat_length
    obtain rfl := hledger.once n _ l _ p _ c.freshId hn hnew ht rfl
    obtain rfl := Option.some.inj (hn.symm.trans hnew)
    have hlast : since c'.history c.listings.length = [] := by
      rw [hhist, List.append_cons]
      have := since_last (c.history ++ [.expanded row₂ (c.tree.beneath i)])
        { path := row₂.path
          contextId := c.id
          generation := c.generation
          target := .directory row₂.path c.freshId }
      rwa [spawned_append, show spawned [Happened.expanded row₂ (c.tree.beneath i)] = [] from rfl,
        List.append_nil] at this
    obtain rfl : row₂ = old := Option.some.inj (hrow.symm.trans hold)
    rw [hlast]
    exact ⟨rfl, List.not_mem_nil, fun r hr => absurd hr List.not_mem_nil⟩
  · refine (h.filling row' (List.mem_of_getElem? hold)).stays ⟨rfl, rfl, rfl⟩ (fun _ h => h) hhist
      ?_ (by simp) (by simp)
    intro l hl p id ht hloading
    obtain rfl : l = _ := List.mem_singleton.mp hl
    obtain ⟨-, rfl⟩ := ListingTarget.directory.inj ht
    exact hfresh row' (List.mem_of_getElem? hold) (by rw [hloading]; rfl)

theorem Traced.collapse (h : Traced given c) (heq : c.collapseDirectory i = some c') :
    Traced given c' := by
  have hledger := h.ledger.move h.wf (m := .collapse i) trivial heq
  obtain ⟨row, ids, hrow, hcollapse, hgen, hkept, handles, hhist⟩ := collapseDirectory_spec heq
  obtain ⟨t', stop, hc, hend, -, hrem⟩ := Tree.collapse_spec h.wf hrow
  obtain rfl : c'.tree = t' := by
    rw [hcollapse, Option.some.injEq, Prod.mk.injEq] at hc
    exact hc.1
  have hwf := h.wf.collapse (Nat.le_refl 1) hrow hend hrem
  have hcollapsed {r : Row Origin}
      (hr : .collapsed r ∈ Happened.collapsed row :: handles.map Happened.aborted) : r = row := by
    simpa using hr
  refine h.change (movedUp (i + 1) stop) hwf hledger hrem.rootPath hhist (by simp)
    (fun _ h => h) ?_
  intro j' row' hj'
  obtain ⟨j, rfl, hstay, old, hold, hcase⟩ := hrem.cases hend hrow hj'
  refine .inl ⟨j, old, rfl, hold, hrem.stays hend hrow hstay hold, ?_, ?_⟩
  · rcases hcase with ⟨rfl, rfl⟩ | ⟨hne, rfl⟩
    · intro id n l p hl
      simp at hl
    · refine (h.filling row' (List.mem_of_getElem? hold)).stays ⟨rfl, rfl, rfl⟩ (fun _ h => h) hhist
        ?_ (by simp) ?_
      · rw [show spawned (Happened.collapsed row :: handles.map Happened.aborted) = [] from
          spawned_aborted handles]
        simp
      · intro r id hr _ heq
        obtain rfl := hcollapsed hr
        exact hne (h.origins j i row' r hold hrow heq.symm)
  · intro r hr m parent hm hparent heq
    obtain rfl := hcollapsed hr
    obtain rfl := h.origins m i parent r hm hrow heq.symm
    exact Tree.not_parent_of_stays hend hstay hparent

/-- Nothing is left to be stale. -/
theorem Traced.restart (h : Traced given c) (hr : Restarted c c')
    (hlimit : c.generation + 1 < counterLimit) : Traced given c' := by
  have hnone {j : Nat} {row : Row Origin} : ¬ c'.tree.rows[j]? = some row := by
    rw [hr.rows]
    simp
  have hno {row : Row Origin} : row ∉ c'.tree.rows := by
    rw [hr.rows]
    exact List.not_mem_nil
  refine ⟨?_, h.ledger.restart hr hlimit, fun j row hj => absurd hj hnone,
    fun row hrow => absurd hrow hno, fun i j row row' hi => absurd hi hnone,
    fun row hrow => absurd hrow hno⟩
  refine ⟨?_, ?_, ?_, fun i row id hi => absurd hi hnone, fun i j row row' id hi => absurd hi hnone⟩
  · rw [Tree.depths, hr.rows]
    exact outline_nil
  · rw [hr.placements]
    simp
  · rw [hr.placements]
    simp

/-- The rows are the same, and nothing was collapsed. -/
theorem Traced.quiet (h : Traced given c) (handles : List Nat) (hrows : c'.tree.rows = c.tree.rows)
    (hplacements : c'.tree.placements = c.tree.placements)
    (hroot : c'.tree.rootPath = c.tree.rootPath) (hledger : c'.Ledger)
    (hmore : c'.history = c.history ++ handles.map .aborted) : Traced given c' := by
  have hwf : c'.tree.Wf 1 := by
    obtain ⟨h₁, h₂, h₃, h₄, h₅⟩ := h.wf
    refine ⟨?_, ?_, ?_, ?_, ?_⟩
    · rwa [Tree.depths, hrows]
    · rwa [hplacements, Tree.depths, hrows]
    · rwa [hplacements, hrows]
    · rwa [hplacements, hrows]
    · rwa [hrows]
  refine h.change id hwf hledger hroot hmore (by simp) (fun _ h => h) ?_
  intro j row hj
  have hold : c.tree.rows[j]? = some row := by rwa [hrows] at hj
  refine .inl ⟨j, row, rfl, hold, Tree.stays_of_rows hrows hold, ?_, by simp⟩
  refine (h.filling row (List.mem_of_getElem? hold)).stays ⟨rfl, rfl, rfl⟩ (fun _ h => h) hmore
    ?_ (by simp) (by simp)
  rw [spawned_aborted]
  simp

/-- **Every move keeps the rows up to date.** -/
theorem Traced.move (h : Traced given c) (hok : MoveOk Expandable c m)
    (heq : c.move m = some c') : Traced given c' := by
  have hledger := h.ledger.move h.wf hok heq
  cases m with
  | look selected filter offset height =>
    obtain rfl := Option.some.inj heq
    exact h.quiet [] rfl rfl rfl hledger (List.append_nil _).symm
  | expand i => exact h.expand hok heq
  | collapse i => exact h.collapse heq
  | restart =>
    obtain rfl := Option.some.inj heq
    exact h.restart (restarted_startRootListing c) hok
  | reroot rootPath =>
    obtain rfl := Option.some.inj heq
    exact h.restart (restarted_changeRootPath c rootPath) hok
  | cancel =>
    obtain rfl := Option.some.inj heq
    obtain ⟨htree, -, -, handles, hhist⟩ := cancel_spec c
    exact h.quiet handles (by rw [htree]) (by rw [htree]) (by rw [htree]) hledger hhist

/-! ### Each event -/

variable {n : Nat} {l : Listing} {entries : List (DirectoryEntry Origin)}
  {result : ListingResult Origin}

/-- A group of entries goes in. -/
theorem Traced.inserted (h : Traced given c) {k d : Nat} {path : PathString}
    (hins : c.tree.Inserted c'.tree k
      (entries.map fun entry => Row.new (childPath path entry.name) d entry) d)
    (hk : k ≤ c.tree.rows.length) (hnext : ∀ x, c.tree.depths[k]? = some x → x ≤ d)
    (hwf : c'.tree.Wf 1) (hledger : c'.Ledger) (hroot : c'.tree.rootPath = c.tree.rootPath)
    (hhist : c'.history = c.history) (hl : c.listings[n]? = some l) (hpath : l.path = path)
    (hres : .restarted ∉ since c.history n)
    (hstamp : ∀ entry ∈ entries, entry.metadata.handle = n)
    (hnodup : ((given ++ entries).map DirectoryEntry.metadata).Nodup)
    (hfor : ∀ j row, k ≤ j → j < k + entries.length → row.origin.handle = n → row.depth = d →
      ListedFor c' j row l.path) : Traced (given ++ entries) c' := by
  generalize hnew : (entries.map fun entry => Row.new (childPath path entry.name) d entry) = new at hins
  have hlen : new.length = entries.length := by rw [← hnew, List.length_map]
  have hdepth : ∀ r ∈ new, r.depth = d := by
    intro r hr
    rw [← hnew] at hr
    obtain ⟨entry, -, rfl⟩ := List.mem_map.mp hr
    rfl
  have hmore : c'.history = c.history ++ [] := by rw [hhist, List.append_nil]
  have hlistings : c'.listings = c.listings := by rw [listings_eq, hhist, listings_eq]
  rw [List.map_append] at hnodup
  -- The row at a new place has the entry of that place in the group.
  have hat {j : Nat} {row : Row Origin} (hj : c'.tree.rows[j]? = some row) (hkj : k ≤ j)
      (hjk : j < k + new.length) : ∃ entry, entries[j - k]? = some entry ∧
        row = Row.new (childPath path entry.name) d entry := by
    rw [hins.1, splice_inside hk hkj hjk, ← hnew, List.getElem?_map] at hj
    obtain ⟨entry, hentry, rfl⟩ := Option.map_eq_some_iff.mp hj
    exact ⟨entry, hentry, rfl⟩
  have hold {j : Nat} {row : Row Origin} (hj : c'.tree.rows[movedDown k new.length j]? = some row) :
      c.tree.rows[j]? = some row := by rwa [hins.1, splice_movedDown hk] at hj
  have hother {row : Row Origin} (hrow : row ∈ c.tree.rows) {entry : DirectoryEntry Origin}
      (hentry : entry ∈ entries) : entry.metadata ≠ row.origin := by
    intro heq
    exact (List.nodup_append.mp hnodup).2.2 row.origin
      (List.mem_map_of_mem (h.given row hrow)) entry.metadata (List.mem_map_of_mem hentry) heq.symm
  refine h.change (movedDown k new.length) hwf hledger hroot hmore (by simp)
    (fun _ h => List.mem_append_left _ h) ?_
  intro j' row' hj'
  rcases splice_cases k new j' with ⟨hkj, hjk⟩ | ⟨j, rfl⟩
  · obtain ⟨entry, hentry, rfl⟩ := hat hj' hkj hjk
    have hin := List.mem_of_getElem? hentry
    have hhandle : (Row.new (childPath path entry.name) d entry).origin.handle = n :=
      hstamp entry hin
    refine .inr ⟨⟨l, ?_, ?_, ?_, ?_⟩, ?_, List.mem_append_right _ hin,
      fun row hrow => hother hrow hin, ?_⟩
    · rw [hhandle, hlistings, hl]
    · rwa [hhandle, hhist]
    · rw [hpath]
      rfl
    · exact hfor j' _ hkj (by omega) hhandle rfl
    · intro id n l p hloading
      simp [Row.new] at hloading
    · intro m other hm heq
      rcases splice_cases k new m with ⟨hkm, hmk⟩ | ⟨m, rfl⟩
      · obtain ⟨entry', hentry', rfl⟩ := hat hm hkm hmk
        have hone := (List.getElem?_inj (i := j' - k) (j := m - k) (by
          rw [List.length_map]
          omega) (List.nodup_append.mp hnodup).2.1).mp (by
            rw [List.getElem?_map, List.getElem?_map, hentry, hentry']
            exact congrArg some heq)
        omega
      · exact absurd heq (hother (List.mem_of_getElem? (hold hm)) hin)
  · have hj := hold hj'
    refine .inl ⟨j, row', rfl, hj, hins.stays hdepth hk hnext hj, ?_, by simp⟩
    exact (h.filling row' (List.mem_of_getElem? hj)).stays ⟨rfl, rfl, rfl⟩ (fun _ h => h) hmore
      (by simp [spawned]) (by simp) (by simp)

/-- A listing ends. -/
theorem Traced.finished (h : Traced given c) {id : RequestId} {ended : Except String Unit}
    (hmark : c.tree.Marked c'.tree i (Tree.finished id ended)) (hwf : c'.tree.Wf 1)
    (hledger : c'.Ledger) (hroot : c'.tree.rootPath = c.tree.rootPath)
    (hhist : c'.history = c.history) : Traced given c' := by
  have hmore : c'.history = c.history ++ [] := by rw [hhist, List.append_nil]
  refine h.change (fun j => j) hwf hledger hroot hmore (by simp) (fun _ h => h) ?_
  intro j row hj
  obtain ⟨old, hold, hcase⟩ := hmark.cases hj
  refine .inl ⟨j, old, rfl, hold, hmark.stays hold, ?_, by simp⟩
  rcases hcase with ⟨-, rfl⟩ | ⟨-, rfl⟩
  · intro id' n l p hloading
    exact absurd hloading (Tree.finished_ne_loading _ _ _)
  · exact (h.filling _ (List.mem_of_getElem? hold)).stays ⟨rfl, rfl, rfl⟩ (fun _ h => h) hmore
      (by simp [spawned]) (by simp) (by simp)

/-- **An event of a listing keeps the rows up to date.** -/
theorem Traced.event (h : Traced given c) (hl : c.listings[n]? = some l)
    (hcur : Current c (l.event result)) (heq : c.apply (l.event result) = some c')
    (hstamp : ∀ entry ∈ result.group, entry.metadata.handle = n)
    (hnodup : ((given ++ result.group).map DirectoryEntry.metadata).Nodup) :
    Traced (given ++ result.group) c' := by
  have hledger := h.ledger.event h.wf hcur heq
  obtain ⟨htree, hhist, -, -⟩ := apply_of_current h.wf hcur heq
  have hgen : l.generation = c.generation := hcur.generation
  -- What an event that brings no entries does to the tree.
  have ends {id : RequestId} {ended : Except String Unit}
      (h' : c.tree.finishChild id ended = some c'.tree) : Traced (given ++ []) c' := by
    rw [List.append_nil]
    cases hp : c.tree.placements.lookup id with
    | none =>
      have hsame : c'.tree = c.tree := Option.some.inj (h'.symm.trans (Tree.finishChild_none hp ended))
      exact h.quiet [] (by rw [hsame]) (by rw [hsame]) (by rw [hsame]) hledger
        (by rw [hhist]; exact (List.append_nil _).symm)
    | some p =>
      obtain ⟨t', hf, hmark, -, hroot, -⟩ := Tree.finishChild_spec h.wf hp ended
      obtain rfl : c'.tree = t' := Option.some.inj (h'.symm.trans hf)
      exact h.finished hmark (h.wf.finishChild hp hf) hledger hroot hhist
  have endsRoot {ended : Except String Unit} (h' : c'.tree = c.tree.finishRoot ended) :
      Traced (given ++ []) c' := by
    rw [List.append_nil]
    exact h.quiet [] (by rw [h']; rfl) (by rw [h']; rfl) (by rw [h']; rfl) hledger
      (by rw [hhist]; exact (List.append_nil _).symm)
  cases htarget : l.target with
  | root =>
    have hpath := h.ledger.root n l hl htarget hgen
    cases result with
    | entries entries =>
      rw [BrowserContextEvent.op, Listing.event, htarget] at htree
      have htree : c'.tree = c.tree.extendRoot entries := (Option.some.inj htree).symm
      obtain ⟨hins, hroot, -⟩ := Tree.extendRoot_spec c.tree entries
      rw [← htree] at hins hroot
      have hlen : c.tree.depths[c.tree.rows.length]? = none := by
        rw [← Tree.length_depths]
        exact List.getElem?_eq_none (Nat.le_refl _)
      refine h.inserted hins (Nat.le_refl _) (by rw [hlen]; simp) ?_ hledger hroot hhist hl hpath
        (h.ledger.current n l hl hgen) hstamp hnodup ?_
      · rw [htree]
        exact h.wf.extendRoot entries
      · intro j row _ _ _ hdepth
        exact .root hdepth (hpath.trans hroot.symm)
    | finished =>
      rw [BrowserContextEvent.op, Listing.event, htarget] at htree
      exact endsRoot (Option.some.inj htree).symm
    | failed error =>
      rw [BrowserContextEvent.op, Listing.event, htarget] at htree
      exact endsRoot (Option.some.inj htree).symm
  | directory path id =>
    cases result with
    | entries entries =>
      rw [BrowserContextEvent.op, Listing.event, htarget] at htree
      have htree : c.tree.extendChild id entries = some c'.tree := htree
      obtain ⟨p, hp⟩ := hcur.loading path id htarget
      obtain ⟨parent, t', hparent, hext, hins, hroot, -⟩ := Tree.extendChild_spec h.wf hp entries
      obtain rfl : c'.tree = t' := Option.some.inj (htree.symm.trans hext)
      obtain ⟨row, hrow, hloading⟩ := h.wf.loading id p hp
      obtain rfl : row = parent := Option.some.inj (hrow.symm.trans hparent)
      have hslot := h.wf.slot id p hp
      have hle : p.insertion ≤ c.tree.rows.length := by rw [← Tree.length_depths]; exact hslot.le
      obtain ⟨hpath, hres, hafter⟩ :=
        h.filling row (List.mem_of_getElem? hrow) id n l path hloading hl htarget
      refine h.inserted hins hle (fun x hx => Nat.le_of_lt_succ (hslot.next x hx))
        (h.wf.extendChild (Nat.le_refl 1) hp htree) hledger hroot hhist hl hpath hres hstamp
        hnodup ?_
      intro j r hj hjn hhandle _
      refine .below p.parent row ?_ ?_ hpath ?_
      · rw [hins.1, splice_before hle hslot.lt, hrow]
      · rw [Tree.depths_inserted hins fun r hr => by
          obtain ⟨entry, -, rfl⟩ := List.mem_map.mp hr
          rfl]
        rw [Tree.childRows, List.length_map]
        exact hslot.isParent hj hjn
      · rw [hhandle, hhist]
        exact hafter
    | finished =>
      rw [BrowserContextEvent.op, Listing.event, htarget] at htree
      have htree : c.tree.finishChild id (.ok ()) = some c'.tree := htree
      exact ends htree
    | failed error =>
      rw [BrowserContextEvent.op, Listing.event, htarget] at htree
      have htree : c.tree.finishChild id (.error error) = some c'.tree := htree
      exact ends htree

theorem Traced.mono {given' : List (DirectoryEntry Origin)} (h : Traced given c)
    (hle : ∀ entry ∈ given, entry ∈ given') : Traced given' c :=
  ⟨h.wf, h.ledger, h.upToDate, h.filling, h.origins, fun row hrow => hle _ (h.given row hrow)⟩

theorem traced_new (id : ContextId) (rootPath : PathString) :
    Traced [] (BrowserContext.new id rootPath) := by
  have hnone {j : Nat} {row : Row Origin} :
      ¬ (BrowserContext.new id rootPath : BrowserContext Origin).tree.rows[j]? = some row := by
    simp [BrowserContext.new, startRootListing, record, abortTreeListings, Tree.restart]
  refine ⟨?_, ledger_new id rootPath, fun j row hj => absurd hj hnone, ?_,
    fun i j row row' hi => absurd hi hnone, ?_⟩
  · exact Tree.wf_restart _
  all_goals
    intro row hrow
    obtain ⟨j, hj⟩ := List.mem_iff_getElem?.mp hrow
    exact absurd hj hnone

/-! ### Whole runs -/

/-- Every listing stamps its entries: its own number, and a place each. -/
def Stamps (w : World Origin) : WorldAct Origin → Prop
  | .send handle result =>
    (∀ entry ∈ result.group, entry.metadata.handle = handle) ∧
      ((entriesOf w.sent ++ result.group).map DirectoryEntry.metadata).Nodup
  | .key _ | .receive => True

instance (w : World Origin) : (a : WorldAct Origin) → Decidable (Stamps w a)
  | .send .. => inferInstanceAs (Decidable (_ ∧ _))
  | .key _ | .receive => .isTrue trivial

/-- What holds of a browser and its listings at all times. -/
structure WorldTraced (w : World Origin) : Prop where
  traced : Traced (entriesOf w.delivered) w.context
  sent : ∀ s ∈ w.sent, ∃ l : Listing, w.context.listings[s.handle]? = some l ∧
    s.event = l.event s.event.result
  stamped : ∀ s ∈ w.sent, ∀ entry ∈ s.event.result.group, entry.metadata.handle = s.handle
  nodup : ((entriesOf w.sent).map DirectoryEntry.metadata).Nodup

section Runs

variable [Lowercase]

theorem WorldTraced.step {w w' : World Origin} {a : WorldAct Origin} (h : WorldTraced w)
    (hok : Stamps w a ∧ InRange w a) (heq : w.step a = some w') : WorldTraced w' := by
  cases a with
  | key op =>
    obtain ⟨context, hact, rfl⟩ := Option.map_eq_some_iff.mp heq
    have hmoves := moves_of_act Expandable hok.2.1
      (fun i hi => expandable_of_opens hok.2 hi) hact
    obtain ⟨more, hmore⟩ := history_of_moves hmoves
    refine ⟨hmoves.invariant (fun c m c' hc hok heq => hc.move hok heq) h.traced, ?_, h.stamped,
      h.nodup⟩
    intro s hs
    obtain ⟨l, hl, hevent⟩ := h.sent s hs
    refine ⟨l, ?_, hevent⟩
    show context.listings[s.handle]? = some l
    rw [listings_append hmore, List.getElem?_append_left (List.getElem?_eq_some_iff.mp hl).1, hl]
  | send handle result =>
    rw [World.step] at heq
    split at heq
    · simp at heq
    · next l hl =>
      split at heq
      · obtain rfl := Option.some.inj heq
        obtain ⟨hstamp, hnodup⟩ := hok.1
        have hsent {s : Sent Origin}
            (hs : s ∈ w.delivered ++ (w.channel ++ [{ handle, event := l.event result }])) :
            s ∈ w.sent ∨ s = { handle, event := l.event result } := by
          rw [← List.append_assoc, List.mem_append, List.mem_singleton] at hs
          exact hs
        refine ⟨h.traced, ?_, ?_, ?_⟩
        · intro s hs
          rcases hsent hs with hs | rfl
          · exact h.sent s hs
          · exact ⟨l, hl, rfl⟩
        · intro s hs
          rcases hsent hs with hs | rfl
          · exact h.stamped s hs
          · exact hstamp
        · rw [World.sent, ← List.append_assoc, entriesOf_append]
          have hlast : entriesOf [({ handle, event := l.event result } : Sent Origin)] =
              result.group := List.append_nil _
          rw [hlast]
          exact hnodup
      · simp at heq
  | receive =>
    rw [World.step] at heq
    split at heq
    · simp at heq
    · next s channel hchannel =>
      obtain ⟨context, happly, rfl⟩ := Option.map_eq_some_iff.mp heq
      have hsame : w.delivered ++ [s] ++ channel = w.sent := by
        rw [World.sent, hchannel, List.append_assoc, List.singleton_append]
      have hin : s ∈ w.sent := by
        rw [World.sent, hchannel]
        simp
      have hentries : entriesOf (w.delivered ++ [s]) =
          entriesOf w.delivered ++ s.event.result.group := by
        rw [entriesOf_append]
        exact congrArg _ (List.append_nil _)
      have hnodup : ((entriesOf w.delivered ++ s.event.result.group).map
          DirectoryEntry.metadata).Nodup := by
        have := h.nodup
        rw [← hsame, entriesOf_append, hentries, List.map_append] at this
        exact (List.nodup_append.mp this).1
      obtain ⟨l, hl, hevent⟩ := h.sent s hin
      have hkept : context.history = w.context.history := by
        by_cases hcur : Current w.context s.event
        · exact (apply_of_current h.traced.wf hcur happly).2.1
        · rw [Option.some.inj (happly.symm.trans (apply_of_not_current h.traced.wf hcur))]
      refine ⟨?_, ?_, ?_, ?_⟩
      · show Traced (entriesOf (w.delivered ++ [s])) context
        rw [hentries]
        by_cases hcur : Current w.context s.event
        · rw [hevent] at hcur happly
          exact h.traced.event hl hcur happly (h.stamped s hin) hnodup
        · obtain rfl := Option.some.inj
            (happly.symm.trans (apply_of_not_current h.traced.wf hcur))
          exact h.traced.mono fun _ h => List.mem_append_left _ h
      · intro s' hs'
        rw [World.sent, hsame] at hs'
        obtain ⟨l, hl, hevent⟩ := h.sent s' hs'
        refine ⟨l, ?_, hevent⟩
        rw [listings_eq, hkept, ← listings_eq]
        exact hl
      · intro s' hs'
        rw [World.sent, hsame] at hs'
        exact h.stamped s' hs'
      · rw [World.sent, hsame]
        exact h.nodup

theorem worldTraced_run {id : ContextId} {rootPath : PathString} {w : World Origin}
    (h : Steps World.step (fun w a => Stamps w a ∧ InRange w a) (World.new id rootPath) w) :
    WorldTraced w := by
  refine h.invariant (fun w a w' hw hok heq => hw.step hok heq) ⟨traced_new id rootPath, ?_, ?_, ?_⟩
  · intro s hs
    exact absurd hs List.not_mem_nil
  · intro s hs
    exact absurd hs List.not_mem_nil
  · exact List.nodup_nil

/-- **No row is stale.**  In every run in which no counter comes round, every row
was delivered by a listing of the directory it is in, started after the last
start of the root and after that directory was last collapsed.  An event whose
generation or request is past changes nothing at all; and what is not past is
from a listing that has seen neither a new start nor a collapse of its row. -/
theorem rows_up_to_date {id : ContextId} {rootPath : PathString} {w : World Origin}
    (h : Steps World.step (fun w a => Stamps w a ∧ InRange w a) (World.new id rootPath) w) :
    (∀ j row, w.context.tree.rows[j]? = some row →
      (∃ s ∈ w.delivered, s.handle = row.origin.handle ∧ row.entry ∈ s.event.result.group) ∧
        UpToDate w.context j row) ∧
    (∀ event : BrowserContextEvent Origin,
      (event.generation ≠ w.context.generation ∨ ∃ path id, event.target = .directory path id ∧
        ∀ row ∈ w.context.tree.rows, row.expansion ≠ .loading id) →
      w.context.apply event = some w.context) ∧
    (∀ s ∈ w.channel, s.event.generation = w.context.generation →
      .restarted ∉ since w.context.history s.handle) ∧
    (∀ s ∈ w.channel, ∀ path id, s.event.target = .directory path id →
      ∀ row ∈ w.context.tree.rows, row.expansion = .loading id →
        path = row.path ∧ .restarted ∉ since w.context.history s.handle ∧
          ∀ r, .collapsed r ∈ since w.context.history s.handle → r.origin ≠ row.origin) := by
  have hw := worldTraced_run h
  have hsent {s : Sent Origin} (hs : s ∈ w.channel) : s ∈ w.sent := List.mem_append_right _ hs
  refine ⟨?_, ?_, ?_, ?_⟩
  · intro j row hj
    refine ⟨?_, hw.traced.upToDate j row hj⟩
    obtain ⟨s, hs, hentry⟩ := List.mem_flatMap.mp (hw.traced.given row (List.mem_of_getElem? hj))
    exact ⟨s, hs, (hw.stamped s (List.mem_append_left _ hs) _ hentry).symm, hentry⟩
  · intro event hstale
    refine apply_of_not_current hw.traced.wf fun hcur => ?_
    rcases hstale with hgen | ⟨path, id, htarget, hnone⟩
    · exact hgen hcur.generation
    · obtain ⟨p, hp⟩ := hcur.loading path id htarget
      obtain ⟨row, hrow, hloading⟩ := hw.traced.wf.loading id p hp
      exact hnone row (List.mem_of_getElem? hrow) hloading
  · intro s hs hgen
    obtain ⟨l, hl, hevent⟩ := hw.sent s (hsent hs)
    rw [hevent] at hgen
    exact hw.traced.ledger.current s.handle l hl hgen
  · intro s hs path id htarget row hrow hloading
    obtain ⟨l, hl, hevent⟩ := hw.sent s (hsent hs)
    rw [hevent] at htarget
    obtain ⟨hpath, hres, hafter⟩ := hw.traced.filling row hrow id s.handle l path hloading hl htarget
    rw [(hw.traced.ledger.directory s.handle l path id hl htarget).1] at hpath
    exact ⟨hpath, hres, hafter⟩

end Runs

attribute [local instance] asciiLowercase

/-- An entry named by one letter. -/
def stampedEntry (letter : PathString) (navigable : Bool) (handle place : Nat) :
    DirectoryEntry Origin :=
  { name := letter
    kind := if navigable then .directory else .file
    navigable
    metadata := { handle, place }
    defect := none }

/-- The root has the directory `a`, which is expanded while the root is still
listed, collapsed, and expanded again; what its first listing sent comes last. -/
def expandedTwice : World Origin :=
  runs World.step (fun w a => Stamps w a ∧ InRange w a) (.new 0 (letters [0x72]))
    [.send 0 (.entries [stampedEntry (letters [0x61]) true 0 0]), .receive, .key .activateSelected,
      .key .activateSelected, .key .activateSelected,
      .send 2 (.entries [stampedEntry (letters [0x62]) false 2 0]), .receive,
      .send 1 (.entries [stampedEntry (letters [0x63]) false 1 0]), .receive]

theorem reaches_expandedTwice :
    Steps World.step (fun w a => Stamps w a ∧ InRange w a) (.new 0 (letters [0x72])) expandedTwice :=
  steps_runs _ _

theorem expandedTwice_up_to_date :
    (∀ j row, expandedTwice.context.tree.rows[j]? = some row →
      UpToDate expandedTwice.context j row) ∧
    expandedTwice.context.tree.rows.map (fun row => (row.entry.name, row.depth)) =
      [(letters [0x61], 0), (letters [0x62], 1)] :=
  ⟨fun j row hj => ((rows_up_to_date reaches_expandedTwice).1 j row hj).2, by decide +kernel⟩

/-! ### A counter that comes round -/

/-- The root is refreshed `n` times while what its first listing sent is on its
way. -/
theorem exists_refreshed (n : Nat) {w : World Origin} {l : Listing}
    (hgen : w.context.generation < counterLimit) (hl : w.context.listings[0]? = some l) :
    ∃ w', Steps World.step Stamps w w' ∧ w'.channel = w.channel ∧
      w'.context.id = w.context.id ∧
      w'.context.generation = (w.context.generation + n) % counterLimit ∧
      w'.context.listings[0]? = some l ∧ (0 < n → .restarted ∈ since w'.context.history 0) := by
  induction n with
  | zero => exact ⟨w, .refl w, rfl, rfl, (Nat.mod_eq_of_lt hgen).symm, hl, fun h => absurd h (by omega)⟩
  | succ n ih =>
    obtain ⟨w', hsteps, hchannel, hid, hgen', hl', -⟩ := ih
    have hr := restarted_startRootListing w'.context
    obtain ⟨handles, hhist⟩ := hr.history
    rw [List.append_assoc] at hhist
    refine ⟨{ w' with context := w'.context.startRootListing },
      .tail hsteps (a := .key .refresh) trivial rfl, hchannel, hr.kept.id.trans hid, ?_, ?_, ?_⟩
    · rw [hr.generation, hgen', wrappingSucc, Nat.mod_add_mod, Nat.add_assoc]
    · rw [listings_append hhist, List.getElem?_append_left (List.getElem?_eq_some_iff.mp hl').1, hl']
    · intro _
      rw [since_of_append hhist hl']
      simp

/-- `a`, the first entry of the first listing. -/
def firstEntry : DirectoryEntry Origin := stampedEntry (letters [0x61]) false 0 0

/-- After `2 ^ 64` refreshes the generation is the first one again, and what the
first listing sent is taken for the current root's. -/
theorem wrapped_generation_is_current :
    ¬ ∀ w, Steps World.step Stamps (World.new 0 (letters [0x72])) w →
      ∀ j row, w.context.tree.rows[j]? = some row → UpToDate w.context j row := by
  intro hall
  let w₀ : World Origin := World.new 0 (letters [0x72])
  let l : Listing := { path := letters [0x72], contextId := 0, generation := 1, target := .root }
  let event : BrowserContextEvent Origin := l.event (.entries [firstEntry])
  let w₁ : World Origin := { w₀ with channel := [{ handle := 0, event }] }
  have hsent : Steps World.step Stamps w₀ w₁ := by
    refine .single (a := .send 0 (.entries [firstEntry])) ⟨?_, ?_⟩ rfl
    · intro entry hentry
      obtain rfl := List.mem_singleton.mp hentry
      rfl
    · exact List.nodup_singleton _
  obtain ⟨w₂, hrefreshed, hchannel, hid, hgen, hl, hsince⟩ :=
    exists_refreshed counterLimit (w := w₁) (l := l) (by decide) rfl
  have hgen : w₂.context.generation = 1 := by
    rw [hgen, Nat.add_mod_right]
    rfl
  let context := { w₂.context with tree := w₂.context.tree.extendRoot [firstEntry] }
  have happly : w₂.context.apply event = some context := by
    have hmine : event.contextId = w₂.context.id := hid.symm
    have hcurrent : event.generation = w₂.context.generation := hgen.symm
    rw [apply, if_neg (not_not_intro hmine), if_pos hcurrent]
    rfl
  let w₃ : World Origin :=
    { context, channel := [], delivered := w₂.delivered ++ [{ handle := 0, event }] }
  have hreceived : w₂.step .receive = some w₃ := by
    rw [World.step, hchannel]
    show (w₂.context.apply event).map _ = some w₃
    rw [happly]
    rfl
  have hreach : Steps World.step Stamps w₀ w₃ :=
    (hsent.trans hrefreshed).tail (a := .receive) trivial hreceived
  let row : Row Origin :=
    Row.new (childPath w₂.context.tree.rootPath firstEntry.name) 0 firstEntry
  have hrow : w₃.context.tree.rows[w₂.context.tree.rows.length]? = some row := by
    show (w₂.context.tree.extendRoot [firstEntry]).rows[w₂.context.tree.rows.length]? = some row
    obtain ⟨⟨hrows, -⟩, -⟩ := Tree.extendRoot_spec w₂.context.tree [firstEntry]
    rw [hrows, splice, List.take_length, List.drop_length, List.append_nil]
    exact List.getElem?_concat_length
  obtain ⟨l', hl', hres, -⟩ := hall w₃ hreach _ row hrow
  exact hres (hsince (by decide))

end FilePeeker.Browser
