import FilePeeker.Browser.Ledger
import FilePeeker.Browser.Names

/-!
# Listing a directory anew

A directory is listed again after its listing failed.  Toggling it collapses it
first; a filter descent does not, and puts the new rows above those the failed
listing had delivered (`descent_onto_old_rows`).

`listed_once` says what holds of the runs without such a descent.  A listing is
only ever started for a row with nothing beneath it; beneath an expanded row is
what its listing delivered, in order; and no path is in two rows, if no listing
delivers a name twice.
-/

namespace FilePeeker.Browser

open PreOrder

variable {μ : Type}

/-! ### What each listing delivered -/

/-- What the listings have delivered, by their numbers, and which have ended. -/
structure Deliveries (μ : Type) where
  given : Nat → List (DirectoryEntry μ)
  ended : Nat → Bool

/-- What is beneath a directory is what its listing delivered.  A listing that
goes on is no longer its listing when the generation has moved on. -/
def Filled (c : BrowserContext μ) (s : Deliveries μ) (above : Above) (item : Item μ)
    (entries : List (DirectoryEntry μ)) : Prop :=
  match item.expansion.requestId with
  | none => entries = []
  | some id => ∃ (n : Nat) (l : Listing), c.listings[n]? = some l ∧
      l.target = .directory (childPath above.path item.entry.name) id ∧ entries <+: s.given n ∧
      (item.expansion = .loading id → l.generation = c.generation → entries = s.given n) ∧
      (item.expansion ≠ .loading id → entries = s.given n ∧ s.ended n = true)

/-- And so is what is in the root. -/
def RootFilled (c : BrowserContext μ) (s : Deliveries μ) (entries : List (DirectoryEntry μ)) :
    Prop :=
  (∃ n, entries <+: s.given n) ∧ ∀ (n : Nat) (l : Listing), c.listings[n]? = some l →
    l.target = .root → l.generation = c.generation → entries = s.given n

/-- What holds of a browser, and of the directories its rows show, at all times. -/
structure ListedOnce (s : Deliveries μ) (c : BrowserContext μ) (d : Directories μ) : Prop where
  wf : c.tree.Wf 0
  ledger : c.Ledger
  refines : Refines c.tree d
  root : RootFilled c s (d.tops.tops.map Item.entry)
  filled : d.tops.All Above.down Item.entry (Filled c s) { path := d.rootPath, depth := 0 }
  expanded : ∀ row beneath, .expanded row beneath ∈ c.history → beneath = []

/-- A row may be expanded in range, with nothing beneath it if it is not
collapsed. -/
def ExpandableAnew (c : BrowserContext μ) (index : Nat) : Prop :=
  c.Expandable index ∧
    ∀ row ∈ c.tree.rows[index]?, row.expansion ≠ .collapsed → c.tree.beneath index = []

variable {c c' : BrowserContext μ} {s s' : Deliveries μ} {d : Directories μ} {i n : Nat}
  {row : Row μ} {item : Item μ} {above : Above} {below : Hedge (Item μ)}
  {entries : List (DirectoryEntry μ)} {m : Move} {more : List (Happened μ)}

theorem beneath_eq (h : Refines c.tree d) (hi : c.tree.rows[i]? = some (above.row item))
    (hn : d.tops.node? Above.down { path := d.rootPath, depth := 0 } i = some (above, item, below)) :
    c.tree.beneath i = below.flatten Above.down Above.row (above.down item) := by
  obtain ⟨stop, hstop, hend⟩ := Tree.subtreeEnd_spec hi
  have hend' : IsEnd c.tree.depths i (i + 1 + below.size) := by
    rw [Tree.depths, h.rows]
    exact depths_ok.isEnd hn
  obtain rfl := hend.unique hend' (Tree.depths_of_row hi)
  obtain ⟨before, behind, hlen, heq, -⟩ := Hedge.exists_split Above.row hn
  rw [Tree.beneath, hstop]
  show ((c.tree.rows.take _).drop _) = _
  rw [h.rows, Directories.rows, heq, Hedge.flatten_cons, Hedge.flatten_nil, List.append_nil,
    List.cons_append, ← List.singleton_append, ← List.append_assoc, ← List.append_assoc,
    List.take_left' (by simp [hlen]; omega), List.append_assoc, ← List.append_assoc,
    List.drop_left' (by simp [hlen])]

theorem slot_of_beneath_nil (hi : c.tree.rows[i]? = some row) (hnil : c.tree.beneath i = []) :
    Slot c.tree.depths 0 i (row.depth + 1) (i + 1) := by
  obtain ⟨stop, hstop, hend⟩ := Tree.subtreeEnd_spec hi
  have hlt := hend.lt
  have hle := hend.le
  rw [Tree.length_depths] at hle
  obtain rfl : stop = i + 1 := by
    rw [Tree.beneath, hstop, List.drop_eq_nil_iff, List.length_take] at hnil
    omega
  exact hend.slot (Tree.depths_of_row hi)

/-- A row's item is the label of its node. -/
theorem label_of_row (h : Refines c.tree d) {j : Nat} (hj : d.tops.labels[j]? = some item) :
    ∃ row, c.tree.rows[j]? = some row ∧ row.expansion = item.expansion := by
  rw [← h.items, List.getElem?_map] at hj
  obtain ⟨row, hrow, rfl⟩ := Option.map_eq_some_iff.mp hj
  exact ⟨row, hrow, rfl⟩

/-- What is filled stays so while its listing delivers nothing. -/
theorem Filled.keep (h : Filled c s above item entries)
    (hmore : ∀ (n : Nat) (l : Listing), c.listings[n]? = some l → c'.listings[n]? = some l)
    (hgen : ∀ (n : Nat) (l : Listing), c.listings[n]? = some l → l.generation = c'.generation →
      l.generation = c.generation)
    (hsame : ∀ (n : Nat) (l : Listing) path id, c.listings[n]? = some l →
      l.target = .directory path id → item.expansion.requestId = some id →
      s'.given n = s.given n ∧ s'.ended n = s.ended n) : Filled c' s' above item entries := by
  unfold Filled at h ⊢
  split at h
  · exact h
  · next id hid =>
    obtain ⟨n, l, hl, ht, hpre, hload, hover⟩ := h
    obtain ⟨hg, he⟩ := hsame n l _ id hl ht hid
    refine ⟨n, l, hmore n l hl, ht, by rwa [hg], fun hloading hg' => ?_, fun hne => ?_⟩
    · rw [hg]
      exact hload hloading (hgen n l hl hg')
    · rw [hg, he]
      exact hover hne

theorem RootFilled.keep (h : RootFilled c s entries)
    (hback : ∀ (n : Nat) (l : Listing), c'.listings[n]? = some l → l.target = .root →
      l.generation = c'.generation → c.listings[n]? = some l ∧ l.generation = c.generation)
    (hmono : ∀ n, s.given n <+: s'.given n)
    (hsame : ∀ (n : Nat) (l : Listing), c.listings[n]? = some l → l.target = .root →
      s'.given n = s.given n) : RootFilled c' s' entries := by
  obtain ⟨⟨n, hpre⟩, hall⟩ := h
  refine ⟨⟨n, hpre.trans (hmono n)⟩, fun m l hl ht hg => ?_⟩
  obtain ⟨hl, hg⟩ := hback m l hl ht hg
  rw [hsame m l hl ht]
  exact hall m l hl ht hg

open BrowserContext

theorem listings_mono (h : c'.history = c.history ++ more) (n : Nat) (l : Listing)
    (hl : c.listings[n]? = some l) : c'.listings[n]? = some l := by
  rw [listings_append h, List.getElem?_append_left (List.getElem?_eq_some_iff.mp hl).1, hl]

/-! ### Each move -/

theorem ListedOnce.expand (h : ListedOnce s c d) (hok : ExpandableAnew c i)
    (hunheard : s.given c.listings.length = []) (heq : c.startDirectoryListing i = some c') :
    ∃ d', ListedOnce s c' d' := by
  have hledger := h.ledger.expand hok.1 heq
  obtain ⟨row, hrow, hbegin, hgen, hid, hnext, hhist⟩ := startDirectoryListing_spec heq
  obtain ⟨⟨row₂, hrow₂, hidle, hdepth, hlimit⟩, hanew⟩ := hok
  obtain rfl : row₂ = row := Option.some.inj (hrow₂.symm.trans hrow)
  obtain ⟨above, item, below, hnode, rfl⟩ := h.refines.node? hrow
  have hfresh := h.ledger.fresh hlimit
  -- A collapsed row has nothing beneath it, and of any other row it is given.
  have hnil : c.tree.beneath i = [] := by
    by_cases hcollapsed : item.expansion = .collapsed
    · obtain ⟨hfilled, -⟩ := h.filled.node hnode
      have htops : below.tops.map Item.entry = [] := by
        unfold Filled at hfilled
        rw [hcollapsed] at hfilled
        exact hfilled
      rw [beneath_eq h.refines hrow hnode]
      cases below with
      | nil => rfl
      | cons a b n => simp [Hedge.tops] at htops
    · exact hanew _ hrow hcollapsed
  have hbelow : below.tops = [] := by
    rw [beneath_eq h.refines hrow hnode] at hnil
    cases below with
    | nil => rfl
    | cons a b n => simp [Hedge.flatten_cons] at hnil
  have hwf := h.wf.beginExpansion hrow hidle hfresh hdepth (slot_of_beneath_nil hrow hnil) hbegin
  have hnew : c'.listings[c.listings.length]? = some
      { path := (above.row item).path
        contextId := c.id
        generation := c.generation
        target := .directory (above.row item).path c.freshId } := by
    rw [listings_append hhist]
    exact List.getElem?_concat_length
  have hgens (n : Nat) (l : Listing) (_ : c.listings[n]? = some l)
      (hl : l.generation = c'.generation) : l.generation = c.generation := hl.trans hgen
  refine ⟨d.apply (.beginExpansion i c.freshId), hwf, hledger,
    refines_beginExpansion h.refines hbegin hrow, ?_, ?_, ?_⟩
  · show RootFilled c' s ((d.tops.modifyAt _ i).tops.map Item.entry)
    rw [Hedge.tops_modifyAt (fun _ _ => rfl)]
    refine h.root.keep (fun n l hl ht hg => ?_) (fun _ => List.prefix_rfl) fun _ _ _ _ => rfl
    rcases listings_cases (listings_append hhist) hl with hl | ⟨-, rfl⟩
    · exact ⟨hl, hg.trans hgen⟩
    · simp at ht
  · refine Hedge.All.modifyAt (fun _ _ => rfl) h.filled ?_ ?_
    · intro j item _ _ above ds hfilled
      exact hfilled.keep (listings_mono hhist) hgens fun _ _ _ _ _ _ _ => ⟨rfl, rfl⟩
    · intro above' item' below' hn _ hall
      have hn := hnode.symm.trans hn
      rw [Option.some.injEq, Prod.mk.injEq, Prod.mk.injEq] at hn
      obtain ⟨rfl, rfl, rfl⟩ := hn
      refine ⟨⟨c.listings.length, _, hnew, rfl, ?_, fun _ _ => ?_, fun hne => absurd rfl hne⟩, hall⟩
      · rw [hbelow]
        exact List.nil_prefix
      · rw [hbelow, hunheard]
        rfl
  · intro row' rows hin
    rw [hhist, List.mem_append] at hin
    rcases hin with hin | hin
    · exact h.expanded row' rows hin
    · have : row' = above.row item ∧ rows = c.tree.beneath i := by simpa using hin
      rw [this.2, hnil]

theorem ListedOnce.collapse (h : ListedOnce s c d) (heq : c.collapseDirectory i = some c') :
    ∃ d', ListedOnce s c' d' := by
  have hledger := h.ledger.move h.wf (m := .collapse i) trivial heq
  obtain ⟨row, ids, hrow, hcollapse, hgen, hkept, handles, hhist⟩ := collapseDirectory_spec heq
  obtain ⟨t', stop, hc, hend, -, hrem⟩ := Tree.collapse_spec h.wf hrow
  obtain rfl : c'.tree = t' := by
    rw [hcollapse, Option.some.injEq, Prod.mk.injEq] at hc
    exact hc.1
  have hgens (n : Nat) (l : Listing) (_ : c.listings[n]? = some l)
      (hl : l.generation = c'.generation) : l.generation = c.generation := hl.trans hgen
  refine ⟨d.apply (.collapse i), h.wf.collapse (Nat.zero_le 1) hrow hend hrem, hledger,
    refines_collapse h.refines h.wf hrow hcollapse, ?_, ?_, ?_⟩
  · show RootFilled c' s ((d.tops.modifyAt _ i).tops.map Item.entry)
    rw [Hedge.tops_modifyAt (fun _ _ => rfl)]
    refine h.root.keep (fun n l hl _ hg => ⟨?_, hg.trans hgen⟩) (fun _ => List.prefix_rfl)
      fun _ _ _ _ => rfl
    rwa [listings_append hhist, show spawned (.collapsed row :: handles.map .aborted) = [] from
      spawned_aborted handles, List.append_nil] at hl
  · refine Hedge.All.modifyAt (fun _ _ => rfl) h.filled ?_ ?_
    · intro j item _ _ above ds hfilled
      exact hfilled.keep (listings_mono hhist) hgens fun _ _ _ _ _ _ _ => ⟨rfl, rfl⟩
    · intro above item below _ _ _
      exact ⟨rfl, trivial⟩
  · intro row' rows hin
    rw [hhist, List.mem_append] at hin
    rcases hin with hin | hin
    · exact h.expanded row' rows hin
    · simp at hin

/-- The root is listed anew. -/
theorem ListedOnce.restart (h : ListedOnce s c d) (hr : Restarted c c')
    (hlimit : c.generation + 1 < counterLimit) (hunheard : s.given c.listings.length = []) :
    ∃ d', ListedOnce s c' d' := by
  have hledger := h.ledger.restart hr hlimit
  have hnone {j : Nat} {row : Row μ} : ¬ c'.tree.rows[j]? = some row := by
    rw [hr.rows]
    simp
  obtain ⟨handles, hhist⟩ := hr.history
  have hwf : c'.tree.Wf 0 := by
    refine ⟨?_, ?_, ?_, fun i row id hi => absurd hi hnone,
      fun i j row row' id hi => absurd hi hnone⟩
    · rw [Tree.depths, hr.rows]
      exact outline_nil
    · rw [hr.placements]
      simp
    · rw [hr.placements]
      simp
  refine ⟨{ rootPath := c'.tree.rootPath, tops := .nil, status := .loading }, hwf, hledger,
    ⟨hr.rows, rfl, hr.status⟩, ?_, trivial, ?_⟩
  · refine ⟨⟨c.listings.length, List.nil_prefix⟩, fun n l hl _ hg => ?_⟩
    have hlistings : c'.listings = c.listings ++ [{
        path := c'.tree.rootPath
        contextId := c.id
        generation := c'.generation
        target := .root }] := by
      rw [listings_eq, hhist, spawned_append, spawned_append, spawned_aborted, List.append_nil]
      rfl
    rcases listings_cases hlistings hl with hl | ⟨rfl, -⟩
    · have := (h.ledger.mine n l hl).2
      have := hr.generation.trans (Nat.mod_eq_of_lt hlimit)
      omega
    · exact hunheard.symm
  · intro row beneath hin
    rw [hhist] at hin
    simp only [List.mem_append, List.mem_map, List.mem_cons, List.not_mem_nil, or_false,
      reduceCtorEq, and_false, exists_false] at hin
    exact h.expanded row beneath hin

/-- The rows are the same, and no listing was started. -/
theorem ListedOnce.quiet (h : ListedOnce s c d) (handles : List Nat)
    (hrows : c'.tree.rows = c.tree.rows)
    (hplacements : c'.tree.placements = c.tree.placements)
    (hroot : c'.tree.rootPath = c.tree.rootPath) (hstatus : c'.tree.status = c.tree.status)
    (hledger : c'.Ledger) (hgen : c.generation ≤ c'.generation)
    (hmore : c'.history = c.history ++ handles.map .aborted) : ListedOnce s c' d := by
  have hgens (n : Nat) (l : Listing) (hl : c.listings[n]? = some l)
      (hg : l.generation = c'.generation) : l.generation = c.generation := by
    have := (h.ledger.mine n l hl).2
    omega
  refine ⟨?_, hledger, ⟨hrows.trans h.refines.rows, hroot.trans h.refines.rootPath,
    hstatus.trans h.refines.status⟩, h.root.keep (fun n l hl _ hg => ?_)
      (fun _ => List.prefix_rfl) (fun _ _ _ _ => rfl),
      h.filled.imp fun item _ above ds hfilled => hfilled.keep (listings_mono hmore) hgens
      fun _ _ _ _ _ _ _ => ⟨rfl, rfl⟩, ?_⟩
  case refine_2 =>
    have hl : c.listings[n]? = some l := by
      rwa [listings_append hmore, spawned_aborted, List.append_nil] at hl
    exact ⟨hl, hgens n l hl hg⟩
  · obtain ⟨h₁, h₂, h₃, h₄, h₅⟩ := h.wf
    refine ⟨?_, ?_, ?_, ?_, ?_⟩
    · rwa [Tree.depths, hrows]
    · rwa [hplacements, Tree.depths, hrows]
    · rwa [hplacements, hrows]
    · rwa [hplacements, hrows]
    · rwa [hrows]
  · intro row beneath hin
    rw [hmore] at hin
    simp only [List.mem_append, List.mem_map, reduceCtorEq, and_false, exists_false, or_false] at hin
    exact h.expanded row beneath hin

/-- **Every move keeps the rows listed once.** -/
theorem ListedOnce.move (h : ListedOnce s c d) (hok : MoveOk ExpandableAnew c m)
    (hunheard : ∀ n, c.listings.length ≤ n → s.given n = []) (heq : c.move m = some c') :
    ∃ d', ListedOnce s c' d' := by
  have hlast := hunheard _ (Nat.le_refl _)
  cases m with
  | look selected filter offset height =>
    have hledger := h.ledger.move (m := .look selected filter offset height) h.wf trivial heq
    obtain rfl := Option.some.inj heq
    exact ⟨d, h.quiet [] rfl rfl rfl rfl hledger (Nat.le_refl _) (List.append_nil _).symm⟩
  | expand i => exact h.expand hok hlast heq
  | collapse i => exact h.collapse heq
  | restart =>
    obtain rfl := Option.some.inj heq
    exact h.restart (restarted_startRootListing c) hok hlast
  | reroot rootPath =>
    obtain rfl := Option.some.inj heq
    exact h.restart (restarted_changeRootPath c rootPath) hok hlast
  | cancel =>
    have hledger := h.ledger.move (m := .cancel) h.wf hok heq
    obtain rfl := Option.some.inj heq
    obtain ⟨htree, hgen, -, handles, hhist⟩ := cancel_spec c
    rw [wrappingSucc, Nat.mod_eq_of_lt hok] at hgen
    exact ⟨d, h.quiet handles (by rw [htree]) (by rw [htree]) (by rw [htree]) (by rw [htree]) hledger
      (by omega) hhist⟩

/-! ### Each event -/

/-- Listing `n` delivers one more result. -/
def Deliveries.after (s : Deliveries μ) (n : Nat) (result : ListingResult μ) : Deliveries μ :=
  { given := fun m => if m = n then s.given n ++ result.group else s.given m
    ended := fun m => if m = n then s.ended n || result.terminal else s.ended m }

variable {l : Listing} {result : ListingResult μ}

theorem Deliveries.after_self (s : Deliveries μ) (n : Nat) (result : ListingResult μ) :
    (s.after n result).given n = s.given n ++ result.group ∧
      (s.after n result).ended n = (s.ended n || result.terminal) := ⟨if_pos rfl, if_pos rfl⟩

theorem Deliveries.after_other (s : Deliveries μ) (result : ListingResult μ) {m : Nat} (h : m ≠ n) :
    (s.after n result).given m = s.given m ∧ (s.after n result).ended m = s.ended m :=
  ⟨if_neg h, if_neg h⟩

theorem Deliveries.after_mono (s : Deliveries μ) (n : Nat) (result : ListingResult μ) (m : Nat) :
    s.given m <+: (s.after n result).given m := by
  by_cases hm : m = n
  · subst hm
    rw [(s.after_self m result).1]
    exact List.prefix_append _ _
  · exact (s.after_other result hm).1 ▸ List.prefix_rfl

/-- What comes for no row any more is of a listing that no row waits for. -/
theorem ListedOnce.stale (h : ListedOnce s c d) (hl : c.listings[n]? = some l)
    (hopen : s.ended n = false) (hstale : ¬ Current c (l.event result)) :
    ListedOnce (s.after n result) c d := by
  have hmine := (h.ledger.mine n l hl).1
  refine ⟨h.wf, h.ledger, h.refines, ?_, h.filled.imp ?_, h.expanded⟩
  · obtain ⟨⟨m, hpre⟩, hall⟩ := h.root
    refine ⟨⟨m, hpre.trans (s.after_mono n result m)⟩, fun m l' hl' ht hgen => ?_⟩
    by_cases hm : m = n
    · subst hm
      obtain rfl := Option.some.inj (hl.symm.trans hl')
      refine absurd ⟨hmine, hgen, fun path id heq => ?_⟩ hstale
      exact absurd (ht.symm.trans heq) (by simp)
    · rw [(s.after_other result hm).1]
      exact hall m l' hl' ht hgen
  · intro item hitem above ds hfilled
    unfold Filled at hfilled ⊢
    split at hfilled
    · exact hfilled
    · next id hid =>
      obtain ⟨m, l', hl', ht, hpre, hload, hover⟩ := hfilled
      refine ⟨m, l', hl', ht, hpre.trans (s.after_mono n result m), fun hloading hgen => ?_,
        fun hne => ?_⟩
      · by_cases hm : m = n
        · subst hm
          obtain rfl := Option.some.inj (hl.symm.trans hl')
          refine absurd ⟨hmine, hgen, fun path id' heq => ?_⟩ hstale
          obtain ⟨-, rfl⟩ := ListingTarget.directory.inj (ht.symm.trans heq)
          obtain ⟨j, hj⟩ := List.mem_iff_getElem?.mp hitem
          obtain ⟨row, hrow, hexp⟩ := label_of_row h.refines hj
          exact h.wf.placed j row id hrow (hexp.trans hloading)
        · rw [(s.after_other result hm).1]
          exact hload hloading hgen
      · by_cases hm : m = n
        · subst hm
          rw [(hover hne).2] at hopen
          simp at hopen
        · rw [(s.after_other result hm).1, (s.after_other result hm).2]
          exact hover hne

/-- An event of the root. -/
theorem ListedOnce.eventRoot (h : ListedOnce s c d) (hl : c.listings[n]? = some l)
    (htarget : l.target = .root) (hgen : l.generation = c.generation) (hledger : c'.Ledger)
    (hhist : c'.history = c.history) (hgen' : c'.generation = c.generation)
    (hwf : c'.tree.Wf 0) {d' : Directories μ} (hrefines : Refines c'.tree d')
    (hroot : d'.rootPath = d.rootPath)
    (htops : d'.tops = d.tops.append (.leaves (result.group.map Item.new))) :
    ListedOnce (s.after n result) c' d' := by
  have hmore : c'.history = c.history ++ [] := by rw [hhist, List.append_nil]
  have hlistings : c'.listings = c.listings := by rw [listings_eq, hhist, listings_eq]
  have hgens (n : Nat) (l : Listing) (_ : c.listings[n]? = some l)
      (hl : l.generation = c'.generation) : l.generation = c.generation := hl.trans hgen'
  have hfull : d'.tops.tops.map Item.entry = (s.after n result).given n := by
    rw [htops, Hedge.tops_append, Hedge.tops_leaves, List.map_append, List.map_map,
      (s.after_self n result).1, h.root.2 n l hl htarget hgen]
    exact congrArg _ (List.map_id _)
  refine ⟨hwf, hledger, hrefines, ⟨⟨n, hfull ▸ List.prefix_rfl⟩, ?_⟩, ?_,
    by rw [hhist]; exact h.expanded⟩
  · intro m l' hl' ht hg
    rw [hlistings] at hl'
    obtain rfl := h.ledger.rootOnce m n l' l hl' hl ht htarget (hg.trans hgen') hgen
    exact hfull
  · rw [htops, hroot]
    refine Hedge.All.append ?_ (Hedge.all_leaves fun item hitem => ?_)
    · refine h.filled.imp fun item _ above ds hfilled => hfilled.keep (listings_mono hmore) hgens ?_
      intro m l' path id hl' ht _
      refine s.after_other result fun hm => ?_
      subst hm
      obtain rfl := Option.some.inj (hl.symm.trans hl')
      exact absurd (htarget.symm.trans ht) (by simp)
    · obtain ⟨entry, -, rfl⟩ := List.mem_map.mp hitem
      rfl

/-- An event of a directory that is loading: `f` is what it does there. -/
theorem ListedOnce.eventDirectory (h : ListedOnce s c d) (hl : c.listings[n]? = some l)
    {path : PathString} {id : Nat} (htarget : l.target = .directory path id)
    (hgen : l.generation = c.generation) (hledger : c'.Ledger) (hhist : c'.history = c.history)
    (hgen' : c'.generation = c.generation) (hwf : c'.tree.Wf 0)
    (hrow : c.tree.rows[i]? = some row) (hloading : row.expansion = .loading id)
    {f : Item μ → Hedge (Item μ) → Item μ × Hedge (Item μ)}
    (hrefines : Refines c'.tree (d.modifyAt i f))
    (hentry : ∀ item below, (f item below).1.entry = item.entry) (expansion : Expansion)
    (hf : ∀ item below, item.expansion = .loading id →
      f item below = ({ item with expansion }, below.append (.leaves (result.group.map Item.new))))
    (hid : expansion.requestId = some id)
    (hended : expansion ≠ .loading id → result.terminal = true) :
    ∃ d', ListedOnce (s.after n result) c' d' := by
  have hmore : c'.history = c.history ++ [] := by rw [hhist, List.append_nil]
  have hlistings : c'.listings = c.listings := by rw [listings_eq, hhist, listings_eq]
  have hgens (n : Nat) (l : Listing) (_ : c.listings[n]? = some l)
      (hl : l.generation = c'.generation) : l.generation = c.generation := hl.trans hgen'
  refine ⟨_, hwf, hledger, hrefines, ?_, ?_, by rw [hhist]; exact h.expanded⟩
  · show RootFilled c' _ ((d.tops.modifyAt _ i).tops.map Item.entry)
    rw [Hedge.tops_modifyAt hentry]
    refine h.root.keep (fun n l hl _ hg => ⟨by rwa [hlistings] at hl, hg.trans hgen'⟩)
      (s.after_mono n result) fun m l' hl' ht => (s.after_other result fun hm => ?_).1
    subst hm
    obtain rfl := Option.some.inj (hl.symm.trans hl')
    exact absurd (htarget.symm.trans ht) (by simp)
  · refine Hedge.All.modifyAt hentry h.filled ?_ ?_
    · intro j item hj hji above ds hfilled
      refine hfilled.keep (listings_mono hmore) hgens fun m l' path' id' hl' ht hid' => ?_
      refine s.after_other result fun hm => ?_
      -- Another row of the same request: there is none.
      subst hm
      obtain rfl := Option.some.inj (hl.symm.trans hl')
      obtain ⟨-, rfl⟩ := ListingTarget.directory.inj (htarget.symm.trans ht)
      obtain ⟨row', hrow', hexp⟩ := label_of_row h.refines hj
      exact hji (h.wf.requests j i row' row id hrow' hrow (by rw [hexp, hid'])
        (by rw [hloading]; rfl))
    · intro above item below hnode hfilled hall
      have hn : d.tops.node? Above.down { path := d.rootPath, depth := 0 } i =
          some (above, item, below) := hnode
      have hitem : row = above.row item := by
        have := hrow
        rw [h.refines.rows, Directories.rows, Hedge.getElem?_flatten hn, Option.some.injEq] at this
        exact this.symm
      have hloading' : item.expansion = .loading id := by
        rw [hitem] at hloading
        exact hloading
      unfold Filled at hfilled
      rw [hloading'] at hfilled
      obtain ⟨m, l', hl', ht, -, hload, -⟩ := hfilled
      obtain rfl := h.ledger.once m n l' l _ path id hl' hl ht htarget
      obtain rfl := Option.some.inj (hl.symm.trans hl')
      have hfull : (below.append (.leaves (result.group.map Item.new))).tops.map Item.entry =
          (s.after m result).given m := by
        rw [Hedge.tops_append, Hedge.tops_leaves, List.map_append, List.map_map,
          (s.after_self m result).1, hload rfl hgen]
        exact congrArg _ (List.map_id _)
      rw [hf item below hloading']
      refine ⟨?_, hall.append (Hedge.all_leaves fun item hitem => ?_)⟩
      · unfold Filled
        simp only [hid]
        refine ⟨m, l, listings_mono hmore m l hl, ht, hfull ▸ List.prefix_rfl, fun _ _ => hfull,
          fun hne => ⟨hfull, ?_⟩⟩
        rw [(s.after_self m result).2, hended hne, Bool.or_true]
      · obtain ⟨entry, -, rfl⟩ := List.mem_map.mp hitem
        rfl

/-- **An event keeps the rows listed once.** -/
theorem ListedOnce.event (h : ListedOnce s c d) (hl : c.listings[n]? = some l)
    (hopen : s.ended n = false) (heq : c.apply (l.event result) = some c') :
    ∃ d', ListedOnce (s.after n result) c' d' := by
  by_cases hcur : Current c (l.event result)
  · have hledger := h.ledger.event h.wf hcur heq
    obtain ⟨htree, hhist, hgen, -⟩ := apply_of_current h.wf hcur heq
    rw [BrowserContextEvent.op] at htree
    have hnow : l.generation = c.generation := hcur.generation
    cases htarget : l.target with
    | root =>
      have hleaf : d.tops = d.tops.append (.leaves (([] : List (DirectoryEntry μ)).map Item.new)) :=
        (Hedge.append_nil _).symm
      cases result with
      | entries entries =>
        simp only [Listing.event, htarget] at htree
        have hwf := wf_apply h.wf (.extendRoot entries) trivial htree
        have hrefines := refines_extendRoot h.refines entries
        rw [Option.some.inj htree] at hrefines
        exact ⟨_, h.eventRoot hl htarget hnow hledger hhist hgen hwf hrefines rfl rfl⟩
      | finished =>
        simp only [Listing.event, htarget] at htree
        have hwf := wf_apply h.wf (.finishRoot (.ok ())) trivial htree
        have hrefines := refines_finishRoot h.refines (.ok ())
        rw [Option.some.inj htree] at hrefines
        exact ⟨_, h.eventRoot hl htarget hnow hledger hhist hgen hwf hrefines rfl hleaf⟩
      | failed error =>
        simp only [Listing.event, htarget] at htree
        have hwf := wf_apply h.wf (.finishRoot (.error error)) trivial htree
        have hrefines := refines_finishRoot h.refines (.error error)
        rw [Option.some.inj htree] at hrefines
        exact ⟨_, h.eventRoot hl htarget hnow hledger hhist hgen hwf hrefines rfl hleaf⟩
    | directory path id =>
      obtain ⟨p, hp⟩ := hcur.loading path id htarget
      obtain ⟨row, hrow, hloading⟩ := h.wf.loading id p hp
      -- Listed and ended are one change each of the row that is loading.
      have finished (ended : Except String Unit) (hgroup : result.group = [])
          (hterminal : result.terminal = true)
          (hfinish : c.tree.finishChild id ended = some c'.tree) :
          ∃ d', ListedOnce (s.after n result) c' d' := by
        have hwf := wf_apply h.wf (.finishChild id ended) trivial hfinish
        have hrefines := refines_finishChild h.refines h.wf hfinish
        rw [Directories.apply, h.refines.modifyListed h.wf hrow hloading] at hrefines
        refine h.eventDirectory hl htarget hnow hledger hhist hgen hwf hrow hloading hrefines
          (fun _ _ => rfl) (Tree.finished id ended) (fun item below _ => ?_)
          (Tree.finished_requestId _ _) fun _ => hterminal
        rw [hgroup, List.map_nil, Hedge.leaves, Hedge.append_nil]
      cases result with
      | entries entries =>
        simp only [Listing.event, htarget] at htree
        have hwf := wf_apply h.wf (.extendChild id entries) trivial htree
        have hrefines := refines_extendChild h.refines h.wf htree
        rw [Directories.apply, h.refines.modifyListed h.wf hrow hloading] at hrefines
        refine h.eventDirectory hl htarget hnow hledger hhist hgen hwf hrow hloading hrefines
          (fun _ _ => rfl) (.loading id) (fun item below hitem => ?_) rfl
          fun hne => absurd rfl hne
        rw [← hitem]
        rfl
      | finished =>
        simp only [Listing.event, htarget] at htree
        exact finished (.ok ()) rfl rfl htree
      | failed error =>
        simp only [Listing.event, htarget] at htree
        exact finished (.error error) rfl rfl htree
  · obtain rfl := Option.some.inj (heq.symm.trans (apply_of_not_current h.wf hcur))
    exact ⟨d, h.stale hl hopen hcur⟩

/-! ### Whole runs -/

/-- What the listings have delivered, by what was taken off the channel. -/
def deliveries (ss : List (Sent μ)) : Deliveries μ where
  given n := entriesOf (ss.filter fun s => s.handle = n)
  ended n := ss.any fun s => s.handle = n && s.event.result.terminal

theorem deliveries_append (ss : List (Sent μ)) (sent : Sent μ) :
    deliveries (ss ++ [sent]) = (deliveries ss).after sent.handle sent.event.result := by
  have hgiven : (deliveries (ss ++ [sent])).given =
      ((deliveries ss).after sent.handle sent.event.result).given := by
    funext n
    by_cases hn : n = sent.handle
    · subst hn
      rw [((deliveries ss).after_self sent.handle sent.event.result).1]
      simp [deliveries, entriesOf]
    · rw [((deliveries ss).after_other sent.event.result hn).1]
      simp [deliveries, entriesOf, Ne.symm hn]
  have hended : (deliveries (ss ++ [sent])).ended =
      ((deliveries ss).after sent.handle sent.event.result).ended := by
    funext n
    by_cases hn : n = sent.handle
    · subst hn
      rw [((deliveries ss).after_self sent.handle sent.event.result).2]
      simp [deliveries]
    · rw [((deliveries ss).after_other sent.event.result hn).2]
      simp [deliveries, Ne.symm hn]
  exact congrArg₂ Deliveries.mk hgiven hended

/-- What holds of a browser, its directories and its listings at all times. -/
structure WorldListed (w : World μ) (d : Directories μ) : Prop where
  listed : ListedOnce (deliveries w.delivered) w.context d
  sent : ∀ s ∈ w.sent, ∃ l : Listing, w.context.listings[s.handle]? = some l ∧
    s.event = l.event s.event.result
  ordered : w.sent.Pairwise fun s s' => s.event.result.terminal = true → s'.handle ≠ s.handle

section Runs

variable [Lowercase]

/-- A keystroke opens no row that has rows beneath it, but for a collapsed one,
which has none. -/
def OpensAnew (w : World μ) : WorldAct μ → Prop
  | .key op => ∀ i ∈ w.context.opens op, ∀ row ∈ w.context.tree.rows[i]?,
    row.expansion ≠ .collapsed → w.context.tree.beneath i = []
  | .send .. | .receive => True

instance (w : World μ) : (a : WorldAct μ) → Decidable (OpensAnew w a)
  | .key op => inferInstanceAs (Decidable (∀ i ∈ w.context.opens op,
      ∀ row ∈ w.context.tree.rows[i]?, row.expansion ≠ .collapsed → w.context.tree.beneath i = []))
  | .send .. | .receive => .isTrue trivial

theorem WorldListed.step {w w' : World μ} {d : Directories μ} {a : WorldAct μ}
    (h : WorldListed w d) (hok : InRange w a ∧ OpensAnew w a) (heq : w.step a = some w') :
    ∃ d', WorldListed w' d' := by
  cases a with
  | key op =>
    obtain ⟨context, hact, rfl⟩ := Option.map_eq_some_iff.mp heq
    have hmoves := moves_of_act ExpandableAnew hok.1.1
      (fun i hi => ⟨expandable_of_opens hok.1 hi, hok.2 i hi⟩) hact
    -- No listing is heard of before it is started.
    have hunheard {c : BrowserContext μ} (hc : Moves ExpandableAnew w.context c) (n : Nat)
        (hn : c.listings.length ≤ n) : (deliveries w.delivered).given n = [] := by
      obtain ⟨more, hmore⟩ := history_of_moves hc
      refine List.flatMap_eq_nil_iff.mpr fun s hs => ?_
      obtain ⟨hin, rfl⟩ : s ∈ w.delivered ∧ s.handle = n := by simpa using hs
      obtain ⟨l, hl, -⟩ := h.sent s (List.mem_append_left _ hin)
      have := (List.getElem?_eq_some_iff.mp hl).1
      rw [listings_append hmore, List.length_append] at hn
      omega
    obtain ⟨d', hd'⟩ : ∃ d', ListedOnce (deliveries w.delivered) context d' := by
      refine hmoves.invariant_from (I := fun c => ∃ d', ListedOnce (deliveries w.delivered) c d')
        ⟨d, h.listed⟩ ?_
      intro c m c' hc ⟨d, hd⟩ hmove hc'
      exact hd.move hmove (hunheard hc) hc'
    obtain ⟨more, hmore⟩ := history_of_moves hmoves
    refine ⟨d', hd', fun s hs => ?_, h.ordered⟩
    obtain ⟨l, hl, hevent⟩ := h.sent s hs
    exact ⟨l, listings_mono hmore _ l hl, hevent⟩
  | send handle result =>
    rw [World.step] at heq
    split at heq
    · simp at heq
    · next l hl =>
      split at heq
      · next hopen =>
        obtain rfl := Option.some.inj heq
        refine ⟨d, h.listed, fun s hs => ?_, ?_⟩
        · rw [World.sent, ← List.append_assoc, List.mem_append, List.mem_singleton] at hs
          rcases hs with hs | rfl
          · exact h.sent s hs
          · exact ⟨l, hl, rfl⟩
        · rw [World.sent, ← List.append_assoc, List.pairwise_append]
          refine ⟨h.ordered, List.pairwise_singleton _ _, fun s hs s' hs' hterminal heq => ?_⟩
          obtain rfl := List.mem_singleton.mp hs'
          have hover : w.hasEnded handle = true :=
            List.any_eq_true.mpr ⟨s, hs, by simp [← heq, hterminal]⟩
          rw [hopen.1] at hover
          simp at hover
      · simp at heq
  | receive =>
    rw [World.step] at heq
    split at heq
    · simp at heq
    · next s channel hchannel =>
      obtain ⟨context, happly, rfl⟩ := Option.map_eq_some_iff.mp heq
      have hsame : w.delivered ++ [s] ++ channel = w.sent := by
        rw [World.sent, hchannel, List.append_assoc, List.singleton_append]
      obtain ⟨l, hl, hevent⟩ := h.sent s (by simp [World.sent, hchannel])
      have hopen : (deliveries w.delivered).ended s.handle = false := by
        rw [deliveries, List.any_eq_false]
        intro s' hs' hboth
        simp only [Bool.and_eq_true, decide_eq_true_eq] at hboth
        have hordered := h.ordered
        rw [World.sent, hchannel, List.pairwise_append] at hordered
        exact hordered.2.2 s' hs' s (by simp) hboth.2 hboth.1.symm
      have hkept : context.history = w.context.history := by
        by_cases hcur : Current w.context s.event
        · exact (apply_of_current h.listed.wf hcur happly).2.1
        · rw [Option.some.inj (happly.symm.trans (apply_of_not_current h.listed.wf hcur))]
      have happly' := happly
      rw [hevent] at happly'
      obtain ⟨d', hd'⟩ := h.listed.event hl hopen happly'
      refine ⟨d', ?_, fun s' hs' => ?_, ?_⟩
      · rw [deliveries_append]
        exact hd'
      · rw [World.sent, hsame] at hs'
        obtain ⟨l, hl, hevent⟩ := h.sent s' hs'
        refine ⟨l, ?_, hevent⟩
        rw [listings_eq, hkept, ← listings_eq]
        exact hl
      · rw [World.sent, hsame]
        exact h.ordered

theorem worldListed_run {id : ContextId} {rootPath : PathString} {w : World μ}
    (h : Steps World.step (fun w a => InRange w a ∧ OpensAnew w a) (World.new id rootPath) w) :
    ∃ d, WorldListed w d := by
  refine h.invariant (I := fun w => ∃ d, WorldListed w d) ?_ ?_
  · intro w a w' ⟨d, hw⟩ hok heq
    exact hw.step hok heq
  · refine ⟨.new rootPath, ⟨Tree.wf_restart _, ledger_new id rootPath, ⟨rfl, rfl, rfl⟩,
      ⟨⟨0, List.nil_prefix⟩, fun _ _ _ _ _ => rfl⟩, trivial, fun row beneath hin => ?_⟩,
      fun s hs => absurd hs List.not_mem_nil, .nil⟩
    have : (Happened.expanded row beneath : Happened μ) ∈
        [.restarted,
          .spawned { path := rootPath, contextId := id, generation := 1, target := .root }] :=
      hin
    simp at this

/-- **No directory is listed on top of old rows**, in every run in which no
counter comes round and no row is opened that has rows beneath it.  Every row was
expanded with nothing beneath it.  What is beneath a row that has been expanded
is what its one listing delivered.  No path is in two rows if no listing delivers
a name twice. -/
theorem listed_once {id : ContextId} {rootPath : PathString} {w : World μ}
    (h : Steps World.step (fun w a => InRange w a ∧ OpensAnew w a) (World.new id rootPath) w) :
    (∀ row beneath, .expanded row beneath ∈ w.context.history → beneath = []) ∧
    (∀ i row id, w.context.tree.rows[i]? = some row → row.expansion.requestId = some id →
      ∃ (n : Nat) (l : Listing), w.context.listings[n]? = some l ∧ l.target = .directory row.path id ∧
        (row.expansion = .loading id → l.generation = w.context.generation →
          ((w.context.tree.beneath i).filter fun r => r.depth = row.depth + 1).map Row.entry =
            (deliveries w.delivered).given n) ∧
        (row.expansion ≠ .loading id →
          ((w.context.tree.beneath i).filter fun r => r.depth = row.depth + 1).map Row.entry =
            (deliveries w.delivered).given n ∧ (deliveries w.delivered).ended n = true)) ∧
    ((∀ n, (((deliveries w.delivered).given n).map DirectoryEntry.name).Nodup) →
      (∀ n, ∀ entry ∈ (deliveries w.delivered).given n, IsName entry.name) →
      (w.context.tree.rows.map Row.path).Nodup) := by
  obtain ⟨d, hw⟩ := worldListed_run h
  refine ⟨hw.listed.expanded, ?_, ?_⟩
  · intro i row id hrow hid
    obtain ⟨above, item, below, hnode, rfl⟩ := hw.listed.refines.node? hrow
    obtain ⟨hfilled, -⟩ := hw.listed.filled.node hnode
    have hlevel : ((w.context.tree.beneath i).filter fun r => r.depth = above.depth + 1).map
        Row.entry = below.tops.map Item.entry := by
      rw [beneath_eq hw.listed.refines hrow hnode]
      have := depths_ok.level below (above.down item)
      rw [show (above.down item).depth = above.depth + 1 from rfl] at this
      rw [this, List.map_map]
      rfl
    have hid : item.expansion.requestId = some id := hid
    unfold Filled at hfilled
    rw [hid] at hfilled
    obtain ⟨n, l, hl, ht, -, hload, hover⟩ := hfilled
    refine ⟨n, l, hl, ht, fun hloading hgen => ?_, fun hne => ?_⟩
    · exact hlevel.trans (hload hloading hgen)
    · exact ⟨hlevel.trans (hover hne).1, (hover hne).2⟩
  · intro hnames hvalid
    obtain ⟨⟨n, hpre⟩, -⟩ := hw.listed.root
    rw [hw.listed.refines.rows]
    -- The children of a row are from one listing.
    have hone {above : Above} {item : Item μ} {entries : List (DirectoryEntry μ)}
        (hfilled : Filled w.context (deliveries w.delivered) above item entries) :
        ∃ n, entries <+: (deliveries w.delivered).given n := by
      unfold Filled at hfilled
      split at hfilled
      · exact ⟨0, hfilled ▸ List.nil_prefix⟩
      · obtain ⟨n, l, -, -, hpre, -, -⟩ := hfilled
        exact ⟨n, hpre⟩
    refine nodup_paths ?_ (hw.listed.filled.imp fun item _ above es hfilled => ?_) ?_
    · exact (hnames n).sublist (hpre.sublist.map _)
    · obtain ⟨n, hpre⟩ := hone hfilled
      exact (hnames n).sublist (hpre.sublist.map _)
    · refine Hedge.labels_of_all (R := fun entry : DirectoryEntry μ => IsName entry.name)
        (fun entry hentry => hvalid n entry (hpre.subset hentry))
        (hw.listed.filled.imp fun item _ above es hfilled entry hentry => ?_)
      obtain ⟨n, hpre⟩ := hone hfilled
      exact hvalid n entry (hpre.subset hentry)

end Runs

attribute [local instance] asciiLowercase

/-! ### A directory whose listing failed partway -/

/-- The root has the directory `d`, whose listing delivers `x` and fails. -/
def failedPartway : List (WorldAct Unit) :=
  [.send 0 (.entries [entryNamed (letters [0x64]) true]), .receive, .key .activateSelected,
    .send 1 (.entries [entryNamed (letters [0x78]) false]), .receive,
    .send 1 (.failed "denied"), .receive]

/-- Toggled twice, it is listed again with nothing beneath it. -/
def relisted : World Unit :=
  runs World.step (fun w a => InRange w a ∧ OpensAnew w a) (.new 0 (letters [0x72]))
    (failedPartway ++ [.key .activateSelected, .key .activateSelected,
      .send 2 (.entries [entryNamed (letters [0x78]) false]), .receive, .send 2 .finished, .receive])

theorem reaches_relisted : Steps World.step (fun w a => InRange w a ∧ OpensAnew w a)
    (.new 0 (letters [0x72])) relisted := steps_runs _ _

theorem relisted_once :
    (∀ row beneath, .expanded row beneath ∈ relisted.context.history → beneath = []) ∧
    relisted.context.tree.rows.map (fun row => (row.entry.name, row.depth)) =
      [(letters [0x64], 0), (letters [0x78], 1)] :=
  ⟨(listed_once reaches_relisted).1, by decide +kernel⟩

/-- A descent lists it again above the row that is there. -/
def descended : World Unit :=
  runs World.step InRange (.new 0 (letters [0x72]))
    (failedPartway ++ [.key .beginFilter, .key (.extendFilter 'd'), .key .descendFilter,
      .send 2 (.entries [entryNamed (letters [0x78]) false]), .receive])

theorem deliveries_of_lt {ss : List (Sent μ)} {k : Nat} (h : ∀ s ∈ ss, s.handle < k) (hn : ¬ n < k) :
    (deliveries ss).given n = [] := by
  refine List.flatMap_eq_nil_iff.mpr fun s hs => ?_
  obtain ⟨hin, rfl⟩ : s ∈ ss ∧ s.handle = n := by simpa using hs
  exact absurd (h s hin) hn

theorem expanded_onto {history : List (Happened μ)} (h : (history.any fun
    | .expanded _ beneath => !beneath.isEmpty
    | _ => false) = true) : ∃ row beneath, .expanded row beneath ∈ history ∧ beneath ≠ [] := by
  obtain ⟨happened, hin, hbeneath⟩ := List.any_eq_true.mp h
  cases happened with
  | expanded row beneath => exact ⟨row, beneath, hin, by simpa using hbeneath⟩
  | _ => simp at hbeneath

/-- The descent expands a row that has a row beneath it, and a path is in two
rows though no listing delivers a name twice. -/
theorem descent_onto_old_rows :
    Steps World.step InRange (World.new 0 (letters [0x72])) descended ∧
    (∃ row beneath, .expanded row beneath ∈ descended.context.history ∧ beneath ≠ []) ∧
    (∀ n, (((deliveries descended.delivered).given n).map DirectoryEntry.name).Nodup) ∧
    ¬ (descended.context.tree.rows.map Row.path).Nodup := by
  refine ⟨steps_runs _ _, expanded_onto (by decide +kernel), fun n => ?_, by decide +kernel⟩
  have hfirst : ∀ n < 3, (((deliveries descended.delivered).given n).map
      DirectoryEntry.name).Nodup := by decide +kernel
  have hhandles : ∀ s ∈ descended.delivered, s.handle < 3 := by decide +kernel
  by_cases hn : n < 3
  · exact hfirst n hn
  · rw [deliveries_of_lt hhandles hn]
    exact List.nodup_nil

end FilePeeker.Browser
