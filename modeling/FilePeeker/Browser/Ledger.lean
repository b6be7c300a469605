import FilePeeker.Browser.Runs

/-!
# Which listing is which

A browser tells its listings apart by numbers: a generation for each start of the
root, a request for each row that is expanded.  `Ledger` is what these numbers
are good for as long as neither counter wraps.  A request belongs to one listing;
a listing of the current generation was started after the last start of the root;
and there is one listing of the current root.
-/

namespace FilePeeker.Browser

open PreOrder

variable {μ : Type}

namespace BrowserContext

variable {c c' : BrowserContext μ} {i e : Nat} {m : Move} {more : List (Happened μ)}

/-- A row that is not loading may be expanded, above the deepest level and while
there are requests left. -/
def Expandable (c : BrowserContext μ) (index : Nat) : Prop :=
  ∃ row, c.tree.rows[index]? = some row ∧ (∀ id, row.expansion ≠ .loading id) ∧
    row.depth < maxDepth ∧ c.nextRequestId + 1 < counterLimit

structure Ledger (c : BrowserContext μ) : Prop where
  mine : ∀ (n : Nat) (l : Listing), c.listings[n]? = some l →
    l.contextId = c.id ∧ l.generation ≤ c.generation
  directory : ∀ (n : Nat) (l : Listing) p (id : Nat), c.listings[n]? = some l →
    l.target = .directory p id → l.path = p ∧ id ≤ c.nextRequestId
  once : ∀ (n n' : Nat) (l l' : Listing) p p' (id : Nat), c.listings[n]? = some l →
    c.listings[n']? = some l' → l.target = .directory p id → l'.target = .directory p' id → n = n'
  rows : ∀ row ∈ c.tree.rows, ∀ id : Nat, row.expansion.requestId = some id → id ≤ c.nextRequestId
  current : ∀ (n : Nat) (l : Listing), c.listings[n]? = some l → l.generation = c.generation →
    .restarted ∉ since c.history n
  root : ∀ (n : Nat) (l : Listing), c.listings[n]? = some l → l.target = .root →
    l.generation = c.generation → l.path = c.tree.rootPath
  rootOnce : ∀ (n n' : Nat) (l l' : Listing), c.listings[n]? = some l → c.listings[n']? = some l' →
    l.target = .root → l'.target = .root → l.generation = c.generation →
    l'.generation = c.generation → n = n'

theorem freshId_eq (h : c.nextRequestId + 1 < counterLimit) : c.freshId = c.nextRequestId + 1 :=
  Nat.mod_eq_of_lt h

theorem Ledger.fresh (h : Ledger c) (hlimit : c.nextRequestId + 1 < counterLimit) :
    c.tree.Fresh c.freshId := by
  intro row hrow hid
  have := h.rows row hrow _ hid
  rw [freshId_eq hlimit] at this
  omega

theorem listings_append (h : c'.history = c.history ++ more) :
    c'.listings = c.listings ++ spawned more := by
  rw [listings_eq, h, spawned_append, listings_eq]

theorem since_of_append (h : c'.history = c.history ++ more) {handle : Nat} {l : Listing}
    (hl : c.listings[handle]? = some l) :
    since c'.history handle = since c.history handle ++ more := by
  rw [h, since_append (List.getElem?_eq_some_iff.mp hl).1]

/-- One more listing. -/
theorem listings_cases {new : Listing} (h : c'.listings = c.listings ++ [new]) {handle : Nat}
    {l : Listing} (hl : c'.listings[handle]? = some l) :
    c.listings[handle]? = some l ∨ handle = c.listings.length ∧ l = new := by
  rw [h, List.getElem?_append] at hl
  split at hl
  · exact .inl hl
  · next hge =>
    obtain ⟨hlt, hget⟩ := List.getElem?_eq_some_iff.mp hl
    rw [List.length_singleton] at hlt
    refine .inr ⟨by omega, ?_⟩
    rw [List.getElem_singleton] at hget
    exact hget.symm

/-- No new listing, and no new start of the root. -/
theorem Ledger.quiet (h : Ledger c) (more : List (Happened μ)) (hkept : Kept c c')
    (hmore : c'.history = c.history ++ more)
    (hspawned : spawned more = []) (hrestarted : .restarted ∉ more)
    (hgen : c.generation ≤ c'.generation) (hroot : c'.tree.rootPath = c.tree.rootPath)
    (hrows : ∀ row' ∈ c'.tree.rows, ∀ id : Nat, row'.expansion.requestId = some id →
      ∃ row ∈ c.tree.rows, row.expansion.requestId = some id) : Ledger c' := by
  have hlistings : c'.listings = c.listings := by
    rw [listings_append hmore, hspawned, List.append_nil]
  -- A listing of the new generation is of the old one, if that is still the same.
  have hsame {h' : Nat} {l : Listing} (hl : c.listings[h']? = some l)
      (hg : l.generation = c'.generation) : l.generation = c.generation := by
    have := (h.mine h' l hl).2
    omega
  constructor
  · intro h' l hl
    rw [hlistings] at hl
    have := h.mine h' l hl
    exact ⟨this.1.trans hkept.id.symm, this.2.trans hgen⟩
  · intro h' l p id hl ht
    rw [hlistings] at hl
    rw [hkept.nextRequestId]
    exact h.directory h' l p id hl ht
  · rw [hlistings]
    exact h.once
  · intro row' hrow' id hid
    obtain ⟨row, hrow, hid⟩ := hrows row' hrow' id hid
    rw [hkept.nextRequestId]
    exact h.rows row hrow id hid
  · intro h' l hl hg
    rw [hlistings] at hl
    rw [since_of_append hmore hl, List.mem_append, not_or]
    exact ⟨h.current h' l hl (hsame hl hg), hrestarted⟩
  · intro h' l hl ht hg
    rw [hlistings] at hl
    rw [hroot]
    exact h.root h' l hl ht (hsame hl hg)
  · intro h₁ h₂ l₁ l₂ hl₁ hl₂ ht₁ ht₂ hg₁ hg₂
    rw [hlistings] at hl₁ hl₂
    exact h.rootOnce h₁ h₂ l₁ l₂ hl₁ hl₂ ht₁ ht₂ (hsame hl₁ hg₁) (hsame hl₂ hg₂)

/-- A row is expanded. -/
theorem Ledger.expand (h : Ledger c) (hok : Expandable c i)
    (heq : c.startDirectoryListing i = some c') : Ledger c' := by
  obtain ⟨row, hrow, hbegin, hgen, hid, hnext, hhist⟩ := startDirectoryListing_spec heq
  obtain ⟨-, -, -, -, hlimit⟩ := hok
  rw [freshId_eq hlimit] at hbegin hnext hhist
  obtain ⟨t', hb, hmark, -, hroot, -⟩ := Tree.beginExpansion_spec (c.nextRequestId + 1) hrow
  obtain rfl : c'.tree = t' := by
    rw [hbegin, Option.some.injEq, Prod.mk.injEq] at hb
    exact hb.1
  have hlistings := listings_append hhist
  have hlast : since c'.history c.listings.length = [] := by
    rw [hhist, List.append_cons]
    have := since_last (c.history ++ [.expanded row (c.tree.beneath i)])
      { path := row.path
        contextId := c.id
        generation := c.generation
        target := .directory row.path (c.nextRequestId + 1) }
    rwa [spawned_append, show spawned [Happened.expanded row (c.tree.beneath i)] = [] from rfl,
      List.append_nil] at this
  constructor
  · intro h' l hl
    rw [hid, hgen]
    rcases listings_cases hlistings hl with hl | ⟨-, rfl⟩
    · exact h.mine h' l hl
    · exact ⟨rfl, Nat.le_refl _⟩
  · intro h' l p id hl ht
    rw [hnext]
    rcases listings_cases hlistings hl with hl | ⟨-, rfl⟩
    · have := h.directory h' l p id hl ht
      exact ⟨this.1, by omega⟩
    · obtain ⟨rfl, rfl⟩ := ListingTarget.directory.inj ht
      exact ⟨rfl, Nat.le_refl _⟩
  · intro h₁ h₂ l₁ l₂ p₁ p₂ id hl₁ hl₂ ht₁ ht₂
    rcases listings_cases hlistings hl₁ with hl₁ | ⟨rfl, rfl⟩
    · rcases listings_cases hlistings hl₂ with hl₂ | ⟨rfl, rfl⟩
      · exact h.once h₁ h₂ l₁ l₂ p₁ p₂ id hl₁ hl₂ ht₁ ht₂
      · have := (h.directory h₁ l₁ p₁ id hl₁ ht₁).2
        obtain ⟨-, rfl⟩ := ListingTarget.directory.inj ht₂
        omega
    · rcases listings_cases hlistings hl₂ with hl₂ | ⟨rfl, rfl⟩
      · have := (h.directory h₂ l₂ p₂ id hl₂ ht₂).2
        obtain ⟨-, rfl⟩ := ListingTarget.directory.inj ht₁
        omega
      · rfl
  · intro row' hrow' id hrid
    rw [hnext]
    obtain ⟨j, hj⟩ := List.mem_iff_getElem?.mp hrow'
    obtain ⟨old, hold, ⟨-, rfl⟩ | ⟨-, rfl⟩⟩ := hmark.cases hj
    · obtain rfl := Option.some.inj hrid
      exact Nat.le_refl _
    · have := h.rows _ (List.mem_of_getElem? hold) id hrid
      omega
  · intro h' l hl hg
    rcases listings_cases hlistings hl with hl | ⟨rfl, rfl⟩
    · rw [since_of_append hhist hl, List.mem_append, not_or]
      exact ⟨h.current h' l hl (hg.trans hgen), by simp⟩
    · rw [hlast]
      exact List.not_mem_nil
  · intro h' l hl ht hg
    rw [hroot]
    rcases listings_cases hlistings hl with hl | ⟨-, rfl⟩
    · exact h.root h' l hl ht (hg.trans hgen)
    · simp at ht
  · intro h₁ h₂ l₁ l₂ hl₁ hl₂ ht₁ ht₂ hg₁ hg₂
    rcases listings_cases hlistings hl₁ with hl₁ | ⟨-, rfl⟩
    · rcases listings_cases hlistings hl₂ with hl₂ | ⟨-, rfl⟩
      · exact h.rootOnce h₁ h₂ l₁ l₂ hl₁ hl₂ ht₁ ht₂ (hg₁.trans hgen) (hg₂.trans hgen)
      · simp at ht₂
    · simp at ht₁

/-- The root is listed again. -/
theorem Ledger.restart (h : Ledger c) (hr : Restarted c c')
    (hlimit : c.generation + 1 < counterLimit) : Ledger c' := by
  obtain ⟨handles, hhist⟩ := hr.history
  have hgen : c'.generation = c.generation + 1 := hr.generation.trans (Nat.mod_eq_of_lt hlimit)
  have hmore : c'.history = c.history ++ (handles.map .aborted ++ [.restarted, .spawned
      { path := c'.tree.rootPath
        contextId := c.id
        generation := c'.generation
        target := .root }]) := by rw [hhist, List.append_assoc]
  have hlistings := listings_append hmore
  rw [spawned_append, spawned_aborted, List.nil_append] at hlistings
  have hlast : since c'.history c.listings.length = [] := by
    rw [hhist, List.append_cons]
    have := since_last (c.history ++ handles.map .aborted ++ [.restarted])
      { path := c'.tree.rootPath
        contextId := c.id
        generation := c'.generation
        target := .root }
    rwa [spawned_append, spawned_append, spawned_aborted, List.append_nil,
      show spawned [(Happened.restarted : Happened μ)] = [] from rfl, List.append_nil] at this
  constructor
  · intro h' l hl
    rw [hr.kept.id]
    rcases listings_cases hlistings hl with hl | ⟨-, rfl⟩
    · have := h.mine h' l hl
      exact ⟨this.1, by omega⟩
    · exact ⟨rfl, Nat.le_refl _⟩
  · intro h' l p id hl ht
    rw [hr.kept.nextRequestId]
    rcases listings_cases hlistings hl with hl | ⟨-, rfl⟩
    · exact h.directory h' l p id hl ht
    · simp at ht
  · intro h₁ h₂ l₁ l₂ p₁ p₂ id hl₁ hl₂ ht₁ ht₂
    rcases listings_cases hlistings hl₁ with hl₁ | ⟨-, rfl⟩
    · rcases listings_cases hlistings hl₂ with hl₂ | ⟨-, rfl⟩
      · exact h.once h₁ h₂ l₁ l₂ p₁ p₂ id hl₁ hl₂ ht₁ ht₂
      · simp at ht₂
    · simp at ht₁
  · intro row hrow
    rw [hr.rows] at hrow
    simp at hrow
  · intro h' l hl hg
    rcases listings_cases hlistings hl with hl | ⟨rfl, -⟩
    · have := (h.mine h' l hl).2
      omega
    · rw [hlast]
      exact List.not_mem_nil
  · intro h' l hl ht hg
    rcases listings_cases hlistings hl with hl | ⟨-, rfl⟩
    · have := (h.mine h' l hl).2
      omega
    · rfl
  · intro h₁ h₂ l₁ l₂ hl₁ hl₂ ht₁ ht₂ hg₁ hg₂
    have hnew {h' : Nat} {l : Listing} (hl : c'.listings[h']? = some l)
        (hg : l.generation = c'.generation) : h' = c.listings.length := by
      rcases listings_cases hlistings hl with hl | ⟨rfl, -⟩
      · have := (h.mine h' l hl).2
        omega
      · rfl
    rw [hnew hl₁ hg₁, hnew hl₂ hg₂]

/-- **The ledger is kept** by every move. -/
theorem Ledger.move (h : Ledger c) (hwf : c.tree.Wf e) (hok : MoveOk Expandable c m)
    (heq : c.move m = some c') : Ledger c' := by
  cases m with
  | look selected filter offset height =>
    obtain rfl := Option.some.inj heq
    exact h.quiet [] ⟨rfl, rfl⟩ (List.append_nil _).symm rfl List.not_mem_nil
      (Nat.le_refl _) rfl fun row hrow id hid => ⟨row, hrow, hid⟩
  | expand i => exact h.expand hok heq
  | collapse i =>
    obtain ⟨row, ids, hrow, hcollapse, hgen, hkept, handles, hhist⟩ := collapseDirectory_spec heq
    obtain ⟨t', stop, hc, hend, -, hrem⟩ := Tree.collapse_spec hwf hrow
    obtain rfl : c'.tree = t' := by
      rw [hcollapse, Option.some.injEq, Prod.mk.injEq] at hc
      exact hc.1
    refine h.quiet _ hkept hhist ?_ (by simp) (Nat.le_of_eq hgen.symm) hrem.rootPath ?_
    · exact spawned_aborted handles
    · intro row' hrow' id hid
      obtain ⟨j, hj⟩ := List.mem_iff_getElem?.mp hrow'
      obtain ⟨m, -, -, old, hold, ⟨-, rfl⟩ | ⟨-, rfl⟩⟩ := hrem.cases hend hrow hj
      · simp [Expansion.requestId] at hid
      · exact ⟨_, List.mem_of_getElem? hold, hid⟩
  | restart =>
    obtain rfl := Option.some.inj heq
    exact h.restart (restarted_startRootListing c) hok
  | reroot rootPath =>
    obtain rfl := Option.some.inj heq
    exact h.restart (restarted_changeRootPath c rootPath) hok
  | cancel =>
    obtain rfl := Option.some.inj heq
    obtain ⟨htree, hgen, hkept, handles, hhist⟩ := cancel_spec c
    rw [wrappingSucc, Nat.mod_eq_of_lt hok] at hgen
    refine h.quiet _ hkept hhist (spawned_aborted handles) (by simp) (by omega) (by rw [htree]) ?_
    intro row hrow id hid
    rw [htree] at hrow
    exact ⟨row, hrow, hid⟩

/-- What a listing sends brings no request in, and leaves the root as it is. -/
theorem requests_of_event {t t' : Tree μ} {event : BrowserContextEvent μ} (hwf : t.Wf e)
    (h : t.apply event.op = some t') : t'.rootPath = t.rootPath ∧
    ∀ row' ∈ t'.rows, ∀ id : Nat, row'.expansion.requestId = some id →
      ∃ row ∈ t.rows, row.expansion.requestId = some id := by
  -- Rows that come in are collapsed.
  have inserted {k d : Nat} {new : List (Row μ)} (hins : t.Inserted t' k new d)
      (hnew : ∀ r ∈ new, r.expansion = .collapsed) : ∀ row' ∈ t'.rows, ∀ id : Nat,
      row'.expansion.requestId = some id → ∃ row ∈ t.rows, row.expansion.requestId = some id := by
    intro row' hrow' id hid
    rw [hins.1, splice, List.append_assoc, List.mem_append, List.mem_append] at hrow'
    rcases hrow' with hrow' | hrow' | hrow'
    · exact ⟨row', List.mem_of_mem_take hrow', hid⟩
    · rw [hnew row' hrow'] at hid
      simp [Expansion.requestId] at hid
    · exact ⟨row', List.mem_of_mem_drop hrow', hid⟩
  have same (heq : t' = t) : t'.rootPath = t.rootPath ∧ ∀ row' ∈ t'.rows, ∀ id : Nat,
      row'.expansion.requestId = some id → ∃ row ∈ t.rows, row.expansion.requestId = some id :=
    ⟨by rw [heq], fun row' hrow' id hid => ⟨row', heq ▸ hrow', hid⟩⟩
  have finished {id : RequestId} {result : Except String Unit}
      (h : t.finishChild id result = some t') : t'.rootPath = t.rootPath ∧
      ∀ row' ∈ t'.rows, ∀ id : Nat, row'.expansion.requestId = some id →
        ∃ row ∈ t.rows, row.expansion.requestId = some id := by
    cases hp : t.placements.lookup id with
    | none => exact same (Option.some.inj (h.symm.trans (Tree.finishChild_none hp result)))
    | some p =>
      obtain ⟨t₂, heq, hmark, -, hroot, -⟩ := Tree.finishChild_spec hwf hp result
      obtain rfl : t' = t₂ := Option.some.inj (h.symm.trans heq)
      refine ⟨hroot, fun row' hrow' id' hid => ?_⟩
      obtain ⟨j, hj⟩ := List.mem_iff_getElem?.mp hrow'
      obtain ⟨old, hold, ⟨rfl, rfl⟩ | ⟨-, rfl⟩⟩ := hmark.cases hj
      · obtain ⟨row, hrow, hl⟩ := hwf.loading id p hp
        rw [Tree.finished_requestId] at hid
        exact ⟨row, List.mem_of_getElem? hrow, by rw [hl]; exact hid⟩
      · exact ⟨_, List.mem_of_getElem? hold, hid⟩
  cases htarget : event.target with
  | root =>
    cases hresult : event.result with
    | entries entries =>
      rw [BrowserContextEvent.op, htarget, hresult] at h
      obtain rfl := Option.some.inj h
      obtain ⟨hins, hroot, -⟩ := Tree.extendRoot_spec t entries
      refine ⟨hroot, inserted hins fun r hr => ?_⟩
      obtain ⟨entry, -, rfl⟩ := List.mem_map.mp hr
      rfl
    | finished =>
      rw [BrowserContextEvent.op, htarget, hresult] at h
      obtain rfl := Option.some.inj h
      exact ⟨rfl, fun row' hrow' id hid => ⟨row', hrow', hid⟩⟩
    | failed error =>
      rw [BrowserContextEvent.op, htarget, hresult] at h
      obtain rfl := Option.some.inj h
      exact ⟨rfl, fun row' hrow' id hid => ⟨row', hrow', hid⟩⟩
  | directory path id =>
    cases hresult : event.result with
    | entries entries =>
      rw [BrowserContextEvent.op, htarget, hresult] at h
      cases hp : t.placements.lookup id with
      | none => exact same (Option.some.inj (h.symm.trans (Tree.extendChild_none hp entries)))
      | some p =>
        obtain ⟨parent, t₂, hparent, heq, hins, hroot, -⟩ := Tree.extendChild_spec hwf hp entries
        obtain rfl : t' = t₂ := Option.some.inj (h.symm.trans heq)
        refine ⟨hroot, inserted hins fun r hr => ?_⟩
        obtain ⟨entry, -, rfl⟩ := List.mem_map.mp hr
        rfl
    | finished =>
      rw [BrowserContextEvent.op, htarget, hresult] at h
      have h : t.finishChild id (.ok ()) = some t' := h
      exact finished h
    | failed error =>
      rw [BrowserContextEvent.op, htarget, hresult] at h
      have h : t.finishChild id (.error error) = some t' := h
      exact finished h

/-- Events keep the ledger. -/
theorem Ledger.event {event : BrowserContextEvent μ} (h : Ledger c) (hwf : c.tree.Wf e)
    (hcur : Current c event) (heq : c.apply event = some c') : Ledger c' := by
  obtain ⟨htree, hhist, hgen, hkept⟩ := apply_of_current hwf hcur heq
  obtain ⟨hroot, hrows⟩ := requests_of_event hwf htree
  exact h.quiet [] hkept (by rw [hhist, List.append_nil]) rfl List.not_mem_nil
    (Nat.le_of_eq hgen.symm) hroot hrows

theorem ledger_new (id : ContextId) (rootPath : PathString) :
    Ledger (BrowserContext.new id rootPath : BrowserContext μ) := by
  have hone : (BrowserContext.new id rootPath : BrowserContext μ).listings =
      [{ path := rootPath, contextId := id, generation := 1, target := .root }] := rfl
  have hlisting {h : Nat} {l : Listing}
      (hl : (BrowserContext.new id rootPath : BrowserContext μ).listings[h]? = some l) :
      h = 0 ∧ l = { path := rootPath, contextId := id, generation := 1, target := .root } := by
    rw [hone] at hl
    obtain ⟨hlt, hget⟩ := List.getElem?_eq_some_iff.mp hl
    rw [List.length_singleton] at hlt
    rw [List.getElem_singleton] at hget
    exact ⟨by omega, hget.symm⟩
  constructor
  · intro h l hl
    obtain ⟨-, rfl⟩ := hlisting hl
    exact ⟨rfl, Nat.le_refl 1⟩
  · intro h l p id hl ht
    obtain ⟨-, rfl⟩ := hlisting hl
    simp at ht
  · intro h h' l l' p p' id hl hl' _ _
    rw [(hlisting hl).1, (hlisting hl').1]
  · intro row hrow
    exact absurd hrow List.not_mem_nil
  · intro h l hl _
    obtain ⟨rfl, rfl⟩ := hlisting hl
    exact List.not_mem_nil
  · intro h l hl _ _
    obtain ⟨-, rfl⟩ := hlisting hl
    rfl
  · intro h h' l l' hl hl' _ _ _ _
    rw [(hlisting hl).1, (hlisting hl').1]

end BrowserContext

/-! ### Whole runs -/

open BrowserContext

variable {m : Move}

def entriesOf (ss : List (Sent μ)) : List (DirectoryEntry μ) :=
  ss.flatMap fun s => s.event.result.group

@[simp] theorem entriesOf_append (ss ss' : List (Sent μ)) :
    entriesOf (ss ++ ss') = entriesOf ss ++ entriesOf ss' := List.flatMap_append

/-- No counter comes round, and no row is expanded at the deepest level. -/
def InRange [Lowercase] (w : World μ) : WorldAct μ → Prop
  | .key op =>
    (op.renews → w.context.generation + 1 < counterLimit) ∧
      ∀ i ∈ w.context.opens op, w.context.nextRequestId + 1 < counterLimit ∧
        ∀ row ∈ w.context.tree.rows[i]?, row.depth < maxDepth
  | .send .. | .receive => True

instance [Lowercase] (w : World μ) : (a : WorldAct μ) → Decidable (InRange w a)
  | .key op => inferInstanceAs (Decidable ((op.renews → w.context.generation + 1 < counterLimit) ∧
      ∀ i ∈ w.context.opens op, w.context.nextRequestId + 1 < counterLimit ∧
        ∀ row ∈ w.context.tree.rows[i]?, row.depth < maxDepth))
  | .send .. | .receive => .isTrue trivial

/-- A row that a keystroke opens in range is expandable. -/
theorem expandable_of_opens [Lowercase] {w : World μ} {op : ContextOp} (h : InRange w (.key op))
    {i : Nat} (hi : w.context.opens op = some i) : Expandable w.context i := by
  obtain ⟨row, hrow, hclosed⟩ := closed_of_opens hi
  obtain ⟨hlimit, hdepth⟩ := h.2 i hi
  refine ⟨row, hrow, fun id heq => ?_, hdepth row hrow, hlimit⟩
  rcases hclosed with hc | ⟨id', error, hc⟩
  · rw [hc] at heq
    simp at heq
  · rw [hc] at heq
    simp at heq

/-- A keystroke only adds to the history. -/
theorem history_of_move {c c' : BrowserContext μ} (h : c.move m = some c') :
    ∃ more, c'.history = c.history ++ more := by
  cases m with
  | look selected filter offset height =>
    obtain rfl := Option.some.inj h
    exact ⟨[], (List.append_nil _).symm⟩
  | expand i =>
    obtain ⟨row, -, -, -, -, -, hhist⟩ := startDirectoryListing_spec h
    exact ⟨_, hhist⟩
  | collapse i =>
    obtain ⟨row, ids, -, -, -, -, handles, hhist⟩ := collapseDirectory_spec h
    exact ⟨_, hhist⟩
  | restart =>
    obtain rfl := Option.some.inj h
    obtain ⟨handles, hhist⟩ := (restarted_startRootListing c).history
    exact ⟨_, by rw [hhist, List.append_assoc]⟩
  | reroot rootPath =>
    obtain rfl := Option.some.inj h
    obtain ⟨handles, hhist⟩ := (restarted_changeRootPath c rootPath).history
    exact ⟨_, by rw [hhist, List.append_assoc]⟩
  | cancel =>
    obtain rfl := Option.some.inj h
    obtain ⟨-, -, -, handles, hhist⟩ := cancel_spec c
    exact ⟨_, hhist⟩

theorem history_of_moves {c c' : BrowserContext μ} {may : BrowserContext μ → Nat → Prop}
    (h : Moves may c c') : ∃ more, c'.history = c.history ++ more := by
  induction h with
  | refl => exact ⟨[], (List.append_nil _).symm⟩
  | tail _ _ hstep ih =>
    obtain ⟨more, hmore⟩ := ih
    obtain ⟨last, hlast⟩ := history_of_move hstep
    exact ⟨more ++ last, by rw [hlast, hmore, List.append_assoc]⟩

end FilePeeker.Browser
