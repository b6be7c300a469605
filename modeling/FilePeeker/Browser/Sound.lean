import FilePeeker.Browser.Ledger
import FilePeeker.Browser.Without

/-!
# What holds of every browser

`Sound` is what no keystroke and no event breaks as long as no counter comes round:
the rows and placements fit, nothing is beneath a collapsed row, and the ledger is
right.  In a sound world each event is that of the listing which sent it.
-/

namespace FilePeeker.Browser

open PreOrder BrowserContext

variable {μ : Type} {c c' : BrowserContext μ} {w w' : World μ} {m : Move}

structure Sound (c : BrowserContext μ) : Prop where
  wf : c.tree.Wf 1
  leaves : c.tree.Leaves
  ledger : c.Ledger

/-- The rows and the placements are the same. -/
theorem Sound.same (h : Sound c) (hrows : c'.tree.rows = c.tree.rows)
    (hplacements : c'.tree.placements = c.tree.placements) (hledger : c'.Ledger) : Sound c' := by
  obtain ⟨h₁, h₂, h₃, h₄, h₅⟩ := h.wf
  refine ⟨⟨?_, ?_, ?_, ?_, ?_⟩, Tree.leaves_of_rows h.leaves hrows, hledger⟩
  · rwa [Tree.depths, hrows]
  · rwa [hplacements, Tree.depths, hrows]
  · rwa [hplacements, hrows]
  · rwa [hplacements, hrows]
  · rwa [hrows]

theorem Sound.restart (hr : Restarted c c') (hledger : c'.Ledger) : Sound c' := by
  have hnone {i : Nat} {row : Row μ} : ¬ c'.tree.rows[i]? = some row := by
    rw [hr.rows]
    simp
  refine ⟨⟨?_, ?_, ?_, ?_, ?_⟩, fun i row next hi => absurd hi hnone, hledger⟩
  · rw [Tree.depths, hr.rows]
    exact outline_nil
  · rw [hr.placements]
    simp
  · rw [hr.placements]
    simp
  · exact fun i row id hi => absurd hi hnone
  · exact fun i j row row' id hi => absurd hi hnone

theorem Sound.move (h : Sound c) (hok : MoveOk Expandable c m) (heq : c.move m = some c') :
    Sound c' := by
  have hledger := h.ledger.move h.wf hok heq
  cases m with
  | look selected filter offset height =>
    obtain rfl := Option.some.inj heq
    exact h.same rfl rfl hledger
  | expand i =>
    obtain ⟨row, hrow, hbegin, -⟩ := startDirectoryListing_spec heq
    obtain ⟨row₂, hrow₂, hidle, hdepth, hlimit⟩ := hok
    obtain rfl : row₂ = row := Option.some.inj (hrow₂.symm.trans hrow)
    obtain ⟨t', hb, hmark, -⟩ := Tree.beginExpansion_spec c.freshId hrow
    obtain rfl : c'.tree = t' := by
      rw [hbegin, Option.some.injEq, Prod.mk.injEq] at hb
      exact hb.1
    exact ⟨h.wf.beginExpansion hrow hidle (h.ledger.fresh hlimit) hdepth
      (h.wf.outline.slot (Tree.depths_of_row hrow)) hbegin,
      h.leaves.marked hmark (by simp), hledger⟩
  | collapse i =>
    obtain ⟨row, ids, hrow, hcollapse, -⟩ := collapseDirectory_spec heq
    obtain ⟨t', stop, hc, hend, -, hrem⟩ := Tree.collapse_spec h.wf hrow
    obtain rfl : c'.tree = t' := by
      rw [hcollapse, Option.some.injEq, Prod.mk.injEq] at hc
      exact hc.1
    exact ⟨h.wf.collapse (Nat.le_refl 1) hrow hend hrem, h.leaves.removed hrem hend hrow, hledger⟩
  | restart =>
    obtain rfl := Option.some.inj heq
    exact .restart (restarted_startRootListing c) hledger
  | reroot rootPath =>
    obtain rfl := Option.some.inj heq
    exact .restart (restarted_changeRootPath c rootPath) hledger
  | cancel =>
    obtain rfl := Option.some.inj heq
    obtain ⟨htree, -⟩ := cancel_spec c
    exact h.same (by rw [htree]) (by rw [htree]) hledger

theorem Sound.moves (h : Sound c) (hmoves : Moves Expandable c c') : Sound c' :=
  hmoves.invariant (fun _ _ _ hc hok heq => hc.move hok heq) h

variable {t t' : Tree μ} {id : Nat} {entries : List (DirectoryEntry μ)}
  {result : Except String Unit}

theorem Tree.Leaves.extendRoot (h : t.Leaves) (entries : List (DirectoryEntry μ)) :
    (t.extendRoot entries).Leaves := by
  refine h.inserted (extendRoot_spec t entries).1 (Nat.le_refl _) ?_
    (fun row _ _ _ => Nat.zero_le _) fun row hrow => ?_
  · intro r hr
    obtain ⟨entry, -, rfl⟩ := List.mem_map.mp hr
    exact ⟨rfl, rfl⟩
  · rw [List.getElem?_eq_none (Nat.le_refl _)] at hrow
    cases hrow

theorem Tree.Leaves.extendChild (h : t.Leaves) (hwf : t.Wf 1)
    (ht : t.extendChild id entries = some t') : t'.Leaves := by
  cases hp : t.placements.lookup id with
  | none =>
    rw [extendChild_none hp, Option.some.injEq] at ht
    exact ht ▸ h
  | some p =>
    obtain ⟨parent, t₂, hparent, heq, hins, -⟩ := extendChild_spec hwf hp entries
    obtain rfl : t' = t₂ := Option.some.inj (ht.symm.trans heq)
    have hslot := hwf.slot id p hp
    have hlt := hslot.lt
    refine h.inserted hins ?_ (childRows_collapsed parent p.depth entries) ?_ ?_
    · have := hslot.le
      rwa [length_depths] at this
    · intro row hpos hrow hcollapsed
      rcases Nat.lt_or_eq_of_le (show p.parent ≤ p.insertion - 1 by omega) with hlt' | heq'
      · exact hslot.within _ _ hlt' (by omega) (depths_of_row hrow)
      · -- The row that loads is not collapsed.
        obtain ⟨row', hrow', hl⟩ := hwf.loading id p hp
        rw [← heq'] at hrow
        obtain rfl := Option.some.inj (hrow.symm.trans hrow')
        rw [hcollapsed] at hl
        cases hl
    · intro row hrow
      have := hslot.next _ (depths_of_row hrow)
      omega

theorem Tree.Leaves.finishChild (h : t.Leaves) (hwf : t.Wf 1)
    (ht : t.finishChild id result = some t') : t'.Leaves := by
  cases hp : t.placements.lookup id with
  | none =>
    rw [finishChild_none hp, Option.some.injEq] at ht
    exact ht ▸ h
  | some p =>
    obtain ⟨t₂, heq, hmark, -⟩ := finishChild_spec hwf hp result
    obtain rfl : t' = t₂ := Option.some.inj (ht.symm.trans heq)
    refine h.marked hmark fun hcollapsed => ?_
    have := finished_requestId id result
    rw [hcollapsed] at this
    cases this

theorem wf_of_event {event : BrowserContextEvent μ} (hwf : t.Wf 1)
    (ht : t.apply event.op = some t') : t'.Wf 1 := by
  have extended {id : Nat} {entries : List (DirectoryEntry μ)}
      (ht : t.extendChild id entries = some t') : t'.Wf 1 := by
    cases hp : t.placements.lookup id with
    | none => exact Option.some.inj ((Tree.extendChild_none hp entries).symm.trans ht) ▸ hwf
    | some p => exact hwf.extendChild (Nat.le_refl 1) hp ht
  have finished {id : Nat} {result : Except String Unit}
      (ht : t.finishChild id result = some t') : t'.Wf 1 := by
    cases hp : t.placements.lookup id with
    | none => exact Option.some.inj ((Tree.finishChild_none hp result).symm.trans ht) ▸ hwf
    | some p => exact hwf.finishChild hp ht
  unfold BrowserContextEvent.op at ht
  split at ht
  · exact Option.some.inj ht ▸ hwf.extendRoot _
  · exact Option.some.inj ht ▸ hwf.finishRoot _
  · exact Option.some.inj ht ▸ hwf.finishRoot _
  · exact extended ht
  · exact finished (show t.finishChild _ (.ok ()) = some t' from ht)
  · exact finished (show t.finishChild _ (.error _) = some t' from ht)

theorem leaves_of_event {event : BrowserContextEvent μ} (hwf : t.Wf 1) (hleaves : t.Leaves)
    (ht : t.apply event.op = some t') : t'.Leaves := by
  unfold BrowserContextEvent.op at ht
  split at ht
  · obtain rfl := Option.some.inj ht
    exact hleaves.extendRoot _
  · obtain rfl := Option.some.inj ht
    exact Tree.leaves_of_rows hleaves rfl
  · obtain rfl := Option.some.inj ht
    exact Tree.leaves_of_rows hleaves rfl
  · exact hleaves.extendChild hwf ht
  · exact hleaves.finishChild hwf (show t.finishChild _ (.ok ()) = some t' from ht)
  · exact hleaves.finishChild hwf (show t.finishChild _ (.error _) = some t' from ht)

theorem Sound.event {event : BrowserContextEvent μ} (h : Sound c)
    (heq : c.apply event = some c') : Sound c' := by
  by_cases hcur : Current c event
  · have htree := (apply_of_current h.wf hcur heq).1
    exact ⟨wf_of_event h.wf htree, leaves_of_event h.wf h.leaves htree,
      h.ledger.event h.wf hcur heq⟩
  · exact Option.some.inj ((apply_of_not_current h.wf hcur).symm.trans heq) ▸ h

theorem sound_new (id : ContextId) (rootPath : PathString) :
    Sound (BrowserContext.new id rootPath : BrowserContext μ) := by
  refine ⟨Tree.wf_restart _, ?_, ledger_new id rootPath⟩
  intro i row next hi
  exact absurd hi (by simp [BrowserContext.new, startRootListing, record, abortTreeListings,
    Tree.restart])

/-! ### Whole runs -/

structure SoundWorld (w : World μ) : Prop where
  sound : Sound w.context
  sent : ∀ s ∈ w.sent, ∃ l : Listing, w.context.listings[s.handle]? = some l ∧
    s.event = l.event s.event.result

variable [Lowercase] {a : WorldAct μ}

theorem SoundWorld.step (h : SoundWorld w) (hok : InRange w a) (heq : w.step a = some w') :
    SoundWorld w' := by
  cases a with
  | key op =>
    obtain ⟨context, hact, rfl⟩ := Option.map_eq_some_iff.mp heq
    have hmoves := moves_of_act Expandable hok.1 (fun i hi => expandable_of_opens hok hi) hact
    obtain ⟨more, hmore⟩ := history_of_moves hmoves
    refine ⟨h.sound.moves hmoves, fun s hs => ?_⟩
    obtain ⟨l, hl, hevent⟩ := h.sent s hs
    refine ⟨l, ?_, hevent⟩
    show context.listings[s.handle]? = some l
    rw [listings_append hmore, List.getElem?_append_left (List.getElem?_eq_some_iff.mp hl).1, hl]
  | send handle result =>
    rw [World.step] at heq
    split at heq
    · cases heq
    · next l hl =>
      split at heq
      · obtain rfl := Option.some.inj heq
        refine ⟨h.sound, fun s hs => ?_⟩
        rw [World.sent, ← List.append_assoc, List.mem_append, List.mem_singleton] at hs
        rcases hs with hs | rfl
        · exact h.sent s hs
        · exact ⟨l, hl, rfl⟩
      · cases heq
  | receive =>
    rw [World.step] at heq
    split at heq
    · cases heq
    · next s channel hchannel =>
      obtain ⟨context, happly, rfl⟩ := Option.map_eq_some_iff.mp heq
      have hkept : context.history = w.context.history := by
        by_cases hcur : Current w.context s.event
        · exact (apply_of_current h.sound.wf hcur happly).2.1
        · rw [Option.some.inj (happly.symm.trans (apply_of_not_current h.sound.wf hcur))]
      refine ⟨h.sound.event happly, fun s' hs' => ?_⟩
      rw [World.sent, List.append_assoc, List.singleton_append, ← hchannel] at hs'
      obtain ⟨l, hl, hevent⟩ := h.sent s' hs'
      refine ⟨l, ?_, hevent⟩
      rw [listings_eq, hkept, ← listings_eq]
      exact hl

theorem soundWorld_run {id : ContextId} {rootPath : PathString}
    (h : Steps World.step InRange (World.new id rootPath) w) : SoundWorld w := by
  refine h.invariant (fun w a w' hw hok heq => hw.step hok heq) ⟨sound_new id rootPath, ?_⟩
  intro s hs
  exact absurd hs List.not_mem_nil

end FilePeeker.Browser
