import FilePeeker.Fs.Moves

/-!
# No partial file is left

When a write is at its end, its partial file is gone, or could not be removed: the guard
removes it, or it was renamed into place (`no_partial_left`).

What no guard has is a file that `create_partial` makes while nothing waits for it any
more.  A future that is dropped at that point leaves the operation to the pool, and the
file that it makes, or has made, stays (`Late`).  `InTime` is a step that is no such one.
-/

namespace FilePeeker

open FilePeeker.Path

namespace Fs

open Directory

variable {w w' w₀ : World} {a : Action} {pc : Pc} {pool : Pool} {t : Target} {path : Bytes}
  {inode : Nat} {o : Open} {conflict : WriteConflict} {result : Option (Except FsError Written)}

/-- The partial file is not at its name, unless its removal failed. -/
def Tidy (w : World) : Prop :=
  ∀ path inode, w.past.made = some (path, inode) → w.files.entry path = some inode →
    w.past.stuck = true

/-- A new file is there to be taken. -/
def Pool.opened : Pool → Bool
  | .finished (.opened (.ok _)) => true
  | _ => false

/-- A new file is about to be made. -/
def Pool.opens : Pool → Bool
  | .running (.openNew _) => true
  | _ => false

def Pc.isEnded : Pc → Bool
  | .ended _ => true
  | _ => false

theorem Pool.opened_iff : pool.opened ↔ ∃ inode, pool = .finished (.opened (.ok inode)) := by
  unfold Pool.opened
  split
  · simp
  · next hne => simpa using hne

theorem Pool.opens_iff : pool.opens ↔ ∃ path, pool = .running (.openNew path) := by
  unfold Pool.opens
  split
  · simp
  · next hne => simpa using hne

theorem Pc.isEnded_iff : pc.isEnded ↔ ∃ result, pc = .ended result := by
  unfold Pc.isEnded
  split
  · simp
  · next hne => simpa using hne

/-- The future is not dropped where it is about to take a new file, and no file is made for
it when it is at its end. -/
def InTime (w : World) : Action → Prop
  | .drop => ¬ w.pool.opened
  | .finish none => ¬ (w.pc.isEnded ∧ w.pool.opens)
  | _ => True

instance (w : World) : (a : Action) → Decidable (InTime w a)
  | .drop => inferInstanceAs (Decidable (¬ w.pool.opened))
  | .finish none => inferInstanceAs (Decidable (¬ (w.pc.isEnded ∧ w.pool.opens)))
  | .finish (some _) | .begin | .receive | .tryName _ | .pull _ | .store _ | .publish
  | .removePartial _ | .finishDirectory _ | .progress _ | .other _ => .isTrue trivial

/-- At its end a write is tidy; and a file that was renamed is not at its name before the
future has taken that. -/
def Neat (w : World) : Prop :=
  match w.pc with
  | .ended _ => Tidy w
  | .publishing _ path _ => w.request.conflict = .replace →
      w.pool = .finished (.published (.ok ())) →
      ∀ inode, w.past.made = some (path, inode) → w.files.entry path ≠ some inode
  | _ => True

theorem Fits.made_of_refused (h : Fits w w.pc w.pool) (hu : Unguarded w.pc w.pool) :
    w.past.made = none := by
  cases hpc : w.pc with
  | start =>
    rw [hpc] at h
    exact h.2
  | directory t | destination t | naming t left =>
    rw [hpc] at h
    exact h.2.2
  | creating t left path =>
    rw [hpc] at hu
    obtain ⟨error, hpool⟩ := hu
    exact (h.made_of_unguarded (.inr (.inr ⟨left, path, error, hpc, hpool⟩))).2
  | _ =>
    rw [hpc] at hu
    cases hu

/-- A future that is dropped without a guard has made no file, or was about to take it. -/
theorem Fits.made_of_dropped (h : Fits w w.pc w.pool)
    (hguard : World.dropGuard w.pc = some none) : w.past.made = none ∨
      ∃ t left path inode, w.pc = .creating t left path ∧
        w.pool = .finished (.opened (.ok inode)) ∧ w.past.made = some (path, inode) := by
  cases hpc : w.pc with
  | start =>
    rw [hpc] at h
    exact .inl h.2
  | directory t | destination t =>
    rw [hpc] at h
    exact .inl h.2.2
  | creating t left path =>
    rw [hpc] at h
    obtain ⟨-, -, ⟨-, hmade⟩ | ⟨-, hmade⟩ | ⟨inode, hpool, hmade, -⟩⟩ := h
    · exact .inl hmade
    · exact .inl hmade
    · exact .inr ⟨t, left, path, inode, rfl, hpool, hmade⟩
  | _ =>
    rw [hpc] at hguard
    cases hguard

theorem tidy_of_made_none (h : w.past.made = none) : Tidy w := by
  intro path inode hmade
  rw [h] at hmade
  cases hmade

/-- A partial file is not at its name once it is renamed. -/
theorem Shape.renamed {src dst : Bytes} {files : Directory Bytes UInt8} (h : Shape w)
    (hpool : w.pool = .running (.rename src dst)) (hrename : w.files.rename src dst = some files)
    (hmade : w.past.made = some (path, inode)) : files.entry path ≠ some inode := by
  have hworks := h.works
  rw [hpool] at hworks
  obtain ⟨hnone, -, t, inode', ht, rfl, hmade'⟩ := hworks
  obtain ⟨rfl, rfl⟩ := Prod.mk.inj (Option.some.inj (hmade.symm.trans hmade'))
  obtain ⟨-, ⟨t', id, ht', hpath⟩, hsole⟩ := h.sole.2 path inode hmade
  obtain rfl : t' = t := Except.ok.inj (ht'.symm.trans ht)
  obtain ⟨file, hsrc, hfiles⟩ := rename_eq_some.mp hrename
  by_cases hsame : w.files.entry t'.destination = some file
  · -- The destination is another's file under that name, and so is the source.
    rw [hfiles, if_pos hsame]
    intro hentry
    obtain rfl : file = inode := Option.some.inj (hsrc.symm.trans hentry)
    have hdestination := hsole hnone _ hsame
    exact partialPath_ne_destination ht' _ _ (hpath.symm.trans hdestination.symm)
  · rw [hfiles, if_neg hsame, unlink_entry, if_pos rfl]
    nofun

/-- Other processes put no partial file back. -/
theorem Shape.entry_of_other {o : Other} (h : Shape w) (hother : w.byOther o = some w')
    (hmade : w.past.made = some (path, inode)) (hentry : w'.files.entry path = some inode) :
    w.files.entry path = some inode := by
  have hlt := (h.sole.2 path inode hmade).1
  cases o with
  | put name content =>
    cases hother
    rw [fill_entry, create_entry] at hentry
    split at hentry
    · rw [Option.some.injEq] at hentry
      exact absurd hentry (Nat.ne_of_gt hlt)
    · exact hentry
  | edit name content =>
    obtain ⟨_, -, rfl⟩ := Option.map_eq_some_iff.mp hother
    exact hentry
  | remove name =>
    cases hother
    rw [unlink_entry] at hentry
    split at hentry
    · cases hentry
    · exact hentry

/-- What other processes leave as it is of a write. -/
theorem byOther_keeps {o : Other} (h : w.byOther o = some w') :
    w'.pc = w.pc ∧ w'.pool = w.pool ∧ w'.request = w.request ∧ w'.past.made = w.past.made ∧
      w'.past.stuck = w.past.stuck := by
  cases o with
  | put | remove =>
    cases h
    exact ⟨rfl, rfl, rfl, rfl, rfl⟩
  | edit =>
    obtain ⟨_, -, rfl⟩ := Option.map_eq_some_iff.mp h
    exact ⟨rfl, rfl, rfl, rfl, rfl⟩

theorem neat_storedPc {rest : Bytes} {length : Nat} (hpc : w.pc = storedPc o rest length) :
    Neat w := by
  unfold storedPc at hpc
  unfold Neat
  split at hpc <;> rw [hpc] <;> trivial

theorem neat_leavePc {guard : Option Bytes} (hpc : w.pc = leavePc guard result)
    (h : guard = none → Tidy w) : Neat w := by
  unfold Neat
  cases guard with
  | none =>
    rw [hpc]
    exact h rfl
  | some path =>
    rw [hpc]
    trivial

/-- What has the same end, or is not about to take that its file is renamed, is as neat. -/
theorem Neat.of_same (h : Neat w) (hpc : w'.pc = w.pc)
    (hpool : w'.pool ≠ .finished (.published (.ok ()))) (hmade : w'.past.made = w.past.made)
    (hstuck : w'.past.stuck = w.past.stuck) (hfiles : w'.files.entry = w.files.entry) :
    Neat w' := by
  unfold Neat at h ⊢
  rw [hpc]
  cases hw : w.pc with
  | ended result =>
    simp only [hw] at h
    intro path inode hmade' hentry
    rw [hstuck]
    exact h path inode (hmade ▸ hmade') (hfiles ▸ hentry)
  | publishing t path bytes => exact fun _ hfinished => absurd hfinished hpool
  | _ => trivial

theorem Neat.moves (hs : Shape w) (h : Neat w) (hok : InTime w a) (hmoves : Moves w a w') :
    Neat w' := by
  cases hmoves with
  | turns hturn =>
    cases hturn with
    | begins | inspects | names | tries | fails | misses => trivial
    | stores => exact neat_storedPc rfl
    | publishes => exact fun _ hfinished => absurd hfinished nofun
    | refuses error hu _ => exact tidy_of_made_none (hs.fits.made_of_refused hu)
    | takes | openFails | writeEnds | publishFails =>
      exact h.of_same rfl (by nofun) rfl rfl rfl
    | answers _ hanswer =>
      refine h.of_same rfl (fun heq => ?_) rfl rfl rfl
      cases heq
      cases hanswer
    | @returns t path bytes hpc hpool =>
      refine neat_leavePc rfl fun hguard path' inode hmade => ?_
      have hreplace : w.request.conflict = .replace := by
        cases hconflict : w.request.conflict with
        | replace => rfl
        | failIfExists =>
          rw [hconflict] at hguard
          cases hguard
      have hfits := hs.fits
      rw [hpc] at hfits
      obtain ⟨-, ⟨inode', hmade'⟩, -⟩ := hfits
      obtain ⟨rfl, rfl⟩ := Prod.mk.inj (Option.some.inj (hmade'.symm.trans hmade))
      unfold Neat at h
      simp only [hpc] at h
      exact fun hentry => absurd hentry (h hreplace hpool _ hmade)
    | @drops guard ha hguard =>
      refine neat_leavePc rfl fun hnone => ?_
      subst ha hnone
      rcases hs.fits.made_of_dropped hguard with hmade | ⟨_, _, _, inode, -, hpool, -⟩
      · exact tidy_of_made_none hmade
      · exact absurd (Pool.opened_iff.mpr ⟨inode, hpool⟩) hok
    | @findsNone path result hpc hgone =>
      have hfits := hs.fits
      rw [hpc] at hfits
      obtain ⟨inode', hmade'⟩ := hfits
      intro path' inode hmade hentry
      obtain ⟨rfl, rfl⟩ := Prod.mk.inj (Option.some.inj (hmade'.symm.trans hmade))
      exact absurd (hgone.symm.trans hentry) nofun
  | receives | pullEnds => trivial
  | pulls => exact neat_storedPc rfl
  | @makes path ha hpool hfree =>
    subst ha
    unfold Neat
    dsimp only
    cases hpc : w.pc with
    | ended result =>
      exact absurd ⟨Pc.isEnded_iff.mpr ⟨result, hpc⟩, Pool.opens_iff.mpr ⟨path, hpool⟩⟩ hok
    | publishing t path bytes => exact fun _ hfinished => absurd hfinished nofun
    | _ => trivial
  | writes n hpool hmax => exact h.of_same rfl (by nofun) rfl rfl rfl
  | renames hpool hrename =>
    have hgone : ∀ path inode, w.past.made = some (path, inode) → _ ≠ some inode :=
      fun _ _ hmade => hs.renamed hpool hrename hmade
    unfold Neat
    dsimp only
    cases hpc : w.pc with
    | ended result => exact fun path inode hmade hentry => absurd hentry (hgone path inode hmade)
    | publishing t path bytes => exact fun _ _ inode hmade => hgone path inode hmade
    | _ => trivial
  | @links src dst files hpool hlink =>
    have hworks := hs.works
    rw [hpool] at hworks
    obtain ⟨-, hconflict, t, inode', ht, rfl, hmade'⟩ := hworks
    obtain ⟨-, -, rfl⟩ := link_eq_some.mp hlink
    unfold Neat at h ⊢
    dsimp only
    cases hpc : w.pc with
    | ended result =>
      simp only [hpc] at h
      intro path inode hmade hentry
      obtain ⟨-, ⟨t', id, ht', rfl⟩, -⟩ := hs.sole.2 path inode hmade
      obtain rfl : t' = t := Except.ok.inj (ht'.symm.trans ht)
      rw [addName_entry, if_neg (partialPath_ne_destination ht' _ _)] at hentry
      exact h _ _ hmade hentry
    | publishing t path bytes =>
      intro hreplace
      exact absurd (hconflict.symm.trans hreplace) nofun
    | _ => trivial
  | @removes path result hpc =>
    have hfits := hs.fits
    rw [hpc] at hfits
    obtain ⟨inode', hmade'⟩ := hfits
    intro path' inode hmade hentry
    obtain ⟨rfl, rfl⟩ := Prod.mk.inj (Option.some.inj (hmade'.symm.trans hmade))
    rw [unlink_entry, if_pos rfl] at hentry
    cases hentry
  | sticks hpc => exact fun _ _ _ _ => rfl
  | others o ha hother =>
    obtain ⟨hpc, hpool, hrequest, hmade, hstuck⟩ := byOther_keeps hother
    unfold Neat at h ⊢
    rw [hpc, hpool, hrequest]
    cases hw : w.pc with
    | ended result =>
      simp only [hw] at h
      intro path inode hmade' hentry
      rw [hmade] at hmade'
      rw [hstuck]
      exact h path inode hmade' (hs.entry_of_other hother hmade' hentry)
    | publishing t path bytes =>
      simp only [hw] at h
      intro hreplace hfinished inode hmade' hentry
      rw [hmade] at hmade'
      exact h hreplace hfinished inode hmade' (hs.entry_of_other hother hmade' hentry)
    | _ => trivial

/-! ### What is left otherwise -/

/-- A future at its end stays there. -/
theorem Moves.ended (hmoves : Moves w a w') (h : w.pc = .ended result) : w'.pc = .ended result := by
  cases hmoves with
  | turns hturn =>
    cases hturn with
    | takes | answers | openFails | writeEnds | publishFails => exact h
    | begins hpc | inspects hpc | tries _ hpc | stores _ hpc _ | publishes hpc _ | misses _ hpc _
    | returns hpc _ | findsNone hpc _ =>
      rw [h] at hpc
      cases hpc
    | names _ hpc => simp [h] at hpc
    | refuses _ hu _ =>
      rw [h] at hu
      cases hu
    | fails _ hpc _ =>
      rw [h] at hpc
      cases hpc
    | drops _ hguard =>
      rw [h] at hguard
      cases hguard
  | makes | writes | renames | links => exact h
  | receives hpc _ | pulls _ hpc | pullEnds hpc | removes hpc | sticks hpc =>
    rw [h] at hpc
    cases hpc
  | others o _ hother => exact (byOther_keeps hother).1.trans h

/-- A removal fails at the end of a write that has made a file. -/
def Marked (w : World) : Prop :=
  w.past.stuck = true → (∃ result, w.pc = .ended result) ∧ w.past.made ≠ none

theorem Marked.moves (hs : Shape w) (h : Marked w) (hmoves : Moves w a w') : Marked w' := by
  intro hstuck
  by_cases hbefore : w.past.stuck = true
  · obtain ⟨⟨result, hpc⟩, hmade⟩ := h hbefore
    refine ⟨⟨result, hmoves.ended hpc⟩, ?_⟩
    cases hmoves with
    | turns | receives | pulls | pullEnds | writes | renames | links | removes | sticks =>
      exact hmade
    | makes => exact nofun
    | others o _ hother => exact (byOther_keeps hother).2.2.2.1 ▸ hmade
  · cases hmoves with
    | turns | receives | pulls | pullEnds | makes | writes | renames | links | removes =>
      exact absurd hstuck hbefore
    | @sticks path result hpc =>
      have hfits := hs.fits
      rw [hpc] at hfits
      obtain ⟨inode, hmade⟩ := hfits
      exact ⟨⟨result, rfl⟩, fun hnone => absurd (hmade.symm.trans hnone) nofun⟩
    | others o _ hother => exact absurd ((byOther_keeps hother).2.2.2.2 ▸ hstuck) hbefore

/-- Where other processes leave it alone, a new file is at its name until the future takes
it. -/
def Waits (w : World) : Prop :=
  ∀ t left path inode, w.pc = .creating t left path → w.pool = .finished (.opened (.ok inode)) →
    w.files.entry path = some inode

/-- A partial file's name stays as it is, where other processes leave it alone. -/
theorem entry_of_apart {o : Other} (hapart : Apart w (.other o)) (hother : w.byOther o = some w')
    (hmade : w.past.made = some (path, inode)) :
    w'.files.entry path = w.files.entry path := by
  have hne : path ≠ o.name := fun heq => hapart path inode hmade heq.symm
  cases o with
  | put name content =>
    cases hother
    have hname : path ≠ name := hne
    rw [fill_entry, create_entry, if_neg hname]
  | edit name content =>
    obtain ⟨_, -, rfl⟩ := Option.map_eq_some_iff.mp hother
    rfl
  | remove name =>
    cases hother
    have hname : path ≠ name := hne
    rw [unlink_entry, if_neg hname]

theorem Waits.moves (hs : Shape w) (h : Waits w) (hapart : Apart w a) (hmoves : Moves w a w') :
    Waits w' := by
  intro t left path inode hpc hpool
  cases hmoves with
  | turns hturn =>
    cases hturn with
    | begins | inspects | names | tries | stores | publishes | takes | openFails | writeEnds
    | publishFails => cases hpool
    | refuses | fails | misses | findsNone => cases hpc
    | returns _ hfinished => cases hpool
    | answers _ hanswer =>
      cases hpool
      cases hanswer
    | @drops guard _ hguard => cases guard <;> cases hpc
  | receives | writes | renames | links => cases hpool
  | pulls chunk _ =>
    unfold storedPc at hpc
    split at hpc <;> cases hpc
  | pullEnds | removes | sticks => cases hpc
  | @makes path' _ hrun _ =>
    cases hpool
    have hfits := hs.fits
    rw [hpc, hrun] at hfits
    obtain ⟨-, -, ⟨hsame, -⟩ | ⟨⟨_, hfailed⟩, -⟩ | ⟨_, hopened, -⟩⟩ := hfits
    · cases hsame
      rw [create_entry, if_pos rfl]
    · cases hfailed
    · cases hopened
  | others o ha hother =>
    obtain ⟨hpc', hpool', -, -, -⟩ := byOther_keeps hother
    rw [hpc'] at hpc
    rw [hpool'] at hpool
    have hfits := hs.fits
    rw [hpc, hpool] at hfits
    obtain ⟨-, -, ⟨hrun, -⟩ | ⟨⟨_, hfailed⟩, -⟩ | ⟨inode', hopened, hmade, -⟩⟩ := hfits
    · cases hrun
    · cases hfailed
    · cases hopened
      exact (entry_of_apart (ha ▸ hapart) hother hmade).trans (h t left path inode hpc hpool)

/-- A write at its end, with its partial file left at its name. -/
structure Late (w : World) : Prop where
  ended : ∃ result, w.pc = .ended result
  finished : ∃ outcome, w.pool = .finished outcome
  stuck : w.past.stuck = false
  left : ∃ path inode, w.past.made = some (path, inode) ∧ w.files.entry path = some inode

theorem Late.not_tidy (h : Late w) : ¬ Tidy w := by
  obtain ⟨path, inode, hmade, hentry⟩ := h.left
  intro htidy
  exact absurd (h.stuck.symm.trans (htidy path inode hmade hentry)) nofun

theorem Late.moves (h : Late w) (hapart : Apart w a) (hmoves : Moves w a w') : Late w' := by
  obtain ⟨result, hpc⟩ := h.ended
  obtain ⟨outcome, hpool⟩ := h.finished
  have hended := hmoves.ended hpc
  cases hmoves with
  | turns hturn =>
    refine ⟨⟨result, hended⟩, ?_, h.stuck, h.left⟩
    cases hturn with
    | answers => exact ⟨_, rfl⟩
    | openFails _ hrun | writeEnds hrun _ | publishFails _ hrun =>
      rw [hpool] at hrun
      cases hrun
    | begins hpc' _ | inspects hpc' | tries _ hpc' | stores _ hpc' _ | publishes hpc' _
    | misses _ hpc' _ | returns hpc' _ | findsNone hpc' _ =>
      rw [hpc] at hpc'
      cases hpc'
    | names _ hpc' => simp [hpc] at hpc'
    | takes hpc' _ | fails _ hpc' _ =>
      rw [hpc] at hpc'
      cases hpc'
    | refuses _ hu _ =>
      rw [hpc] at hu
      cases hu
    | drops _ hguard =>
      rw [hpc] at hguard
      cases hguard
  | makes _ hrun _ | writes _ hrun _ | renames hrun _ | links hrun _ =>
    rw [hpool] at hrun
    cases hrun
  | receives hpc' _ | pulls _ hpc' | pullEnds hpc' | removes hpc' | sticks hpc' =>
    rw [hpc] at hpc'
    cases hpc'
  | others o ha hother =>
    obtain ⟨-, hpool', -, hmade', hstuck'⟩ := byOther_keeps hother
    obtain ⟨path, inode, hmade, hentry⟩ := h.left
    exact ⟨⟨result, hended⟩, ⟨outcome, hpool'.trans hpool⟩, hstuck'.trans h.stuck, path, inode,
      hmade'.trans hmade, (entry_of_apart (ha ▸ hapart) hother hmade).trans hentry⟩

/-- A step that is not in time leaves the partial file there. -/
theorem late_of_step (hs : Shape w) (hmarked : Marked w) (hwaits : Waits w)
    (hlate : ¬ InTime w a) (hstep : step w a = some w') : Late w' := by
  have hunmarked : (w.past.made = none ∨ ∀ result, w.pc ≠ .ended result) →
      w.past.stuck = false := by
    intro h
    cases hstuck : w.past.stuck with
    | false => rfl
    | true =>
      obtain ⟨⟨result, hpc⟩, hmade⟩ := hmarked hstuck
      rcases h with h | h
      · exact absurd h hmade
      · exact absurd hpc (h result)
  cases a with
  | drop =>
    obtain ⟨inode, hpool⟩ := Pool.opened_iff.mp (not_not.mp hlate)
    obtain ⟨guard, hguard, rfl⟩ := Option.map_eq_some_iff.mp hstep
    -- Only a future in `create_partial` has such an operation.
    have hfits := hs.fits
    have hkind := hfits.kind
    cases hpc : w.pc with
    | creating t left path =>
      rw [hpc] at hguard
      cases hguard
      have hentry := hwaits t left path inode hpc hpool
      rw [hpc, hpool] at hfits
      obtain ⟨-, -, ⟨hrun, -⟩ | ⟨⟨_, hfailed⟩, -⟩ | ⟨inode', hopened, hmade, -⟩⟩ := hfits
      · cases hrun
      · cases hfailed
      · cases hopened
        refine ⟨⟨none, rfl⟩, ⟨_, hpool⟩, hunmarked (.inr fun result => ?_), path, inode, hmade,
          hentry⟩
        rw [hpc]
        nofun
    | leaving | ended =>
      rw [hpc] at hguard
      cases hguard
    | _ => simp [hpc, hpool, Pool.kind, Pc.kind, Pc.atEnd] at hkind
  | finish failure =>
    cases failure with
    | some error => exact absurd trivial hlate
    | none =>
      obtain ⟨hended, hopens⟩ := not_not.mp hlate
      obtain ⟨result, hpc⟩ := Pc.isEnded_iff.mp hended
      obtain ⟨path, hpool⟩ := Pool.opens_iff.mp hopens
      have hworks := hs.works
      rw [hpool] at hworks
      simp only [step, hpool, World.finish] at hstep
      split at hstep
      · cases hstep
      · cases hstep
        exact ⟨⟨result, hpc⟩, ⟨_, rfl⟩, hunmarked (.inl hworks.1), path, _, rfl, by simp⟩
  | _ => exact absurd trivial hlate

/-! ### Whole runs -/

theorem Fresh.neat (h : Fresh w) : Neat w := by
  unfold Neat
  rw [h.pc]
  trivial

theorem Fresh.runs_in_time (hfresh : Fresh w₀) (h : Steps step InTime w₀ w) : Shape w ∧ Neat w := by
  refine h.invariant (I := fun w => Shape w ∧ Neat w) ?_ ⟨hfresh.shape, hfresh.neat⟩
  rintro w a w' ⟨hshape, hneat⟩ hok hstep
  have hmoves := moves_of_step hstep
  exact ⟨hshape.moves hmoves, hneat.moves hshape hok hmoves⟩

/-- A run in which other processes leave the partial file alone is in time, or comes to a
file that is left. -/
theorem Fresh.runs_apart (hfresh : Fresh w₀) (h : Steps step Apart w₀ w) :
    (Shape w ∧ Marked w ∧ Waits w) ∧ (Steps step InTime w₀ w ∨ Late w) := by
  induction h with
  | refl =>
    refine ⟨⟨hfresh.shape, fun hstuck => ?_, fun t left path inode hpc => ?_⟩, .inl (.refl _)⟩
    · rw [hfresh.stuck] at hstuck
      cases hstuck
    · rw [hfresh.pc] at hpc
      cases hpc
  | @tail w₁ w₂ a _ hapart hstep ih =>
    obtain ⟨⟨hshape, hmarked, hwaits⟩, hbefore⟩ := ih
    have hmoves := moves_of_step hstep
    refine ⟨⟨hshape.moves hmoves, hmarked.moves hshape hmoves,
      hwaits.moves hshape hapart hmoves⟩, ?_⟩
    rcases hbefore with hsteps | hlate
    · by_cases hok : InTime w₁ a
      · exact .inl (hsteps.tail hok hstep)
      · exact .inr (late_of_step hshape hmarked hwaits hok hstep)
    · exact .inr (hlate.moves hapart hmoves)

/-- **No partial file is left** at the end of a write whose steps are in time, whatever
other processes do.  Where these leave it alone, only such a write leaves none. -/
theorem no_partial_left (hfresh : Fresh w₀) (hend : w.pc = .ended result) :
    (Steps step InTime w₀ w → Tidy w) ∧
      (Steps step Apart w₀ w → (Tidy w ↔ Steps step InTime w₀ w)) := by
  have htidy : Steps step InTime w₀ w → Tidy w := by
    intro h
    have hneat := (hfresh.runs_in_time h).2
    unfold Neat at hneat
    rw [hend] at hneat
    exact hneat
  refine ⟨htidy, fun h => ⟨fun htidy' => ?_, htidy⟩⟩
  rcases (hfresh.runs_apart h).2 with hsteps | hlate
  · exact hsteps
  · exact absurd htidy' hlate.not_tidy

/-! ### A write that is dropped -/

def target : Request := ⟨.fromLiteral ⟨ascii "/srv", by decide +kernel⟩,
  .fromLiteral ⟨ascii "target", by decide +kernel⟩, .replace⟩

/-- A write to an empty directory, before its first step. -/
def firstWrite (conflict : WriteConflict) : World where
  request := { target with conflict }
  pid := 7
  pc := .start
  pool := .idle
  files := ⟨fun _ => none, fun _ => [], 0, nofun⟩
  offset := 0
  past := ⟨[], false, none, none, false, fun _ => none⟩

theorem firstWrite_fresh (conflict : WriteConflict) : Fresh (firstWrite conflict) :=
  ⟨rfl, rfl, rfl, rfl, rfl, rfl, rfl, nofun⟩

/-- Up to the first try for a partial file. -/
def begins : List Action := [.begin, .finishDirectory true, .receive, .tryName 1]

/-- A write that is dropped while its first bytes are on their way. -/
def droppedMidway : List Action :=
  begins ++ [.finish none, .receive, .pull (some (.ok (ascii "prefix"))), .store 6, .drop,
    .removePartial none, .progress 6, .finish none]

theorem dropped_midway_tidy : ∃ w, Steps step InTime (firstWrite .replace) w ∧
    w.pc = .ended none ∧ w.past.made ≠ none ∧ Tidy w := by
  have hrun : Steps step InTime (firstWrite .replace)
      (runs step InTime (firstWrite .replace) droppedMidway) :=
    steps_runs (firstWrite .replace) droppedMidway
  have hend : (runs step InTime (firstWrite .replace) droppedMidway).pc = .ended none := by
    decide +kernel
  exact ⟨_, hrun, hend, by decide +kernel,
    (no_partial_left (firstWrite_fresh .replace) hend).1 hrun⟩

/-- One that is dropped while its partial file is made. -/
def droppedEarly : List Action := begins ++ [.drop, .finish none]

/-- What is left then. -/
def leftBehind : World := runs step Apart (firstWrite .replace) droppedEarly

/-- The file stays, when the future is dropped and the pool is done. -/
theorem dropped_early_leaves_partial :
    ¬ ∀ (w₀ w : World) (result : Option (Except FsError Written)), Fresh w₀ →
      Steps step Apart w₀ w → w.pc = .ended result → (∀ job, w.pool ≠ .running job) → Tidy w := by
  intro h
  have hpool : leftBehind.pool = .finished (.opened (.ok 0)) := by decide +kernel
  have hleft : leftBehind.past.made.any (fun made =>
      leftBehind.files.entry made.1 = some made.2) := by decide +kernel
  obtain ⟨⟨path, inode⟩, hmade, hentry⟩ := (Option.any_eq_true _ _).mp hleft
  have hstuck := h (firstWrite .replace) leftBehind none (firstWrite_fresh .replace)
    (steps_runs (firstWrite .replace) droppedEarly) (by decide +kernel)
    (by rw [hpool]; nofun) path inode hmade (of_decide_eq_true hentry)
  exact absurd hstuck (by decide +kernel)

end Fs

end FilePeeker
