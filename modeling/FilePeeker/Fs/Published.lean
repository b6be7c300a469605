import FilePeeker.Fs.Partial

/-!
# Published whole or not at all

What is at the destination is what another process has put there or all that came from the
source, at any moment of a write; a write that fails has not touched it, and one with
`FailIfExists` replaces nothing; and a write returns `Ok`, with the number of bytes, if and
only if it has published (`published_whole`).  Other processes can do what they want but to
the partial file.

The argument is that nothing is lost between the source and the file: what is in the file,
what the pool has of it and what is left of the chunk make up all that came (`Flows`).  A
write that failed ends that, and is found at the next write or at the flush.
-/

namespace FilePeeker

open FilePeeker.Path

namespace Fs

open Directory

variable {w w' w₀ : World} {a : Action} {pc : Pc} {pool : Pool} {t : Target} {path : Bytes}
  {inode : Nat} {o : Open} {conflict : WriteConflict} {result : Option (Except FsError Written)}

/-! ### What is where -/

/-- What the pool still has to write, unless a write has failed. -/
def Pool.ahead : Pool → Option Bytes
  | .running (.write _ rest) => some rest
  | .finished (.wrote (.error _)) => none
  | _ => some []

theorem ahead_of_kind (h : pool.kind ≠ some .writing) : pool.ahead = some [] := by
  cases pool with
  | idle => rfl
  | running job => cases job <;> first | rfl | exact absurd rfl h
  | finished outcome => cases outcome <;> first | rfl | exact absurd rfl h

/-- All that came is in the file, or on its way, or left of a chunk. -/
def Flows (w : World) (inode : Nat) (rest : Bytes) : Prop :=
  ∀ ahead, w.pool.ahead = some ahead →
    w.files.content inode ++ ahead ++ rest = w.past.supplied ∧
      w.offset = (w.files.content inode).length ∧ w.offset ≤ maxFileBytes

/-- What a future knows of what came, and how it ends. -/
def Data (w : World) : Prop :=
  match w.pc with
  | .start | .directory _ | .destination _ | .naming _ _ =>
    w.past.supplied = [] ∧ w.past.sourceEnded = false
  | .creating .. => w.past.supplied = [] ∧ w.past.sourceEnded = false ∧
      ∀ inode, w.pool = .finished (.opened (.ok inode)) → w.files.content inode = []
  | .pulling o => w.past.sourceEnded = false ∧ Flows w o.inode [] ∧
      o.bytes = w.past.supplied.length % 2 ^ 64
  | .storing o rest length => w.past.sourceEnded = false ∧ Flows w o.inode rest ∧
      (o.bytes + length) % 2 ^ 64 = w.past.supplied.length % 2 ^ 64
  | .flushing o => w.past.sourceEnded = true ∧ Flows w o.inode [] ∧
      o.bytes = w.past.supplied.length % 2 ^ 64
  | .publishing _ _ bytes => bytes = w.past.supplied.length % 2 ^ 64
  | .leaving _ (some (.ok written)) | .ended (some (.ok written)) => w.past.published ≠ none ∧
      ∃ t, w.request.target = .ok t ∧
        written = ⟨.ofBytes t.destination, w.past.supplied.length % 2 ^ 64⟩
  | .leaving _ (some (.error _)) | .ended (some (.error _)) => w.past.published = none ∧
      w.pool.kind ≠ some .publishing
  | .leaving _ none | .ended none => True

/-- A file is all that came from a source that has ended. -/
def Complete (w : World) (content : Bytes) : Prop :=
  content = w.past.supplied ∧ w.past.sourceEnded = true ∧ content.length ≤ maxFileBytes

structure Sound (w : World) : Prop where
  shape : Shape w
  data : Data w
  /-- Only the partial file is at its name. -/
  own : ∀ path inode file, w.past.made = some (path, inode) → w.files.entry path = some file →
    file = inode
  job : ∀ conflict src dst inode, w.pool = .running (publishJob conflict src dst) →
    w.past.made = some (src, inode) → Complete w (w.files.content inode)
  published : ∀ content, w.past.published = some content → Complete w content
  theirs : ∀ name inode, w.files.entry name = some inode →
    (∀ path, w.past.made ≠ some (path, inode)) → w.past.theirs inode = some (w.files.content inode)
  ours : ∀ path inode, w.past.made = some (path, inode) → w.past.published ≠ none →
    w.files.content inode = w.past.supplied ∨ w.past.theirs inode = some (w.files.content inode)

theorem Fresh.sound (h : Fresh w) : Sound w where
  shape := h.shape
  data := by
    unfold Data
    rw [h.pc]
    exact ⟨h.supplied, h.sourceEnded⟩
  own path inode file hmade := absurd (h.made.symm.trans hmade) nofun
  job conflict src dst inode hpool := absurd (h.pool.symm.trans hpool) nofun
  published content hpublished := absurd (h.published.symm.trans hpublished) nofun
  theirs name inode hentry _ := h.theirs name inode hentry
  ours path inode hmade := absurd (h.made.symm.trans hmade) nofun

/-! ### What other processes leave alone -/

/-- Before it is published, other processes leave the partial file as it is. -/
theorem Shape.content_of_other {o : Other} (hs : Shape w) (hapart : Apart w (.other o))
    (hother : w.byOther o = some w') (hmade : w.past.made = some (path, inode))
    (hnone : w.past.published = none) : w'.files.content inode = w.files.content inode := by
  obtain ⟨hlt, -, hsole⟩ := hs.sole.2 path inode hmade
  cases o with
  | put name content =>
    cases hother
    have hne : inode ≠ w.files.fresh := Nat.ne_of_lt hlt
    rw [fill_content, if_neg hne, create_content, if_neg hne]
  | edit name content =>
    obtain ⟨inode', hentry, rfl⟩ := Option.map_eq_some_iff.mp hother
    have hne : inode ≠ inode' := by
      rintro rfl
      exact hapart path inode hmade (hsole hnone name hentry)
    rw [fill_content, if_neg hne]
  | remove name =>
    cases hother
    rfl

/-- What other processes leave as it is of what has been. -/
theorem byOther_past {o : Other} (h : w.byOther o = some w') :
    w'.past.supplied = w.past.supplied ∧ w'.past.sourceEnded = w.past.sourceEnded ∧
      w'.past.published = w.past.published ∧ w'.offset = w.offset := by
  cases o with
  | put | remove =>
    cases h
    exact ⟨rfl, rfl, rfl, rfl⟩
  | edit =>
    obtain ⟨_, -, rfl⟩ := Option.map_eq_some_iff.mp h
    exact ⟨rfl, rfl, rfl, rfl⟩

/-! ### The data -/

theorem data_storedPc {rest : Bytes} {length : Nat} (hpc : w.pc = storedPc o rest length)
    (hended : w.past.sourceEnded = false) (hflows : Flows w o.inode rest)
    (hbytes : (o.bytes + length) % 2 ^ 64 = w.past.supplied.length % 2 ^ 64) : Data w := by
  unfold storedPc at hpc
  unfold Data
  split at hpc
  · next hrest =>
    rw [hpc]
    exact ⟨hended, hrest ▸ hflows, hbytes⟩
  · rw [hpc]
    exact ⟨hended, hflows, hbytes⟩

theorem data_leavePc {guard : Option Bytes} (hpc : w.pc = leavePc guard result)
    (h : match result with
      | some (.ok written) => w.past.published ≠ none ∧ ∃ t, w.request.target = .ok t ∧
          written = ⟨.ofBytes t.destination, w.past.supplied.length % 2 ^ 64⟩
      | some (.error _) => w.past.published = none ∧ w.pool.kind ≠ some .publishing
      | none => True) : Data w := by
  unfold Data
  cases guard with
  | none =>
    rw [hpc]
    rcases result with _ | _ | _ <;> exact h
  | some path =>
    rw [hpc]
    rcases result with _ | _ | _ <;> exact h

/-- The pool has nothing of a future that has no file yet but a look or a new file. -/
theorem Fits.kind_of_refused (h : Fits w w.pc w.pool) (hu : Unguarded w.pc w.pool) :
    w.pool.kind ≠ some .publishing := by
  intro hpool
  rcases h.kind with hend | hkind | hkind <;> rw [hpool] at *
  · cases hpc : w.pc <;> simp [hpc, Pc.atEnd, Unguarded] at hend hu
  · cases hkind
  · cases hpc : w.pc <;> simp [hpc, Pc.kind, Unguarded] at hkind hu

theorem Fits.kind_of_writing (h : Fits w w.pc w.pool) (hpc : w.pc.writesTo = some o) :
    w.pool.kind ≠ some .publishing := by
  intro hpool
  rcases h.kind with hend | hkind | hkind <;> rw [hpool] at *
  · cases hw : w.pc <;> simp [hw, Pc.atEnd, Pc.writesTo] at hend hpc
  · cases hkind
  · cases hw : w.pc <;> simp [hw, Pc.kind, Pc.writesTo] at hkind hpc

/-- A future is where it was, what came is what came, and what has changed of the pool is
no loss. -/
theorem Data.of_same (h : Data w) (hpc : w'.pc = w.pc) (hrequest : w'.request = w.request)
    (hsupplied : w'.past.supplied = w.past.supplied)
    (hended : w'.past.sourceEnded = w.past.sourceEnded)
    (hopened : ∀ t left path inode, w.pc = .creating t left path →
      w'.pool = .finished (.opened (.ok inode)) → w'.files.content inode = [])
    (hflows : ∀ o rest, w.pc.writesTo = some o → Flows w o.inode rest → Flows w' o.inode rest)
    (hpublished : w.pc.atEnd → (w.past.published ≠ none → w'.past.published ≠ none) ∧
      (w.past.published = none → w.pool.kind ≠ some .publishing →
        w'.past.published = none ∧ w'.pool.kind ≠ some .publishing)) : Data w' := by
  unfold Data at h ⊢
  rw [hpc, hrequest, hsupplied, hended]
  cases hw : w.pc with
  | start | directory t | destination t | naming t left =>
    rw [hw] at h
    exact h
  | creating t left path =>
    rw [hw] at h
    exact ⟨h.1, h.2.1, fun inode hpool => hopened t left path inode hw hpool⟩
  | pulling o =>
    rw [hw] at h
    exact ⟨h.1, hflows o _ (by rw [hw]; rfl) h.2.1, h.2.2⟩
  | storing o rest length =>
    rw [hw] at h
    exact ⟨h.1, hflows o _ (by rw [hw]; rfl) h.2.1, h.2.2⟩
  | flushing o =>
    rw [hw] at h
    exact ⟨h.1, hflows o _ (by rw [hw]; rfl) h.2.1, h.2.2⟩
  | publishing t path bytes =>
    rw [hw] at h
    exact h
  | leaving path result =>
    obtain ⟨hsome, hnone⟩ := hpublished (by rw [hw]; rfl)
    rw [hw] at h
    rcases result with _ | error | written
    · trivial
    · exact hnone h.1 h.2
    · exact ⟨hsome h.1, h.2⟩
  | ended result =>
    obtain ⟨hsome, hnone⟩ := hpublished (by rw [hw]; rfl)
    rw [hw] at h
    rcases result with _ | error | written
    · trivial
    · exact hnone h.1 h.2
    · exact ⟨hsome h.1, h.2⟩

/-- Before there is a file, nothing has come. -/
theorem Data.supplied_of_unguarded (h : Data w) (hu : Unguarded w.pc w.pool) :
    w.past.supplied = [] ∧ w.past.sourceEnded = false := by
  unfold Data at h
  cases hw : w.pc with
  | start | directory t | destination t | naming t left =>
    rw [hw] at h
    exact h
  | creating t left path =>
    rw [hw] at h
    exact ⟨h.1, h.2.1⟩
  | _ =>
    rw [hw] at hu
    cases hu

theorem Data.turn (hs : Shape w) (h : Data w) (hturn : Turn w a pc pool) :
    Data { w with pc, pool } := by
  -- What has been made of an operation that is not the publishing is none.
  have hsame : ∀ pool', pool'.kind = w.pool.kind →
      (∀ inode, pool' = .finished (.opened (.ok inode)) → w.pool = pool') →
      (∀ o rest, w.pc.writesTo = some o → Flows w o.inode rest →
        Flows { w with pool := pool' } o.inode rest) →
      Data { w with pool := pool' } := by
    intro pool' hkind hopened hflows
    refine h.of_same rfl rfl rfl rfl ?_ hflows fun _ => ⟨id, fun hnone hne => ⟨hnone, ?_⟩⟩
    · intro t left path inode hpc hpool
      have hpool' : w.pool = .finished (.opened (.ok inode)) := (hopened inode hpool).trans hpool
      unfold Data at h
      rw [hpc] at h
      exact h.2.2 inode hpool'
    · intro hpublishing
      exact hne (hkind.symm.trans hpublishing)
  cases hturn with
  | begins hpc _ | inspects hpc => exact h.supplied_of_unguarded (by rw [hpc]; trivial)
  | tries id hpc =>
    obtain ⟨hsupplied, hended⟩ := h.supplied_of_unguarded (by rw [hpc]; trivial)
    exact ⟨hsupplied, hended, nofun⟩
  | names left hpc =>
    refine h.supplied_of_unguarded ?_
    rcases hpc with hpc | hpc | ⟨_, _, error, hpc, hpool⟩
    · rw [hpc]
      trivial
    · rw [hpc]
      trivial
    · rw [hpc]
      exact ⟨error, hpool⟩
  | refuses error hu hpool =>
    refine ⟨hs.sole.1 (hs.fits.made_of_refused hu), ?_⟩
    rcases hpool with rfl | rfl
    · nofun
    · exact hs.fits.kind_of_refused hu
  | @takes o hpc hpool =>
    refine h.of_same rfl rfl rfl rfl nofun ?_ fun _ => ⟨id, fun hnone _ => ⟨hnone, nofun⟩⟩
    intro o' rest _ hflows ahead hahead
    exact hflows ahead (by rw [hpool]; exact hahead)
  | @stores o rest length n hpc hpool =>
    unfold Data at h
    rw [hpc] at h
    refine data_storedPc rfl h.1 (fun ahead hahead => ?_) h.2.2
    cases hahead
    obtain ⟨hall, hoffset, hmax⟩ := h.2.1 [] (by rw [hpool]; rfl)
    refine ⟨?_, hoffset, hmax⟩
    rw [← hall, List.append_assoc, List.append_assoc, List.take_append_drop, List.nil_append]
  | @publishes o hpc hpool =>
    unfold Data at h
    rw [hpc] at h
    exact h.2.2
  | @fails o pool' error hpc hpool =>
    have hfits := (fits_writesTo hpc).mp hs.fits
    refine ⟨hfits.2.2.1, ?_⟩
    rcases hpool with rfl | rfl
    · nofun
    · exact hs.fits.kind_of_writing hpc
  | misses error hpc hpool =>
    have hfits := hs.fits
    rw [hpc, hpool] at hfits
    obtain ⟨-, -, ⟨hrun, -⟩ | ⟨hdone, -⟩ | ⟨-, hnone⟩⟩ := hfits
    · cases hrun
    · cases hdone
    · exact ⟨hnone, nofun⟩
  | @returns t path bytes hpc hpool =>
    have hfits := hs.fits
    rw [hpc, hpool] at hfits
    unfold Data at h
    rw [hpc] at h
    obtain ⟨ht, -, ⟨hrun, -⟩ | ⟨-, hpublished⟩ | ⟨⟨_, hfailed⟩, -⟩⟩ := hfits
    · cases hrun
    · exact data_leavePc rfl ⟨hpublished, t, ht, by rw [h]⟩
    · cases hfailed
  | drops => exact data_leavePc rfl trivial
  | answers hkind hanswer =>
    refine hsame _ (hanswer.trans hkind.symm) (fun inode heq => ?_) ?_
    · cases heq
      cases hanswer
    · intro o rest _ hflows ahead hahead
      have hbefore : w.pool.ahead = some [] := ahead_of_kind (by rw [hkind]; nofun)
      obtain rfl : ahead = [] := by
        have hafter := ahead_of_kind (hanswer.trans_ne nofun)
        exact (Option.some.inj (hafter.symm.trans hahead)).symm
      exact hflows [] hbefore
  | openFails error hpool =>
    refine hsame _ (by rw [hpool]; rfl) nofun ?_
    intro o rest _ hflows ahead hahead
    cases hahead
    exact hflows [] (by rw [hpool]; rfl)
  | @writeEnds inode rest result hpool hresult =>
    refine hsame _ (by rw [hpool]; rfl) nofun ?_
    intro o rest' hpc hflows ahead hahead
    rcases result with error | ⟨⟩
    · cases hahead
    · cases hahead
      exact hflows [] (by rw [hpool, hresult rfl]; rfl)
  | @publishFails conflict src dst error hpool =>
    refine hsame _ (by rw [hpool]; cases conflict <;> rfl) nofun ?_
    intro o rest hpc
    exact absurd (by rw [hpool]; cases conflict <;> rfl) (hs.fits.kind_of_writing hpc)
  | @findsNone path result hpc hgone =>
    unfold Data at h ⊢
    rw [hpc] at h
    rcases result with _ | _ | _ <;> exact h

theorem Data.publish {files : Directory Bytes UInt8} {content : Option Bytes} (hs : Shape w)
    (h : Data w) (hpool : w.pool.kind = some .publishing) (hcontent : content ≠ none) :
    Data { w with
      pool := .finished (.published (.ok ()))
      files
      past := { w.past with published := content } } := by
  refine h.of_same rfl rfl rfl rfl nofun ?_ fun _ => ⟨fun _ => hcontent, fun _ hne => ?_⟩
  · intro o rest hpc
    exact absurd hpool (hs.fits.kind_of_writing hpc)
  · exact absurd hpool hne

theorem Data.moves (hs : Shape w) (h : Data w) (hapart : Apart w a) (hmoves : Moves w a w') :
    Data w' := by
  cases hmoves with
  | turns hturn => exact h.turn hs hturn
  | @receives t left path inode hpc hpool =>
    unfold Data at h
    rw [hpc] at h
    obtain ⟨hsupplied, hended, hopened⟩ := h
    refine ⟨hended, fun ahead hahead => ?_, ?_⟩
    · cases hahead
      have hempty := hopened inode hpool
      refine ⟨?_, ?_, Nat.zero_le _⟩
      · rw [hempty, hsupplied]
        rfl
      · rw [hempty]
        rfl
    · rw [hsupplied]
      rfl
  | @pulls o chunk hpc =>
    unfold Data at h
    rw [hpc] at h
    obtain ⟨hended, hflows, hbytes⟩ := h
    refine data_storedPc rfl hended (fun ahead hahead => ?_) ?_
    · obtain ⟨hall, hoffset⟩ := hflows ahead hahead
      refine ⟨?_, hoffset⟩
      rw [← hall, List.append_nil]
    · rw [hbytes, Nat.mod_add_mod, List.length_append]
  | @pullEnds o hpc =>
    unfold Data at h
    rw [hpc] at h
    exact ⟨rfl, h.2⟩
  | @makes path _ hpool hfree =>
    have hworks := hs.works
    rw [hpool] at hworks
    refine h.of_same rfl rfl rfl rfl ?_ ?_ fun _ => ⟨id, fun hnone _ => ⟨hnone, nofun⟩⟩
    · intro _ _ _ inode _ hopened
      cases hopened
      simp
    · intro o rest hpc
      have hmade := ((fits_writesTo hpc).mp hs.fits).2.1
      exact absurd (hworks.1.symm.trans hmade) nofun
  | @writes inode rest n hpool hmax =>
    refine h.of_same rfl rfl rfl rfl nofun ?_ fun _ => ⟨id, fun hnone _ => ⟨hnone, nofun⟩⟩
    intro o rest' hpc hflows ahead hahead
    cases hahead
    have hwrites := ((fits_writesTo hpc).mp hs.fits).2.2.2
    rw [hpool] at hwrites
    obtain rfl : inode = o.inode := hwrites
    obtain ⟨hall, hoffset, -⟩ := hflows rest (by rw [hpool]; rfl)
    have hnow := write_content_end 0 (rest.take n) hoffset
    refine ⟨?_, ?_, hmax⟩
    · rw [hnow, ← hall, List.append_assoc (w.files.content _), List.take_append_drop]
    · rw [hnow, List.length_append, hoffset]
  | renames hpool hrename =>
    exact h.publish hs (by rw [hpool]; rfl) (read_of_rename hrename)
  | links hpool hlink => exact h.publish hs (by rw [hpool]; rfl) (read_of_link hlink)
  | @removes path result hpc | @sticks path result hpc =>
    unfold Data at h ⊢
    rw [hpc] at h
    rcases result with _ | _ | _ <;> exact h
  | others o ha hother =>
    subst ha
    obtain ⟨hpc', hpool', hrequest', hmade', -⟩ := byOther_keeps hother
    obtain ⟨hsupplied', hended', hpublished', hoffset'⟩ := byOther_past hother
    refine h.of_same hpc' hrequest' hsupplied' hended' ?_ ?_ fun _ => ?_
    · intro t left path inode hpc hopened
      rw [hpool'] at hopened
      have hfits := hs.fits
      rw [hpc, hopened] at hfits
      obtain ⟨-, -, ⟨hrun, -⟩ | ⟨⟨_, hfailed⟩, -⟩ | ⟨_, hsame, hmade, hnone⟩⟩ := hfits
      · cases hrun
      · cases hfailed
      · cases hsame
        rw [hs.content_of_other hapart hother hmade hnone]
        unfold Data at h
        rw [hpc] at h
        exact h.2.2 inode hopened
    · intro o' rest hpc hflows ahead hahead
      have hfits := (fits_writesTo hpc).mp hs.fits
      rw [hpool'] at hahead
      rw [hs.content_of_other hapart hother hfits.2.1 hfits.2.2.1, hsupplied', hoffset']
      exact hflows ahead hahead
    · rw [hpublished', hpool']
      exact ⟨id, fun hnone hne => ⟨hnone, hne⟩⟩

/-! ### The step -/

theorem publishJob_kind {src dst : Bytes} :
    (Pool.running (publishJob conflict src dst)).kind = some .publishing := by
  cases conflict <;> rfl

/-- A turn leaves a file to be published complete, and comes to publish no other. -/
theorem Sound.turn_job {src dst : Bytes} (h : Sound w) (hturn : Turn w a pc pool)
    (hpool : pool = .running (publishJob conflict src dst))
    (hmade : w.past.made = some (src, inode)) : Complete w (w.files.content inode) := by
  have hsame : pool = .idle ∨ pool = w.pool → Complete w (w.files.content inode) := by
    rintro (rfl | rfl)
    · cases hpool
    · exact h.job conflict src dst inode hpool hmade
  cases hturn with
  | begins | inspects | names | tries | takes | misses | returns | answers | openFails | writeEnds
  | publishFails => cases conflict <;> cases hpool
  | refuses _ _ hidle | fails _ _ hidle => exact hsame hidle
  | drops | findsNone => exact hsame (.inr rfl)
  | stores => cases conflict <;> cases hpool
  | @publishes o hpc hidle =>
    have hfits := h.shape.fits
    rw [hpc] at hfits
    obtain ⟨rfl, rfl⟩ := Prod.mk.inj (Option.some.inj (hmade.symm.trans hfits.2.1))
    have hdata := h.data
    unfold Data at hdata
    rw [hpc] at hdata
    obtain ⟨hended, hflows, -⟩ := hdata
    obtain ⟨hall, hoffset, hmax⟩ := hflows [] (by rw [hidle]; rfl)
    rw [List.append_nil, List.append_nil] at hall
    exact ⟨hall, hended, hoffset ▸ hmax⟩

/-- What is published is complete. -/
theorem Sound.read_complete {src dst : Bytes} {content : Bytes} (h : Sound w)
    (hpool : w.pool = .running (publishJob conflict src dst))
    (hread : w.files.read src = some content) : Complete w content := by
  have hworks := h.shape.works
  rw [hpool, works_publishJob] at hworks
  obtain ⟨-, -, t, inode, -, -, hmade⟩ := hworks
  obtain ⟨file, hentry, rfl⟩ := Option.map_eq_some_iff.mp hread
  obtain rfl := h.own src inode file hmade hentry
  exact h.job conflict src dst file hpool hmade

theorem Sound.own_moves (h : Sound w) (hapart : Apart w a) (hmoves : Moves w a w')
    (path : Bytes) (inode file : Nat) (hmade : w'.past.made = some (path, inode))
    (hentry : w'.files.entry path = some file) : file = inode := by
  cases hmoves with
  | turns | receives | pulls | pullEnds | writes | sticks =>
    exact h.own path inode file hmade hentry
  | makes =>
    cases hmade
    rw [create_entry, if_pos rfl, Option.some.injEq] at hentry
    exact hentry.symm
  | @renames src dst files hpool hrename =>
    have hworks := h.shape.works
    rw [hpool] at hworks
    obtain ⟨-, -, t, inode', -, rfl, hmade'⟩ := hworks
    obtain ⟨rfl, rfl⟩ := Prod.mk.inj (Option.some.inj (hmade.symm.trans hmade'))
    obtain ⟨file', -, hfiles⟩ := rename_eq_some.mp hrename
    rw [hfiles] at hentry
    split at hentry
    · exact h.own path inode file hmade hentry
    · rw [unlink_entry, if_pos rfl] at hentry
      cases hentry
  | @links src dst files hpool hlink =>
    have hworks := h.shape.works
    rw [hpool] at hworks
    obtain ⟨-, -, t, inode', ht, rfl, hmade'⟩ := hworks
    obtain ⟨-, -, rfl⟩ := link_eq_some.mp hlink
    obtain ⟨-, ⟨t', id, ht', rfl⟩, -⟩ := h.shape.sole.2 path inode hmade
    obtain rfl : t' = t := Except.ok.inj (ht'.symm.trans ht)
    rw [addName_entry, if_neg (partialPath_ne_destination ht' _ _)] at hentry
    exact h.own _ inode file hmade hentry
  | removes =>
    rw [unlink_entry] at hentry
    split at hentry
    · cases hentry
    · exact h.own path inode file hmade hentry
  | others o ha hother =>
    rw [(byOther_keeps hother).2.2.2.1] at hmade
    rw [entry_of_apart (ha ▸ hapart) hother hmade] at hentry
    exact h.own path inode file hmade hentry

theorem Sound.job_moves (h : Sound w) (hapart : Apart w a) (hmoves : Moves w a w')
    (conflict : WriteConflict) (src dst : Bytes) (inode : Nat)
    (hpool : w'.pool = .running (publishJob conflict src dst))
    (hmade : w'.past.made = some (src, inode)) : Complete w' (w'.files.content inode) := by
  cases hmoves with
  | turns hturn => exact h.turn_job hturn hpool hmade
  | receives | makes | renames | links | writes => cases conflict <;> cases hpool
  | pulls _ hpc | pullEnds hpc =>
    refine absurd ?_ (h.shape.fits.kind_of_writing (by rw [hpc]; rfl))
    exact (congrArg Pool.kind hpool).trans publishJob_kind
  | removes | sticks => exact h.job conflict src dst inode hpool hmade
  | others o ha hother =>
    subst ha
    obtain ⟨-, hpool', -, hmade', -⟩ := byOther_keeps hother
    obtain ⟨hsupplied', hended', -, -⟩ := byOther_past hother
    rw [hpool'] at hpool
    rw [hmade'] at hmade
    have hworks := h.shape.works
    rw [hpool, works_publishJob] at hworks
    rw [h.shape.content_of_other hapart hother hmade hworks.1, Complete, hsupplied', hended']
    exact h.job conflict src dst inode hpool hmade

theorem Sound.published_moves (h : Sound w) (hmoves : Moves w a w') (content : Bytes)
    (hpublished : w'.past.published = some content) : Complete w' content := by
  cases hmoves with
  | turns | receives | makes | writes | removes | sticks => exact h.published content hpublished
  | pulls _ hpc | pullEnds hpc =>
    have hfits := h.shape.fits
    rw [hpc] at hfits
    exact absurd (hfits.2.2.1.symm.trans hpublished) nofun
  | renames hpool _ => exact @Sound.read_complete w .replace _ _ _ h hpool hpublished
  | links hpool _ => exact @Sound.read_complete w .failIfExists _ _ _ h hpool hpublished
  | others o _ hother =>
    obtain ⟨hsupplied', hended', hpublished', -⟩ := byOther_past hother
    rw [Complete, hsupplied', hended']
    exact h.published content (hpublished' ▸ hpublished)

theorem Sound.theirs_moves (h : Sound w) (hmoves : Moves w a w') (name : Bytes) (inode : Nat)
    (hentry : w'.files.entry name = some inode)
    (hother : ∀ path, w'.past.made ≠ some (path, inode)) :
    w'.past.theirs inode = some (w'.files.content inode) := by
  cases hmoves with
  | turns | receives | pulls | pullEnds | sticks => exact h.theirs name inode hentry hother
  | @makes path _ hpool _ =>
    have hworks := h.shape.works
    rw [hpool] at hworks
    rw [create_entry] at hentry
    split at hentry
    · cases hentry
      exact absurd rfl (hother path)
    · have hne : inode ≠ w.files.fresh := Nat.ne_of_lt (w.files.old hentry)
      rw [create_content, if_neg hne]
      exact h.theirs name inode hentry fun path hmade => absurd (hworks.1.symm.trans hmade) nofun
  | @writes inode' rest n hpool _ =>
    have hworks := h.shape.works
    rw [hpool] at hworks
    obtain ⟨-, path, hmade⟩ := hworks
    have hne : inode ≠ inode' := fun heq => hother path (heq ▸ hmade)
    rw [write_content_of_ne hne]
    exact h.theirs name inode hentry hother
  | @renames src dst files hpool hrename =>
    have hworks := h.shape.works
    rw [hpool] at hworks
    obtain ⟨-, -, t, inode', -, -, hmade⟩ := hworks
    rw [rename_content hrename]
    obtain ⟨file, hsrc, hfiles⟩ := rename_eq_some.mp hrename
    rw [hfiles] at hentry
    split at hentry
    · exact h.theirs name inode hentry hother
    · rw [unlink_entry, addName_entry] at hentry
      split at hentry
      · cases hentry
      · split at hentry
        · obtain rfl := h.own src inode' inode hmade hentry
          exact absurd hmade (hother src)
        · exact h.theirs name inode hentry hother
  | @links src dst files hpool hlink =>
    have hworks := h.shape.works
    rw [hpool] at hworks
    obtain ⟨-, -, t, inode', -, -, hmade⟩ := hworks
    obtain ⟨-, -, rfl⟩ := link_eq_some.mp hlink
    rw [addName_entry] at hentry
    split at hentry
    · obtain rfl := h.own src inode' inode hmade hentry
      exact absurd hmade (hother src)
    · exact h.theirs name inode hentry hother
  | removes =>
    rw [unlink_entry] at hentry
    split at hentry
    · cases hentry
    · exact h.theirs name inode hentry hother
  | others o _ hby =>
    have hold : w.files.entry name = some inode →
        w.past.theirs inode = some (w.files.content inode) := fun hentry' =>
      h.theirs name inode hentry' fun path => (byOther_keeps hby).2.2.2.1 ▸ hother path
    cases o with
    | put name' content =>
      cases hby
      rw [fill_entry, create_entry] at hentry
      split at hentry
      · cases hentry
        simp
      · have hne : inode ≠ w.files.fresh := Nat.ne_of_lt (w.files.old hentry)
        simpa [hne] using hold hentry
    | edit name' content =>
      obtain ⟨inode', -, rfl⟩ := Option.map_eq_some_iff.mp hby
      by_cases heq : inode = inode'
      · subst heq
        simp
      · simpa [heq] using hold hentry
    | remove name' =>
      cases hby
      rw [unlink_entry] at hentry
      split at hentry
      · cases hentry
      · exact hold hentry

theorem Sound.ours_moves (h : Sound w) (hmoves : Moves w a w') (path : Bytes) (inode : Nat)
    (hmade : w'.past.made = some (path, inode)) (hpublished : w'.past.published ≠ none) :
    w'.files.content inode = w'.past.supplied ∨
      w'.past.theirs inode = some (w'.files.content inode) := by
  have hjob : ∀ {conflict src dst}, w.pool = .running (publishJob conflict src dst) →
      w.past.made = some (path, inode) → w.files.content inode = w.past.supplied := by
    intro conflict src dst hpool hmade
    have hworks := h.shape.works
    rw [hpool, works_publishJob] at hworks
    obtain ⟨-, -, t, inode', -, -, hmade'⟩ := hworks
    obtain ⟨rfl, rfl⟩ := Prod.mk.inj (Option.some.inj (hmade.symm.trans hmade'))
    exact (h.job conflict path dst inode hpool hmade).1
  cases hmoves with
  | turns | receives | removes | sticks => exact h.ours path inode hmade hpublished
  | pulls _ hpc | pullEnds hpc =>
    have hfits := h.shape.fits
    rw [hpc] at hfits
    exact absurd hfits.2.2.1 hpublished
  | makes _ hpool _ =>
    have hworks := h.shape.works
    rw [hpool] at hworks
    exact absurd (h.shape.sole.1 hworks.1) hpublished
  | writes _ hpool _ =>
    have hworks := h.shape.works
    rw [hpool] at hworks
    exact absurd hworks.1 hpublished
  | renames hpool hrename =>
    rw [rename_content hrename]
    exact .inl (@hjob .replace _ _ hpool hmade)
  | links hpool hlink =>
    obtain ⟨-, -, rfl⟩ := link_eq_some.mp hlink
    exact .inl (@hjob .failIfExists _ _ hpool hmade)
  | others o _ hby =>
    rw [(byOther_keeps hby).2.2.2.1] at hmade
    rw [(byOther_past hby).2.2.1] at hpublished
    have hbefore := h.ours path inode hmade hpublished
    have hlt := (h.shape.sole.2 path inode hmade).1
    cases o with
    | put name content =>
      cases hby
      have hne : inode ≠ w.files.fresh := Nat.ne_of_lt hlt
      simpa [hne] using hbefore
    | edit name content =>
      obtain ⟨inode', -, rfl⟩ := Option.map_eq_some_iff.mp hby
      by_cases heq : inode = inode'
      · subst heq
        exact .inr (by simp)
      · simpa [heq] using hbefore
    | remove name =>
      cases hby
      exact hbefore

theorem Sound.moves (h : Sound w) (hapart : Apart w a) (hmoves : Moves w a w') : Sound w' where
  shape := h.shape.moves hmoves
  data := h.data.moves h.shape hapart hmoves
  own := h.own_moves hapart hmoves
  job := h.job_moves hapart hmoves
  published := h.published_moves hmoves
  theirs := h.theirs_moves hmoves
  ours := h.ours_moves hmoves

theorem Fresh.sound_runs (hfresh : Fresh w₀) (h : Steps step Apart w₀ w) : Sound w :=
  h.invariant (I := Sound) (fun _ _ _ hsound hapart hstep =>
    hsound.moves hapart (moves_of_step hstep)) hfresh.sound

/-! ### What a write does to its destination -/

theorem Moves.published_ne_none (hmoves : Moves w a w') (h : w.past.published ≠ none) :
    w'.past.published ≠ none := by
  cases hmoves with
  | turns | receives | pulls | pullEnds | makes | writes | removes | sticks => exact h
  | renames _ hrename => exact read_of_rename hrename
  | links _ hlink => exact read_of_link hlink
  | others o _ hother => exact (byOther_past hother).2.2.1 ▸ h

/-- The destination is as it was. -/
def Untouched (t : Target) (w w' : World) : Prop :=
  w'.files.entry t.destination = w.files.entry t.destination ∧
    ∀ inode, w.files.entry t.destination = some inode →
      w'.files.content inode = w.files.content inode

/-- The partial file is put at the destination, where all that came from the source is then
read. -/
def Publishes (t : Target) (w w' : World) : Prop :=
  w.past.published = none ∧ w'.past.published = some w.past.supplied ∧
    w.past.sourceEnded = true ∧ w'.files.read t.destination = some w.past.supplied

theorem Sound.publishes {src dst : Bytes} {files : Directory Bytes UInt8} (h : Sound w)
    (ht : w.request.target = .ok t) (hpool : w.pool = .running (publishJob conflict src dst))
    (hread : w.files.read src ≠ none) (hput : files.read dst = w.files.read src) :
    Publishes t w { w with
      pool := .finished (.published (.ok ()))
      files
      past := { w.past with published := w.files.read src } } := by
  obtain ⟨content, hcontent⟩ := Option.ne_none_iff_exists'.mp hread
  obtain ⟨rfl, hended, -⟩ := h.read_complete hpool hcontent
  have hworks := h.shape.works
  rw [hpool, works_publishJob] at hworks
  obtain ⟨hnone, -, t', inode, ht', rfl, -⟩ := hworks
  obtain rfl : t' = t := Except.ok.inj (ht'.symm.trans ht)
  exact ⟨hnone, hcontent, hended, hput.trans hcontent⟩

/-- What was published stays so. -/
theorem Sound.published_stays {content : Bytes} (h : Sound w) (hmoves : Moves w a w')
    (hcontent : w.past.published = some content) : w'.past.published = some content := by
  cases hmoves with
  | turns | receives | pulls | pullEnds | makes | writes | removes | sticks => exact hcontent
  | renames hpool | links hpool =>
    have hworks := h.shape.works
    rw [hpool] at hworks
    exact absurd (hworks.1.symm.trans hcontent) nofun
  | others o _ hother => exact (byOther_past hother).2.2.1.trans hcontent

theorem Moves.request (hmoves : Moves w a w') : w'.request = w.request := by
  cases hmoves with
  | others o _ hother =>
    cases o with
    | put | remove =>
      cases hother
      rfl
    | edit =>
      obtain ⟨_, -, rfl⟩ := Option.map_eq_some_iff.mp hother
      rfl
  | _ => rfl

/-- The write itself leaves its destination as it is, but to publish. -/
theorem Sound.touches (h : Sound w) (ht : w.request.target = .ok t) (hown : ∀ o, a ≠ .other o)
    (hmoves : Moves w a w') :
    Untouched t w w' ∨ Publishes t w w' ∧
      (w.request.conflict = .failIfExists → w.files.entry t.destination = none) := by
  have hpart : ∀ path inode, w.past.made = some (path, inode) → t.destination ≠ path := by
    intro path inode hmade
    obtain ⟨-, ⟨t', id, ht', rfl⟩, -⟩ := h.shape.sole.2 path inode hmade
    obtain rfl : t' = t := Except.ok.inj (ht'.symm.trans ht)
    exact (partialPath_ne_destination ht' _ _).symm
  cases hmoves with
  | turns | receives | pulls | pullEnds | sticks => exact .inl ⟨rfl, fun _ _ => rfl⟩
  | @makes path _ hpool _ =>
    have hworks := h.shape.works
    rw [hpool] at hworks
    obtain ⟨-, t', id, ht', rfl⟩ := hworks
    obtain rfl : t' = t := Except.ok.inj (ht'.symm.trans ht)
    refine .inl ⟨?_, fun inode hentry => ?_⟩
    · rw [create_entry, if_neg (partialPath_ne_destination ht' _ _).symm]
    · rw [create_content, if_neg (Nat.ne_of_lt (w.files.old hentry))]
  | @writes inode rest n hpool _ =>
    have hworks := h.shape.works
    rw [hpool] at hworks
    obtain ⟨hnone, path, hmade⟩ := hworks
    refine .inl ⟨rfl, fun inode' hentry => write_content_of_ne ?_⟩
    -- Until it is published, the partial file is not at the destination.
    rintro rfl
    exact hpart path inode' hmade ((h.shape.sole.2 path inode' hmade).2.2 hnone _ hentry)
  | renames hpool hrename =>
    have hworks := h.shape.works
    rw [hpool] at hworks
    exact .inr ⟨@Sound.publishes w _ .replace _ _ _ h ht hpool (read_of_rename hrename)
        (read_renamed hrename),
      fun hconflict => absurd (hworks.2.1.symm.trans hconflict) nofun⟩
  | @links src dst files hpool hlink =>
    have hworks := h.shape.works
    rw [hpool] at hworks
    obtain ⟨-, -, t', inode, ht', rfl, -⟩ := hworks
    obtain rfl : t' = t := Except.ok.inj (ht'.symm.trans ht)
    exact .inr ⟨@Sound.publishes w _ .failIfExists _ _ _ h ht hpool (read_of_link hlink)
        (read_linked hlink),
      fun _ => (link_eq_some.mp hlink).2.1⟩
  | removes hpc =>
    have hfits := h.shape.fits
    rw [hpc] at hfits
    obtain ⟨inode, hmade⟩ := hfits
    refine .inl ⟨?_, fun _ _ => rfl⟩
    rw [unlink_entry, if_neg (hpart _ inode hmade)]
  | others o ha _ => exact absurd ha (hown o)

/-- A step of the write leaves the destination as it is. -/
def Spares (w : World) (a : Action) : Prop :=
  ∀ t w', w.request.target = .ok t → (∀ o, a ≠ .other o) → step w a = some w' → Untouched t w w'

/-- On the way from `w₀`, a step of the write put all that came by the end at the
destination. -/
def HasPublished (w₀ w : World) : Prop :=
  ∃ (t : Target) (w₁ w₂ : World) (a : Action), w.request.target = .ok t ∧
    Steps step Apart w₀ w₁ ∧ (∀ o, a ≠ .other o) ∧ step w₁ a = some w₂ ∧ Publishes t w₁ w₂ ∧
      w₂.files.read t.destination = some w.past.supplied ∧ Steps step Apart w₂ w

/-- What a write from `w₀` has come to, published whole or not at all. -/
structure Whole (w₀ w : World) : Prop where
  /-- The destination is as another process has put it, or is all that came. -/
  content : ∀ t inode, w.request.target = .ok t → w.files.entry t.destination = some inode →
    w.past.theirs inode = some (w.files.content inode) ∨
      w.files.content inode = w.past.supplied ∧ w.past.sourceEnded = true
  /-- The write leaves the destination as it is, unless this publishes. -/
  touches : ∀ t a w', w.request.target = .ok t → (∀ o, a ≠ .other o) → step w a = some w' →
    Untouched t w w' ∨ Publishes t w w'
  /-- With `FailIfExists`, it leaves one that is there as it is. -/
  keeps : ∀ t a w' inode, w.request.target = .ok t → w.request.conflict = .failIfExists →
    (∀ o, a ≠ .other o) → step w a = some w' → w.files.entry t.destination = some inode →
    Untouched t w w'
  /-- What has returned is `Ok` if and only if it has published. -/
  returned : ∀ result, w.pc = .ended (some result) →
    ((∃ written, result = .ok written) ↔ HasPublished w₀ w)
  /-- On an error, it has not touched the destination. -/
  error : ∀ error, w.pc = .ended (some (.error error)) → Steps step Spares w₀ w
  /-- On `Ok` it has published all that came, and says how much. -/
  ok : ∀ written, w.pc = .ended (some (.ok written)) →
    HasPublished w₀ w ∧ w.past.published = some w.past.supplied ∧ w.past.sourceEnded = true ∧
      ∃ t, w.request.target = .ok t ∧
        written = ⟨.ofBytes t.destination, w.past.supplied.length⟩

/-- What has published nothing has not touched the destination. -/
theorem Fresh.spares (hfresh : Fresh w₀) (h : Steps step Apart w₀ w)
    (hnone : w.past.published = none) : Steps step Spares w₀ w := by
  induction h with
  | refl => exact .refl _
  | @tail w₁ w₂ a prior hapart hstep ih =>
    have hsound := hfresh.sound_runs prior
    have hbefore : w₁.past.published = none := by
      by_contra hsome
      exact (moves_of_step hstep).published_ne_none hsome hnone
    refine (ih hbefore).tail (fun t w' ht hown hstep' => ?_) hstep
    obtain rfl := Option.some.inj (hstep.symm.trans hstep')
    rcases hsound.touches ht hown (moves_of_step hstep) with huntouched | ⟨⟨-, hsome, -⟩, -⟩
    · exact huntouched
    · exact absurd (hnone.symm.trans hsome) nofun

/-- The step that published, found in the run. -/
theorem Fresh.hasPublished (hfresh : Fresh w₀) (h : Steps step Apart w₀ w)
    (hsome : w.past.published ≠ none) : HasPublished w₀ w := by
  induction h with
  | refl => exact absurd hfresh.published hsome
  | @tail w₁ w₂ a prior hapart hstep ih =>
    have hsound := hfresh.sound_runs prior
    have hmoves := moves_of_step hstep
    cases hbefore : w₁.past.published with
    | some content =>
      -- It is the same that was published before, and all that came by then.
      obtain ⟨t, v, v', b, ht, hrun, hown, hpublishes, hwhole, hread, hrest⟩ :=
        ih (hbefore ▸ Option.some_ne_none _)
      have hafter := hsound.published_stays hmoves hbefore
      have hsame : w₂.past.supplied = w₁.past.supplied :=
        (hsound.published_moves hmoves content hafter).1.symm.trans
          (hsound.published content hbefore).1
      exact ⟨t, v, v', b, hmoves.request ▸ ht, hrun, hown, hpublishes, hwhole,
        hsame ▸ hread, hrest.tail hapart hstep⟩
    | none =>
      have hworks := hsound.shape.works
      have hown : ∀ o, a ≠ .other o := by
        rintro o rfl
        exact hsome ((byOther_past hstep).2.2.1.trans hbefore)
      have hit : ∃ t, w₁.request.target = .ok t ∧ Publishes t w₁ w₂ := by
        cases hmoves with
        | turns | receives | pulls | pullEnds | makes | writes | removes | sticks =>
          exact absurd hbefore hsome
        | renames hpool hrename =>
          rw [hpool] at hworks
          obtain ⟨-, -, t, inode, ht, -⟩ := hworks
          exact ⟨t, ht, @Sound.publishes w₁ t .replace _ _ _ hsound ht hpool
            (read_of_rename hrename) (read_renamed hrename)⟩
        | links hpool hlink =>
          rw [hpool] at hworks
          obtain ⟨-, -, t, inode, ht, -⟩ := hworks
          exact ⟨t, ht, @Sound.publishes w₁ t .failIfExists _ _ _ hsound ht hpool
            (read_of_link hlink) (read_linked hlink)⟩
        | others o ha _ => exact absurd ha (hown o)
      obtain ⟨t, ht, hpublishes⟩ := hit
      have hsame : w₂.past.supplied = w₁.past.supplied :=
        ((hsound.published_moves hmoves _ hpublishes.2.1).1).symm
      exact ⟨t, w₁, w₂, a, hmoves.request ▸ ht, prior, hown, hstep, hpublishes,
        hsame ▸ hpublishes.2.2.2, .refl _⟩

/-- What has published has not forgotten. -/
theorem HasPublished.ne_none (h : HasPublished w₀ w) : w.past.published ≠ none := by
  obtain ⟨t, w₁, w₂, a, -, -, -, -, hpublishes, -, hrest⟩ := h
  refine hrest.invariant (I := fun w => w.past.published ≠ none)
    (fun _ _ _ hne _ hstep => (moves_of_step hstep).published_ne_none hne) ?_
  rw [hpublishes.2.1]
  exact Option.some_ne_none _

/-- **Published whole or not at all**: in every run in which other processes leave the
partial file alone. -/
theorem published_whole (hfresh : Fresh w₀) (hrun : Steps step Apart w₀ w) : Whole w₀ w where
  content t inode ht hentry := by
    have h := hfresh.sound_runs hrun
    by_cases hmade : ∃ path, w.past.made = some (path, inode)
    · obtain ⟨path, hmade⟩ := hmade
      obtain ⟨-, ⟨t', id, ht', rfl⟩, hsole⟩ := h.shape.sole.2 path inode hmade
      obtain rfl : t' = t := Except.ok.inj (ht'.symm.trans ht)
      cases hpublished : w.past.published with
      | none =>
        exact absurd (hsole hpublished _ hentry).symm (partialPath_ne_destination ht' _ _)
      | some content =>
        rcases h.ours _ inode hmade (hpublished ▸ Option.some_ne_none _) with hall | htheirs
        · exact .inr ⟨hall, (h.published content hpublished).2.1⟩
        · exact .inl htheirs
    · exact .inl (h.theirs _ inode hentry fun path hpath => hmade ⟨path, hpath⟩)
  touches t a w' ht hown hstep :=
    ((hfresh.sound_runs hrun).touches ht hown (moves_of_step hstep)).imp_right And.left
  keeps t a w' inode ht hconflict hown hstep hentry := by
    rcases (hfresh.sound_runs hrun).touches ht hown (moves_of_step hstep) with
      huntouched | ⟨-, hfree⟩
    · exact huntouched
    · exact absurd ((hfree hconflict).symm.trans hentry) (Option.some_ne_none _).symm
  returned result hpc := by
    have hdata := (hfresh.sound_runs hrun).data
    unfold Data at hdata
    rw [hpc] at hdata
    cases result with
    | error error =>
      refine ⟨fun hok => ?_, fun hpublished => absurd hdata.1 hpublished.ne_none⟩
      obtain ⟨_, hok⟩ := hok
      cases hok
    | ok written => exact ⟨fun _ => hfresh.hasPublished hrun hdata.1, fun _ => ⟨written, rfl⟩⟩
  error error hpc := by
    have hdata := (hfresh.sound_runs hrun).data
    unfold Data at hdata
    rw [hpc] at hdata
    exact hfresh.spares hrun hdata.1
  ok written hpc := by
    have h := hfresh.sound_runs hrun
    have hdata := h.data
    unfold Data at hdata
    rw [hpc] at hdata
    obtain ⟨hpublished, t, ht, rfl⟩ := hdata
    obtain ⟨content, hcontent⟩ := Option.ne_none_iff_exists'.mp hpublished
    obtain ⟨rfl, hended, hmax⟩ := h.published content hcontent
    refine ⟨hfresh.hasPublished hrun hpublished, hcontent, hended, t, ht, ?_⟩
    -- No file is so large that its size would not fit a `u64`.
    rw [Nat.mod_eq_of_lt (Nat.lt_of_le_of_lt hmax (by decide))]

/-! ### A file that is replaced, and one that appears in between -/

def destination : Bytes := ascii "/srv/target"

/-- Another process's file is at the destination when two chunks are written over it; the
second goes to the pool in two pieces. -/
def replaced : List Action :=
  [.other (.put destination (ascii "before")), .begin, .finishDirectory true, .receive,
    .tryName 1, .finish none, .receive, .pull (some (.ok (ascii "two "))), .store 4, .progress 4,
    .finish none, .pull (some (.ok (ascii "chunks"))), .receive, .store 2, .progress 2,
    .finish none, .receive, .store 4, .progress 4, .finish none, .pull none, .receive, .publish,
    .finish none, .receive]

/-- Another process makes the destination after the last byte has come. -/
def overtaken : List Action :=
  [.begin, .finishDirectory true, .receive, .finish (some ⟨.notFound, []⟩), .receive, .tryName 1,
    .finish none, .receive, .pull (some (.ok (ascii "prefix"))), .store 6, .progress 6,
    .finish none, .pull none, .other (.put destination (ascii "winner")), .receive, .publish,
    .finish (some ⟨.alreadyExists, "File exists (os error 17)".toList⟩), .receive,
    .removePartial none]

/-- The one write publishes all that came, the other fails and leaves the other's file. -/
theorem replaced_and_overtaken_whole :
    (∃ w, Steps step Apart (firstWrite .replace) w ∧
      w.pc = .ended (some (.ok ⟨.ofBytes destination, 10⟩)) ∧
      w.files.read destination = some (ascii "two chunks") ∧ Whole (firstWrite .replace) w) ∧
    ∃ w, Steps step Apart (firstWrite .failIfExists) w ∧
      w.pc = .ended (some (.error (alreadyExists destination))) ∧
      w.files.read destination = some (ascii "winner") ∧ Whole (firstWrite .failIfExists) w := by
  have hreplaced : Steps step Apart (firstWrite .replace)
      (runs step Apart (firstWrite .replace) replaced) :=
    steps_runs (firstWrite .replace) replaced
  have hovertaken : Steps step Apart (firstWrite .failIfExists)
      (runs step Apart (firstWrite .failIfExists) overtaken) :=
    steps_runs (firstWrite .failIfExists) overtaken
  exact ⟨⟨_, hreplaced, by decide +kernel, by decide +kernel,
      published_whole (firstWrite_fresh .replace) hreplaced⟩,
    ⟨_, hovertaken, by decide +kernel, by decide +kernel,
      published_whole (firstWrite_fresh .failIfExists) hovertaken⟩⟩

end Fs

end FilePeeker
