import FilePeeker.Fs.Write

/-!
# What a write can do

`Turn` is what the future and the pool do to each other while files and past stay as they
are, and `Moves` is every step of a write (`moves_of_step`).

`Shape` holds of every run, whatever other processes do: what the pool works on fits where
the future is (`Fits`), or was when it was dropped (`Works`); and until it is published the
partial file has no name but its own (`Sole`).
-/

namespace FilePeeker

open FilePeeker.Path

namespace Fs

open Directory

variable {w w' w₀ : World} {a : Action} {pc : Pc} {pool : Pool} {t : Target} {path : Bytes}
  {inode : Nat} {o : Open} {conflict : WriteConflict}

/-! ### Steps -/

/-- Where a chunk leaves the future. -/
def storedPc (o : Open) (rest : Bytes) (length : Nat) : Pc :=
  if rest = [] then .pulling { o with bytes := (o.bytes + length) % 2 ^ 64 }
  else .storing o rest length

/-- Where the end of the future leaves it. -/
def leavePc (guard : Option Bytes) (result : Option (Except FsError Written)) : Pc :=
  match guard with
  | some path => .leaving path result
  | none => .ended result

/-- The operation that publishes a partial file. -/
def publishJob (conflict : WriteConflict) (src dst : Bytes) : Job :=
  match conflict with
  | .replace => .rename src dst
  | .failIfExists => .link src dst

/-- What is left of the guard when its file is published. -/
def publishedGuard (conflict : WriteConflict) (path : Bytes) : Option Bytes :=
  match conflict with
  | .replace => none
  | .failIfExists => some path

/-- What an operation is for. -/
inductive Kind
  | inspecting
  | opening
  | writing
  | publishing
deriving DecidableEq

def Pool.kind : Pool → Option Kind
  | .idle => none
  | .running .inspectDirectory | .running (.inspectDestination _) => some .inspecting
  | .finished (.directory _) | .finished (.destination _) => some .inspecting
  | .running (.openNew _) | .finished (.opened _) => some .opening
  | .running (.write _ _) | .finished (.wrote _) => some .writing
  | .running (.rename _ _) | .running (.link _ _) | .finished (.published _) => some .publishing

/-- What a future waits for. -/
def Pc.kind : Pc → Option Kind
  | .directory _ | .destination _ => some .inspecting
  | .creating .. => some .opening
  | .pulling _ | .storing .. | .flushing _ => some .writing
  | .publishing .. => some .publishing
  | .start | .naming .. | .leaving .. | .ended _ => none

/-- The future has come to its end, its guard aside. -/
def Pc.atEnd : Pc → Bool
  | .leaving .. | .ended _ => true
  | _ => false

/-- A future before its partial file is there: the last of its tries has failed, if it was
waiting for one. -/
def Unguarded (pc : Pc) (pool : Pool) : Prop :=
  match pc with
  | .start | .directory _ | .destination _ | .naming .. => True
  | .creating .. => ∃ error, pool = .finished (.opened (.error error))
  | _ => False

/-- The file a future writes to. -/
def Pc.writesTo : Pc → Option Open
  | .pulling o | .storing o _ _ | .flushing o => some o
  | _ => none

/-- A step of the future, or the end of an operation, that leaves all files and what has
been as they are. -/
inductive Turn (w : World) (a : Action) : Pc → Pool → Prop
  | begins {t : Target} (h : w.pc = .start) (ht : w.request.target = .ok t) :
      Turn w a (.directory t) (.running .inspectDirectory)
  | inspects {t : Target} (h : w.pc = .directory t) :
      Turn w a (.destination t) (.running (.inspectDestination t.destination))
  | names {t : Target} (left : Nat) (h : w.pc = .directory t ∨ w.pc = .destination t ∨
        ∃ left path error, w.pc = .creating t left path ∧
          w.pool = .finished (.opened (.error error))) :
      Turn w a (.naming t left) .idle
  | tries {t : Target} {left : Nat} (id : Nat) (h : w.pc = .naming t (left + 1)) :
      Turn w a (.creating t left (t.partialPath w.pid id))
        (.running (.openNew (t.partialPath w.pid id)))
  | refuses {pool : Pool} (error : FsError) (h : Unguarded w.pc w.pool)
      (hpool : pool = .idle ∨ pool = w.pool) : Turn w a (.ended (some (.error error))) pool
  | takes {o : Open} (h : w.pc.writesTo = some o) (hpool : w.pool = .finished (.wrote (.ok ()))) :
      Turn w a w.pc .idle
  | stores {o : Open} {rest : Bytes} {length : Nat} (n : Nat) (h : w.pc = .storing o rest length)
      (hpool : w.pool = .idle) :
      Turn w a (storedPc o (rest.drop n) length) (.running (.write o.inode (rest.take n)))
  | publishes {o : Open} (h : w.pc = .flushing o) (hpool : w.pool = .idle) :
      Turn w a (.publishing o.target o.path o.bytes)
        (.running (publishJob w.request.conflict o.path o.target.destination))
  | fails {o : Open} {pool : Pool} (error : FsError) (h : w.pc.writesTo = some o)
      (hpool : pool = .idle ∨ pool = w.pool) : Turn w a (.leaving o.path (some (.error error))) pool
  | misses {t : Target} {path : Bytes} {bytes : Nat} {ioError : IoError} (error : FsError)
      (h : w.pc = .publishing t path bytes)
      (hpool : w.pool = .finished (.published (.error ioError))) :
      Turn w a (.leaving path (some (.error error))) .idle
  | returns {t : Target} {path : Bytes} {bytes : Nat} (h : w.pc = .publishing t path bytes)
      (hpool : w.pool = .finished (.published (.ok ()))) :
      Turn w a (leavePc (publishedGuard w.request.conflict path)
        (some (.ok ⟨.ofBytes t.destination, bytes⟩))) .idle
  | drops {guard : Option Bytes} (ha : a = .drop) (h : World.dropGuard w.pc = some guard) :
      Turn w a (leavePc guard none) w.pool
  | answers {outcome : Outcome} (h : w.pool.kind = some .inspecting)
      (h' : (Pool.finished outcome).kind = some .inspecting) :
      Turn w a w.pc (.finished outcome)
  | openFails {path : Bytes} (error : IoError) (h : w.pool = .running (.openNew path)) :
      Turn w a w.pc (.finished (.opened (.error error)))
  | writeEnds {inode : Nat} {rest : Bytes} {result : Except IoError Unit}
      (h : w.pool = .running (.write inode rest)) (hresult : result = .ok () → rest = []) :
      Turn w a w.pc (.finished (.wrote result))
  | publishFails {conflict : WriteConflict} {src dst : Bytes} (error : IoError)
      (h : w.pool = .running (publishJob conflict src dst)) :
      Turn w a w.pc (.finished (.published (.error error)))
  | findsNone {path : Bytes} {result : Option (Except FsError Written)}
      (h : w.pc = .leaving path result) (hgone : w.files.entry path = none) :
      Turn w a (.ended result) w.pool

/-- What a step can make of a write. -/
inductive Moves (w : World) (a : Action) : World → Prop
  | turns {pc : Pc} {pool : Pool} (h : Turn w a pc pool) : Moves w a { w with pc, pool }
  | receives {t : Target} {left : Nat} {path : Bytes} {inode : Nat}
      (h : w.pc = .creating t left path) (hpool : w.pool = .finished (.opened (.ok inode))) :
      Moves w a { w with pc := .pulling ⟨t, path, inode, 0⟩, pool := .idle, offset := 0 }
  | pulls {o : Open} (chunk : Bytes) (h : w.pc = .pulling o) :
      Moves w a { w with
        pc := storedPc o chunk chunk.length
        past := { w.past with supplied := w.past.supplied ++ chunk } }
  | pullEnds {o : Open} (h : w.pc = .pulling o) :
      Moves w a { w with pc := .flushing o, past := { w.past with sourceEnded := true } }
  | makes {path : Bytes} (ha : a = .finish none) (h : w.pool = .running (.openNew path))
      (hfree : w.files.entry path = none) :
      Moves w a { w with
        pool := .finished (.opened (.ok w.files.fresh))
        files := w.files.create path
        past := { w.past with made := some (path, w.files.fresh) } }
  | writes {inode : Nat} {rest : Bytes} (n : Nat) (h : w.pool = .running (.write inode rest))
      (hmax : w.offset + (rest.take n).length ≤ maxFileBytes) :
      Moves w a { w with
        pool := .running (.write inode (rest.drop n))
        files := w.files.write 0 inode w.offset (rest.take n)
        offset := w.offset + (rest.take n).length }
  | renames {src dst : Bytes} {files : Directory Bytes UInt8}
      (h : w.pool = .running (.rename src dst)) (hrename : w.files.rename src dst = some files) :
      Moves w a { w with
        pool := .finished (.published (.ok ()))
        files
        past := { w.past with published := w.files.read src } }
  | links {src dst : Bytes} {files : Directory Bytes UInt8}
      (h : w.pool = .running (.link src dst)) (hlink : w.files.link src dst = some files) :
      Moves w a { w with
        pool := .finished (.published (.ok ()))
        files
        past := { w.past with published := w.files.read src } }
  | removes {path : Bytes} {result : Option (Except FsError Written)}
      (h : w.pc = .leaving path result) :
      Moves w a { w with pc := .ended result, files := w.files.unlink path }
  | sticks {path : Bytes} {result : Option (Except FsError Written)}
      (h : w.pc = .leaving path result) :
      Moves w a { w with pc := .ended result, past := { w.past with stuck := true } }
  | others {w' : World} (o : Other) (ha : a = .other o) (h : w.byOther o = some w') : Moves w a w'

theorem moves_of_receive {outcome : Outcome} (hpool : w.pool = .finished outcome)
    (h : w.receive outcome = some w') : Moves w a w' := by
  unfold World.receive at h
  dsimp only at h
  split at h
  · next t error hpc =>
    cases h
    exact .turns (.refuses _ (by rw [hpc]; trivial) (.inl rfl))
  · next t hpc =>
    cases h
    exact .turns (.refuses _ (by rw [hpc]; trivial) (.inl rfl))
  · next t hpc =>
    split at h
    · cases h
      exact .turns (.inspects hpc)
    · cases h
      exact .turns (.names 128 (.inl hpc))
  · next t hpc =>
    cases h
    exact .turns (.refuses _ (by rw [hpc]; trivial) (.inl rfl))
  · next t error hpc =>
    split at h
    · cases h
      exact .turns (.names 128 (.inr (.inl hpc)))
    · cases h
      exact .turns (.refuses _ (by rw [hpc]; trivial) (.inl rfl))
  · next t left path inode hpc =>
    cases h
    exact .receives hpc hpool
  · next t left path error hpc =>
    split at h
    · cases h
      exact .turns (.names left (.inr (.inr ⟨_, _, _, hpc, hpool⟩)))
    · cases h
      exact .turns (.refuses _ (by rw [hpc]; exact ⟨_, hpool⟩) (.inl rfl))
  · next o rest length hpc =>
    cases h
    exact .turns (.takes (o := o) (by rw [hpc]; rfl) hpool)
  · next o hpc =>
    cases h
    exact .turns (.takes (o := o) (by rw [hpc]; rfl) hpool)
  · next o rest length error hpc =>
    cases h
    exact .turns (.fails _ (by rw [hpc]; rfl) (.inl rfl))
  · next o error hpc =>
    cases h
    exact .turns (.fails _ (by rw [hpc]; rfl) (.inl rfl))
  · next t path bytes hpc =>
    cases h
    exact .turns (.returns hpc hpool)
  · next t path bytes error hpc =>
    cases h
    exact .turns (.misses _ hpc hpool)
  · cases h

theorem moves_of_finish {job : Job} {failure : Option IoError} (hpool : w.pool = .running job)
    (ha : a = .finish failure) (h : w.finish job failure = some w') : Moves w a w' := by
  unfold World.finish at h
  split at h
  · cases h
    exact .turns (.answers (by rw [hpool]; rfl) rfl)
  · cases h
  · split at h
    · cases h
    · cases h
      exact .turns (.answers (by rw [hpool]; rfl) rfl)
  · split at h
    · cases h
    · cases h
      exact .turns (.answers (by rw [hpool]; rfl) rfl)
  · cases h
    exact .turns (.openFails _ hpool)
  · split at h
    · cases h
    · next hfree =>
      cases h
      exact .makes ha hpool (not_not.mp hfree)
  · cases h
    exact .turns (.writeEnds hpool nofun)
  · split at h
    · next hrest =>
      cases h
      exact .turns (.writeEnds hpool fun _ => hrest)
    · cases h
  · next src dst error =>
    cases h
    exact .turns (@Turn.publishFails _ _ .replace _ _ error hpool)
  · next src dst error =>
    cases h
    exact .turns (@Turn.publishFails _ _ .failIfExists _ _ error hpool)
  · obtain ⟨files, hrename, rfl⟩ := Option.map_eq_some_iff.mp h
    exact .renames hpool hrename
  · obtain ⟨files, hlink, rfl⟩ := Option.map_eq_some_iff.mp h
    exact .links hpool hlink

theorem moves_of_step (h : step w a = some w') : Moves w a w' := by
  cases a with
  | begin =>
    simp only [step] at h
    split at h
    · next hpc =>
      split at h
      · cases h
        exact .turns (.refuses _ (by rw [hpc]; trivial) (.inr rfl))
      · next t ht =>
        cases h
        exact .turns (.begins hpc ht)
    · cases h
  | receive =>
    simp only [step] at h
    split at h
    · next outcome hpool => exact moves_of_receive hpool h
    · cases h
  | tryName id =>
    simp only [step] at h
    split at h
    · next t hpc =>
      cases h
      exact .turns (.refuses _ (by rw [hpc]; trivial) (.inr rfl))
    · next t left hpc =>
      cases h
      exact .turns (.tries id hpc)
    · cases h
  | pull item =>
    simp only [step] at h
    split at h
    · next o chunk hpc =>
      cases h
      exact .pulls chunk hpc
    · next o error hpc =>
      cases h
      exact .turns (.fails error (by rw [hpc]; rfl) (.inr rfl))
    · next o hpc =>
      cases h
      exact .pullEnds hpc
    · cases h
  | store n =>
    simp only [step] at h
    split at h
    · next o rest length hpc hpool =>
      split at h
      · cases h
      · cases h
        exact .turns (.stores n hpc hpool)
    · cases h
  | publish =>
    simp only [step] at h
    split at h
    · next o hpc hpool =>
      cases h
      exact .turns (.publishes hpc hpool)
    · cases h
  | removePartial failure =>
    simp only [step] at h
    split at h
    · next path result hpc =>
      split at h
      · cases h
      · cases h
        exact .removes hpc
    · next path result error hpc =>
      split at h
      · split at h
        · next hgone =>
          cases h
          exact .turns (.findsNone hpc hgone)
        · cases h
      · cases h
        exact .sticks hpc
    · cases h
  | drop =>
    obtain ⟨guard, hguard, rfl⟩ := Option.map_eq_some_iff.mp h
    exact .turns (.drops rfl hguard)
  | finish failure =>
    simp only [step] at h
    split at h
    · next job hpool => exact moves_of_finish hpool rfl h
    · cases h
  | finishDirectory isDir =>
    simp only [step] at h
    split at h
    · next hpool =>
      cases h
      exact .turns (.answers (by rw [hpool]; rfl) rfl)
    · cases h
  | progress n =>
    simp only [step] at h
    split at h
    · next inode rest hpool =>
      split at h
      · next hmax =>
        cases h
        exact .writes n hpool hmax
      · cases h
    · cases h
  | other o => exact .others o rfl h

/-! ### Names -/

theorem Request.target_name {request : Request} (h : request.target = .ok t) :
    isAbsolute t.name = false := by
  obtain ⟨hname, -, hreal⟩ := Request.target_spec h
  unfold PathString.isName at hname
  rw [hreal] at hname
  -- The components of an absolute path begin with the root.
  cases habs : isAbsolute t.name with
  | false => rfl
  | true => simp [components_absolute habs] at hname

/-- The partial file is not the destination: its name is longer. -/
theorem partialPath_ne_destination {request : Request} (h : request.target = .ok t)
    (pid id : Nat) : t.partialPath pid id ≠ t.destination := by
  have hname := Request.target_name h
  have hpart : isAbsolute (t.partialName pid id) = false := rfl
  have hlength : t.name.length < (t.partialName pid id).length := by
    have hdot : (ascii ".").length = 1 := rfl
    simp only [Target.partialName, List.length_append, hdot]
    omega
  intro heq
  have hsame := congrArg List.length heq
  simp only [Target.partialPath, Target.destination, join, hname, hpart, Bool.false_eq_true,
    if_false] at hsame
  split at hsame <;> simp only [List.length_append, List.length_cons] at hsame <;> omega

/-! ### The shape of a write -/

/-- What the pool can have of a future that writes to a file. -/
def Pool.writes (inode : Nat) : Pool → Prop
  | .idle | .finished (.wrote _) => True
  | .running (.write i _) => i = inode
  | _ => False

/-- The future writes to the partial file that was made. -/
def Writing (w : World) (o : Open) (pool : Pool) : Prop :=
  w.request.target = .ok o.target ∧ w.past.made = some (o.path, o.inode) ∧
    w.past.published = none ∧ pool.writes o.inode

/-- A pool fits where a future is, while it is not at its end. -/
def Fits (w : World) (pc : Pc) (pool : Pool) : Prop :=
  match pc with
  | .start => pool = .idle ∧ w.past.made = none
  | .directory t | .destination t =>
    w.request.target = .ok t ∧ pool.kind = some .inspecting ∧ w.past.made = none
  | .naming t _ => w.request.target = .ok t ∧ pool = .idle ∧ w.past.made = none
  | .creating t _ path => w.request.target = .ok t ∧ (∃ id, path = t.partialPath w.pid id) ∧
      (pool = .running (.openNew path) ∧ w.past.made = none ∨
        (∃ error, pool = .finished (.opened (.error error))) ∧ w.past.made = none ∨
        ∃ inode, pool = .finished (.opened (.ok inode)) ∧ w.past.made = some (path, inode) ∧
          w.past.published = none)
  | .pulling o | .storing o _ _ | .flushing o => Writing w o pool
  | .publishing t path _ => w.request.target = .ok t ∧ (∃ inode, w.past.made = some (path, inode)) ∧
      (pool = .running (publishJob w.request.conflict path t.destination) ∧
          w.past.published = none ∨
        pool = .finished (.published (.ok ())) ∧ w.past.published ≠ none ∨
        (∃ error, pool = .finished (.published (.error error))) ∧ w.past.published = none)
  | .leaving path _ => ∃ inode, w.past.made = some (path, inode)
  | .ended _ => True

/-- The pool is about to publish the partial file. -/
def Publishing (w : World) (conflict : WriteConflict) (src dst : Bytes) : Prop :=
  w.past.published = none ∧ w.request.conflict = conflict ∧
    ∃ t inode, w.request.target = .ok t ∧ dst = t.destination ∧ w.past.made = some (src, inode)

/-- What a pool works on, whether the future still waits for it or not. -/
def Works (w : World) (pool : Pool) : Prop :=
  match pool with
  | .running (.openNew path) => w.past.made = none ∧
      ∃ t id, w.request.target = .ok t ∧ path = t.partialPath w.pid id
  | .running (.write inode _) =>
    w.past.published = none ∧ ∃ path, w.past.made = some (path, inode)
  | .running (.rename src dst) => Publishing w .replace src dst
  | .running (.link src dst) => Publishing w .failIfExists src dst
  | _ => True

/-- Until it is published, the partial file has no name but its own. -/
def Sole (w : World) : Prop :=
  (w.past.made = none → w.past.published = none) ∧
  ∀ path inode, w.past.made = some (path, inode) → inode < w.files.fresh ∧
    (∃ t id, w.request.target = .ok t ∧ path = t.partialPath w.pid id) ∧
    (w.past.published = none → ∀ name, w.files.entry name = some inode → name = path)

structure Shape (w : World) : Prop where
  fits : Fits w w.pc w.pool
  works : Works w w.pool
  sole : Sole w

theorem Fresh.shape (h : Fresh w) : Shape w where
  fits := by
    rw [h.pc]
    exact ⟨h.pool, h.made⟩
  works := by
    rw [h.pool]
    trivial
  sole := by
    refine ⟨fun _ => h.published, fun path inode hmade => ?_⟩
    rw [h.made] at hmade
    cases hmade

theorem fits_writesTo (h : pc.writesTo = some o) : Fits w pc pool ↔ Writing w o pool := by
  cases pc <;> cases h <;> rfl

theorem fits_storedPc {rest : Bytes} {length : Nat} :
    Fits w (storedPc o rest length) pool ↔ Writing w o pool := by
  unfold storedPc
  split <;> rfl

theorem works_publishJob {src dst : Bytes} :
    Works w (.running (publishJob conflict src dst)) ↔ Publishing w conflict src dst := by
  cases conflict <;> rfl

/-- The pool has what the future waits for. -/
theorem Fits.kind (h : Fits w pc pool) : pc.atEnd ∨ pool.kind = none ∨ pool.kind = pc.kind := by
  cases pc with
  | leaving path result | ended result => exact .inl rfl
  | start => exact .inr (.inl (by rw [h.1]; rfl))
  | naming t left => exact .inr (.inl (by rw [h.2.1]; rfl))
  | directory t | destination t => exact .inr (.inr h.2.1)
  | creating t left path =>
    obtain ⟨-, -, ⟨hpool, -⟩ | ⟨⟨error, hpool⟩, -⟩ | ⟨inode, hpool, -⟩⟩ := h <;>
      exact .inr (.inr (by rw [hpool]; rfl))
  | pulling o | storing o rest length | flushing o =>
    have hwrites := h.2.2.2
    cases pool with
    | idle => exact .inr (.inl rfl)
    | running job => cases job <;> first | exact .inr (.inr rfl) | cases hwrites
    | finished outcome => cases outcome <;> first | exact .inr (.inr rfl) | cases hwrites
  | publishing t path bytes =>
    obtain ⟨-, -, ⟨hpool, -⟩ | ⟨hpool, -⟩ | ⟨⟨error, hpool⟩, -⟩⟩ := h
    · cases hconflict : w.request.conflict <;>
        exact .inr (.inr (by rw [hpool, hconflict]; rfl))
    · exact .inr (.inr (by rw [hpool]; rfl))
    · exact .inr (.inr (by rw [hpool]; rfl))

/-- Before there is a guard there is no partial file. -/
theorem Fits.made_of_unguarded (h : Fits w w.pc w.pool)
    (hpc : w.pc = .directory t ∨ w.pc = .destination t ∨ ∃ left path error,
      w.pc = .creating t left path ∧ w.pool = .finished (.opened (.error error))) :
    w.request.target = .ok t ∧ w.past.made = none := by
  rcases hpc with hpc | hpc | ⟨left, path, error, hpc, hpool⟩
  · rw [hpc] at h
    exact ⟨h.1, h.2.2⟩
  · rw [hpc] at h
    exact ⟨h.1, h.2.2⟩
  · rw [hpc, hpool] at h
    obtain ⟨ht, -, ⟨hrun, -⟩ | ⟨-, hmade⟩ | ⟨inode, hopened, -⟩⟩ := h
    · cases hrun
    · exact ⟨ht, hmade⟩
    · cases hopened

/-- A guard is of the partial file that was made. -/
theorem Fits.made_of_guard (h : Fits w w.pc w.pool)
    (hguard : World.dropGuard w.pc = some (some path)) :
    ∃ inode, w.past.made = some (path, inode) := by
  cases hpc : w.pc with
  | pulling o | storing o rest length | flushing o =>
    rw [hpc] at h hguard
    cases hguard
    exact ⟨_, h.2.1⟩
  | publishing t path' bytes =>
    rw [hpc] at h hguard
    cases hguard
    exact h.2.1
  | start | directory t | destination t | naming t left | creating t left path | leaving path result
  | ended result =>
    rw [hpc] at hguard
    cases hguard

theorem fits_leavePc {guard : Option Bytes} {result : Option (Except FsError Written)}
    (h : ∀ path, guard = some path → ∃ inode, w.past.made = some (path, inode)) :
    Fits w (leavePc guard result) pool := by
  cases guard with
  | none => trivial
  | some path => exact h path rfl

theorem Turn.fits (hturn : Turn w a pc pool) (h : Fits w w.pc w.pool) : Fits w pc pool := by
  cases hturn with
  | begins hpc ht =>
    rw [hpc] at h
    exact ⟨ht, rfl, h.2⟩
  | inspects hpc =>
    rw [hpc] at h
    exact ⟨h.1, rfl, h.2.2⟩
  | names left hpc =>
    have hmade := h.made_of_unguarded hpc
    exact ⟨hmade.1, rfl, hmade.2⟩
  | tries id hpc =>
    rw [hpc] at h
    exact ⟨h.1, ⟨id, rfl⟩, .inl ⟨rfl, h.2.2⟩⟩
  | refuses | findsNone => trivial
  | takes hpc hpool =>
    rw [fits_writesTo hpc] at h ⊢
    exact ⟨h.1, h.2.1, h.2.2.1, trivial⟩
  | stores n hpc hpool =>
    rw [hpc] at h
    rw [fits_storedPc]
    exact ⟨h.1, h.2.1, h.2.2.1, rfl⟩
  | publishes hpc hpool =>
    rw [hpc] at h
    exact ⟨h.1, ⟨_, h.2.1⟩, .inl ⟨rfl, h.2.2.1⟩⟩
  | fails error hpc hpool =>
    rw [fits_writesTo hpc] at h
    exact ⟨_, h.2.1⟩
  | misses error hpc hpool =>
    rw [hpc] at h
    exact h.2.1
  | returns hpc hpool =>
    rw [hpc] at h
    refine fits_leavePc fun path hpath => ?_
    cases hconflict : w.request.conflict <;> rw [hconflict] at hpath <;> cases hpath
    exact h.2.1
  | drops _ hguard => exact fits_leavePc fun path hpath => h.made_of_guard (hpath ▸ hguard)
  | answers hpool hanswer =>
    have hkind := h.kind
    cases hpc : w.pc with
    | directory t | destination t =>
      rw [hpc] at h
      exact ⟨h.1, hanswer, h.2.2⟩
    | leaving path result | ended result =>
      rw [hpc] at h
      exact h
    | _ => simp [hpc, hpool, Pc.kind, Pc.atEnd] at hkind
  | openFails error hpool =>
    have hkind := h.kind
    cases hpc : w.pc with
    | creating t left path =>
      rw [hpc, hpool] at h
      obtain ⟨ht, hpath, ⟨-, hmade⟩ | ⟨⟨_, hopened⟩, -⟩ | ⟨_, hopened, -⟩⟩ := h
      · exact ⟨ht, hpath, .inr (.inl ⟨⟨_, rfl⟩, hmade⟩)⟩
      · cases hopened
      · cases hopened
    | leaving path result | ended result =>
      rw [hpc] at h
      exact h
    | _ => simp [hpc, hpool, Pool.kind, Pc.kind, Pc.atEnd] at hkind
  | writeEnds hpool hresult =>
    have hkind := h.kind
    cases hpc : w.pc with
    | pulling o | storing o rest length | flushing o =>
      rw [hpc] at h
      exact ⟨h.1, h.2.1, h.2.2.1, trivial⟩
    | leaving path result | ended result =>
      rw [hpc] at h
      exact h
    | _ => simp [hpc, hpool, Pool.kind, Pc.kind, Pc.atEnd] at hkind
  | @publishFails conflict src dst error hpool =>
    have hkind := h.kind
    cases hpc : w.pc with
    | publishing t path bytes =>
      rw [hpc, hpool] at h
      obtain ⟨ht, hmade, ⟨-, hnone⟩ | ⟨hdone, -⟩ | ⟨⟨_, hdone⟩, -⟩⟩ := h
      · exact ⟨ht, hmade, .inr (.inr ⟨⟨_, rfl⟩, hnone⟩)⟩
      · cases hdone
      · cases hdone
    | leaving path result | ended result =>
      rw [hpc] at h
      exact h
    | _ => cases conflict <;> simp [hpc, hpool, publishJob, Pool.kind, Pc.kind, Pc.atEnd] at hkind

theorem Turn.works (hturn : Turn w a pc pool) (hfits : Fits w w.pc w.pool)
    (h : Works w w.pool) : Works w pool := by
  have hsame : pool = .idle ∨ pool = w.pool → Works w pool := by
    rintro (rfl | rfl)
    · trivial
    · exact h
  cases hturn with
  | begins | inspects | names | takes | misses | returns | openFails | writeEnds | publishFails =>
    trivial
  | answers _ hanswer => trivial
  | @tries t left id hpc =>
    rw [hpc] at hfits
    exact ⟨hfits.2.2, t, id, hfits.1, rfl⟩
  | refuses _ _ hpool => exact hsame hpool
  | fails _ _ hpool => exact hsame hpool
  | drops | findsNone => exact h
  | @stores o rest length n hpc hpool =>
    rw [hpc] at hfits
    exact ⟨hfits.2.2.1, o.path, hfits.2.1⟩
  | @publishes o hpc hpool =>
    rw [hpc] at hfits
    exact works_publishJob.mpr ⟨hfits.2.2.1, rfl, o.target, o.inode, hfits.1, rfl, hfits.2.1⟩

/-- Where a file has been published, nothing of it is left to be kept for itself. -/
theorem Sole.publish {files : Directory Bytes UInt8} {src dst : Bytes} {content : Option Bytes}
    (h : Sole w) (hpublishing : Publishing w conflict src dst) (hfresh : files.fresh = w.files.fresh)
    (hcontent : content ≠ none) :
    Sole { w with pool, files, past := { w.past with published := content } } := by
  obtain ⟨-, -, t, inode, -, -, hmade⟩ := hpublishing
  refine ⟨fun hnone => ?_, fun path inode hmade' => ?_⟩
  · exact absurd (hmade.symm.trans hnone) nofun
  · obtain ⟨hlt, hpath, -⟩ := h.2 path inode hmade'
    exact ⟨hfresh ▸ hlt, hpath, fun hnone => absurd hnone hcontent⟩

/-- A published file is where the future waits for it, if it does. -/
theorem Fits.publish {content : Option Bytes} (h : Fits w w.pc w.pool)
    (hpool : w.pool.kind = some .publishing) (hcontent : content ≠ none) :
    Fits { w with past := { w.past with published := content } } w.pc
      (.finished (.published (.ok ()))) := by
  have hkind := h.kind
  cases hpc : w.pc with
  | publishing t path bytes =>
    rw [hpc] at h
    exact ⟨h.1, h.2.1, .inr (.inl ⟨rfl, hcontent⟩)⟩
  | leaving path result | ended result =>
    rw [hpc] at h
    exact h
  | _ => simp [hpc, hpool, Pc.kind, Pc.atEnd] at hkind

theorem Shape.other {o : Other} (h : Shape w) (hother : w.byOther o = some w') : Shape w' := by
  cases o with
  | put name content =>
    cases hother
    refine ⟨h.fits, h.works, h.sole.1, fun path inode hmade => ?_⟩
    obtain ⟨hlt, hpath, hsole⟩ := h.sole.2 path inode hmade
    refine ⟨Nat.lt_succ_of_lt hlt, hpath, fun hnone name' hentry => ?_⟩
    rw [fill_entry, create_entry] at hentry
    split at hentry
    · rw [Option.some.injEq] at hentry
      exact absurd hentry (Nat.ne_of_gt hlt)
    · exact hsole hnone name' hentry
  | edit name content =>
    obtain ⟨inode, -, rfl⟩ := Option.map_eq_some_iff.mp hother
    exact ⟨h.fits, h.works, h.sole⟩
  | remove name =>
    cases hother
    refine ⟨h.fits, h.works, h.sole.1, fun path inode hmade => ?_⟩
    obtain ⟨hlt, hpath, hsole⟩ := h.sole.2 path inode hmade
    refine ⟨hlt, hpath, fun hnone name' hentry => ?_⟩
    rw [unlink_entry] at hentry
    split at hentry
    · cases hentry
    · exact hsole hnone name' hentry

theorem Shape.moves (h : Shape w) (hmoves : Moves w a w') : Shape w' := by
  cases hmoves with
  | turns hturn => exact ⟨hturn.fits h.fits, hturn.works h.fits h.works, h.sole⟩
  | receives hpc hpool =>
    have hfits := h.fits
    rw [hpc, hpool] at hfits
    obtain ⟨ht, -, ⟨hrun, -⟩ | ⟨⟨error, hfailed⟩, -⟩ | ⟨inode, hopened, hmade, hnone⟩⟩ := hfits
    · cases hrun
    · cases hfailed
    · cases hopened
      exact ⟨⟨ht, hmade, hnone, trivial⟩, trivial, h.sole⟩
  | pulls chunk hpc =>
    have hfits := h.fits
    rw [hpc] at hfits
    exact ⟨fits_storedPc.mpr hfits, h.works, h.sole⟩
  | pullEnds hpc =>
    have hfits := h.fits
    rw [hpc] at hfits
    exact ⟨hfits, h.works, h.sole⟩
  | @makes path _ hpool hfree =>
    have hworks := h.works
    rw [hpool] at hworks
    refine ⟨?_, trivial, nofun, ?_⟩
    · have hfits := h.fits
      have hkind := hfits.kind
      cases hpc : w.pc with
      | creating t left path' =>
        rw [hpc, hpool] at hfits
        obtain ⟨ht, hpath, ⟨hrun, -⟩ | ⟨⟨error, hfailed⟩, -⟩ | ⟨inode, hopened, -⟩⟩ := hfits
        · cases hrun
          exact ⟨ht, hpath, .inr (.inr ⟨_, rfl, rfl, h.sole.1 hworks.1⟩)⟩
        · cases hfailed
        · cases hopened
      | leaving path' result =>
        rw [hpc] at hfits
        obtain ⟨inode, hmade⟩ := hfits
        exact absurd (hworks.1.symm.trans hmade) nofun
      | ended result => trivial
      | _ => simp [hpc, hpool, Pool.kind, Pc.kind, Pc.atEnd] at hkind
    · intro path' inode hmade
      cases hmade
      refine ⟨Nat.lt_succ_self _, hworks.2, fun _ name hentry => ?_⟩
      rw [create_entry] at hentry
      split at hentry
      · assumption
      · exact absurd (w.files.old hentry) (Nat.lt_irrefl _)
  | writes n hpool hmax =>
    have hworks := h.works
    rw [hpool] at hworks
    refine ⟨?_, hworks, h.sole⟩
    have hfits := h.fits
    have hkind := hfits.kind
    cases hpc : w.pc with
    | pulling o | storing o rest length | flushing o =>
      rw [hpc, hpool] at hfits
      exact hfits
    | leaving path result | ended result =>
      rw [hpc] at hfits
      exact hfits
    | _ => simp [hpc, hpool, Pool.kind, Pc.kind, Pc.atEnd] at hkind
  | renames hpool hrename =>
    have hworks := h.works
    rw [hpool] at hworks
    have hread := read_of_rename hrename
    exact ⟨h.fits.publish (by rw [hpool]; rfl) hread, trivial,
      h.sole.publish hworks (rename_fresh hrename) hread⟩
  | links hpool hlink =>
    have hworks := h.works
    rw [hpool] at hworks
    have hread := read_of_link hlink
    obtain ⟨-, -, rfl⟩ := link_eq_some.mp hlink
    exact ⟨h.fits.publish (by rw [hpool]; rfl) hread, trivial, h.sole.publish hworks rfl hread⟩
  | removes hpc =>
    refine ⟨trivial, h.works, h.sole.1, fun path inode hmade => ?_⟩
    obtain ⟨hlt, hpath, hsole⟩ := h.sole.2 path inode hmade
    refine ⟨hlt, hpath, fun hnone name hentry => ?_⟩
    rw [unlink_entry] at hentry
    split at hentry
    · cases hentry
    · exact hsole hnone name hentry
  | sticks hpc => exact ⟨trivial, h.works, h.sole⟩
  | others o _ hother => exact h.other hother

end Fs

end FilePeeker
