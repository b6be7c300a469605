import FilePeeker.Server.Turns

/-!
# Sockets two homes share

The lock is in the host directory, and what it protects is in the connections
directory.  Without `FILE_PEEKER_HOME` the first is under `HOME` and the second is not:
two environments of one user with two `HOME`s have one connections directory and two
locks (`lock_of_run`), and a server started in one of them claims, for a crashed server's,
the sockets of the server that runs in the other (`taken_of_two_locks`).

Where processes with a socket path in common have one lock (`OneLock`), none takes a
socket file from another that still runs, in the runs where a listener binds its socket
again only while `serve` waits for it (`InService`): who takes or makes a file then holds
the lock, and a socket file is of a process that has had it (`Inv`).  In the other runs a
listener outlives its server, and takes the socket of the next one
(`taken_of_late_rebind`); only processes that have no socket path in common, or that
cannot bind theirs, are safe from each other there (`neverTakes_of_noneShared`).
-/

namespace FilePeeker

namespace Sockets

open FilePeeker.Path

variable {ι : Type*} [DecidableEq ι] {homes : ι → Home} {home : Home} {v : View}
  {p p' : Process} {op : Op} {effect : Effect} {socket : Socket} {w w' : World ι} {i j : ι}

/-! ### What a step of a process does -/

/-- In one of the phases after the lock was taken. -/
def Phase.past : Phase → Bool
  | idle | opening | acquiring .. => false
  | locked | claiming _ | binding .. | serving | stopping _ | dropping .. | ended _ | crashed => true

/-- In a phase where the services run. -/
def Phase.accepts : Phase → Bool
  | serving | stopping _ => true
  | _ => false

theorem Phase.past_of_holds {phase : Phase} (h : phase.holds) : phase.past := by
  cases phase <;> first | rfl | cases h

theorem Phase.holds_of_accepts {phase : Phase} (h : phase.accepts) : phase.holds := by
  cases phase <;> first | rfl | cases h

theorem Phase.holds_of_running {phase : Phase} (hpast : phase.past) (h : phase.running) :
    phase.holds := by
  cases phase <;> simp_all [past, running, holds]

@[simp] theorem Process.enter_phase (phase : Phase) : (p.enter phase).phase = phase := rfl

@[simp] theorem Process.setListener_phase (l : Listener) :
    (p.setListener l socket).phase = p.phase := by
  cases socket <;> rfl

@[simp] theorem Process.silenced_phase : p.silenced.phase = p.phase := rfl

/-- What the effect of a step says of the phases before and after it. -/
def Effect.Fits (v : View) (phase phase' : Phase) : Effect → Prop
  | take => phase.holds = false ∧ phase'.holds ∧ v.held = false
  | free => phase.holds ∧ phase'.holds = false ∧ phase'.past
  | none | remove _ | create _ _ => phase'.holds = phase.holds ∧ (phase.past → phase'.past)

theorem Process.Goes.fits {phase phase' : Phase} (h : p.Goes home v op phase phase' effect) :
    effect.Fits v phase phase' := by
  cases h with
  | locks hfree => exact ⟨rfl, rfl, hfree⟩
  | releases => exact ⟨rfl, rfl, rfl⟩
  | _ => simp [Effect.Fits, Phase.holds, Phase.past]

theorem Process.Listens.fits {l l' : Listener} (h : p.Listens v socket op l l' effect)
    (phase : Phase) : effect.Fits v phase phase := by
  cases h <;> exact ⟨rfl, id⟩

theorem step_phase (h : p.step home v op = some (p', effect)) :
    effect.Fits v p.phase p'.phase := by
  cases turns_of_step h with
  | enters hp hgoes =>
    subst hp
    exact hgoes.fits
  | settles hp | serves hp => simp [Effect.Fits, hp, Phase.holds, Phase.past]
  | listens _ hlistens =>
    rw [Process.setListener_phase]
    exact hlistens.fits p.phase
  | asked | exits => exact ⟨rfl, id⟩
  | killed _ hholds => exact ⟨hholds, rfl, rfl⟩
  | crashes _ hholds => exact ⟨hholds.symm, fun _ => rfl⟩

/-- A listener's removal of the file in its socket's place, or its binding again. -/
def Op.rebinds : Op → Bool
  | removeGone _ _ | bindAgain _ _ _ => true
  | _ => false

/-- Removes a socket file, or makes one. -/
def Effect.touches : Effect → Bool
  | remove _ | create _ _ => true
  | none | take | free => false

theorem step_touches (h : p.step home v op = some (p', effect)) (hop : op.rebinds = false)
    (heffect : effect.touches) : p.phase.holds := by
  cases turns_of_step h with
  | enters hp hgoes =>
    rw [hp]
    cases hgoes with
    | removesStale | removesLast | binds | removesOwn => rfl
    | _ => cases heffect
  | listens _ hlistens =>
    cases hlistens with
    | removes | binds => cases hop
    | _ => cases heffect
  | settles | serves | asked | killed | crashes | exits => cases heffect

/-! ### What a step of the machine does -/

theorem step_process_iff : step homes w (.process i op) = some w' ↔ ∃ p effect,
    (w.processes i).step (homes i) (w.view (homes i)) op = some (p, effect) ∧
      w' = (w.apply (homes i) i effect).setProcess i p := by
  simp only [step, Option.map_eq_some_iff, Prod.exists]
  simp only [eq_comm]

omit [DecidableEq ι] in
@[simp] theorem apply_processes (home : Home) (effect : Effect) :
    (w.apply home i effect).processes = w.processes := by
  cases effect <;> rfl

theorem processes_self (home : Home) (effect : Effect) (p : Process) :
    ((w.apply home i effect).setProcess i p).processes i = p :=
  Function.update_self ..

theorem processes_of_ne (home : Home) (effect : Effect) (p : Process) (h : j ≠ i) :
    ((w.apply home i effect).setProcess i p).processes j = w.processes j := by
  rw [World.setProcess]
  simp only [Function.update_of_ne h, apply_processes]

/-- A listener binds its socket again only while `serve` waits for it. -/
def InService (w : World ι) : Action ι → Prop
  | .process i op => op.rebinds → (w.processes i).phase.accepts
  | .clean _ | .pass _ => True

instance (w : World ι) : (a : Action ι) → Decidable (InService w a)
  | .process i op =>
    inferInstanceAs (Decidable (op.rebinds → (w.processes i).phase.accepts))
  | .clean _ | .pass _ => .isTrue trivial

omit [DecidableEq ι] in
theorem InService.of_not_rebinds (h : op.rebinds = false) : InService w (.process i op) := by
  intro hop
  rw [h] at hop
  cases hop

/-- Every step. -/
abbrev anyStep (_ : World ι) (_ : Action ι) : Prop := True

omit [DecidableEq ι] in
/-- Who removes or makes a socket file holds its lock. -/
theorem InService.holds (hservice : InService w (.process i op))
    (h : (w.processes i).step home v op = some (p', effect)) (heffect : effect.touches) :
    (w.processes i).phase.holds := by
  cases hop : op.rebinds with
  | true => exact Phase.holds_of_accepts (hservice hop)
  | false => exact step_touches h hop heffect

/-! ### The invariant -/

/-- Two processes with a socket path in common have one lock. -/
def OneLock (homes : ι → Home) : Prop :=
  ∀ i j a b, (homes i).socketPlace a = (homes j).socketPlace b →
    (homes i).lockPlace = (homes j).lockPlace

structure Inv (homes : ι → Home) (w : World ι) : Prop where
  locked : ∀ i, (w.processes i).phase.holds → w.locks (homes i).lockPlace = some i
  owned : ∀ place file j, w.files place = some file → file.owner = some j →
    (w.processes j).phase.past ∧ ∃ socket, place = (homes j).socketPlace socket

theorem step_past (h : p.step home v op = some (p', effect)) (hpast : p.phase.past) :
    p'.phase.past := by
  have hphase := step_phase h
  cases effect with
  | take => exact Phase.past_of_holds hphase.2.1
  | free => exact hphase.2.2
  | none => exact hphase.2 hpast
  | remove socket => exact hphase.2 hpast
  | create socket inode => exact hphase.2 hpast

/-- The process from taking the lock to releasing it is the one the lock says. -/
theorem locked_step
    (h : ∀ i, (w.processes i).phase.holds → w.locks (homes i).lockPlace = some i)
    (hp : (w.processes i).step (homes i) (w.view (homes i)) op = some (p, effect)) :
    ∀ k, (((w.apply (homes i) i effect).setProcess i p).processes k).phase.holds →
      (w.apply (homes i) i effect).locks (homes k).lockPlace = some k := by
  intro k hk
  have hphase := step_phase hp
  by_cases hki : k = i
  · subst hki
    rw [processes_self] at hk
    cases effect with
    | take => exact Function.update_self ..
    | free => simp [hphase.2.1] at hk
    | none => exact h k (hphase.1 ▸ hk)
    | remove socket => exact h k (hphase.1 ▸ hk)
    | create socket inode => exact h k (hphase.1 ▸ hk)
  · rw [processes_of_ne _ _ _ hki] at hk
    have hlock := h k hk
    cases effect with
    | take =>
      have hfree : w.locks (homes i).lockPlace = none := by simpa [World.view] using hphase.2.2
      have hne : (homes k).lockPlace ≠ (homes i).lockPlace := by
        intro heq
        rw [heq, hfree] at hlock
        cases hlock
      exact (Function.update_of_ne hne ..).trans hlock
    | free =>
      have hmine := h i hphase.1
      have hne : (homes k).lockPlace ≠ (homes i).lockPlace := by
        intro heq
        rw [heq, hmine] at hlock
        exact hki (Option.some.inj hlock).symm
      exact (Function.update_of_ne hne ..).trans hlock
    | none => exact hlock
    | remove socket => exact hlock
    | create socket inode => exact hlock

omit [DecidableEq ι] in
/-- The file there after a step was there before, or the step made it. -/
theorem files_apply {place : Place} {file : SocketFile ι}
    (h : (w.apply home i effect).files place = some file) : w.files place = some file ∨
      ∃ socket inode, effect = .create socket inode ∧ place = home.socketPlace socket ∧
        file = ⟨some i, inode⟩ := by
  cases effect with
  | take => exact .inl h
  | free => exact .inl h
  | none => exact .inl h
  | remove socket =>
    simp only [World.apply, Function.update_apply] at h
    split at h
    · cases h
    · exact .inl h
  | create socket inode =>
    simp only [World.apply, Function.update_apply] at h
    split at h
    · next hplace => exact .inr ⟨socket, inode, rfl, hplace, (Option.some.inj h).symm⟩
    · exact .inl h

theorem Inv.owned_step (h : Inv homes w) (hservice : InService w (.process i op))
    (hp : (w.processes i).step (homes i) (w.view (homes i)) op = some (p, effect))
    {place : Place} {file : SocketFile ι}
    (hfile : (w.apply (homes i) i effect).files place = some file)
    (hj : file.owner = some j) :
    (((w.apply (homes i) i effect).setProcess i p).processes j).phase.past ∧
      ∃ socket, place = (homes j).socketPlace socket := by
  have hkeep : (w.processes j).phase.past →
      (((w.apply (homes i) i effect).setProcess i p).processes j).phase.past := by
    intro hpast
    by_cases hji : j = i
    · subst hji
      rw [processes_self]
      exact step_past hp hpast
    · rwa [processes_of_ne _ _ _ hji]
  rcases files_apply hfile with hold | ⟨socket, inode, rfl, rfl, rfl⟩
  · obtain ⟨hpast, hplace⟩ := h.owned place file j hold hj
    exact ⟨hkeep hpast, hplace⟩
  · obtain rfl : i = j := Option.some.inj hj
    exact ⟨hkeep (Phase.past_of_holds (hservice.holds hp rfl)), socket, rfl⟩

theorem Inv.step (h : Inv homes w) {a : Action ι} (hservice : InService w a)
    (hstep : step homes w a = some w') : Inv homes w' := by
  cases a with
  | pass time =>
    cases hstep
    exact ⟨h.locked, h.owned⟩
  | clean place =>
    cases hstep
    refine ⟨h.locked, fun place' file j hfile hj => ?_⟩
    simp only [Function.update_apply] at hfile
    split at hfile
    · cases hfile
    · exact h.owned place' file j hfile hj
  | process i op =>
    obtain ⟨p, effect, hp, rfl⟩ := step_process_iff.mp hstep
    exact ⟨locked_step h.locked hp, fun place file j => h.owned_step hservice hp⟩

/-- An `ok` step of one process takes away no file of another that still runs. -/
def SparesOthers (ok : World ι → Action ι → Prop) (homes : ι → Home) (w : World ι) : Prop :=
  ∀ i op w' place file j, ok w (.process i op) → Sockets.step homes w (.process i op) = some w' →
    w.files place = some file → w'.files place ≠ some file → file.owner = some j → j ≠ i →
    ¬ (w.processes j).phase.running

omit [DecidableEq ι] in
/-- A step takes away only files in the places of its process's sockets. -/
theorem taken_apply {place : Place} {file : SocketFile ι} (hfile : w.files place = some file)
    (hgone : (w.apply home i effect).files place ≠ some file) :
    effect.touches ∧ ∃ socket, place = home.socketPlace socket := by
  cases effect with
  | take | free | none => exact absurd hfile hgone
  | remove socket =>
    refine ⟨rfl, socket, ?_⟩
    by_contra hne
    exact hgone ((Function.update_of_ne hne ..).trans hfile)
  | create socket inode =>
    refine ⟨rfl, socket, ?_⟩
    by_contra hne
    exact hgone ((Function.update_of_ne hne ..).trans hfile)

theorem Inv.spares (h : Inv homes w) (hone : OneLock homes) :
    SparesOthers InService homes w := by
  intro i op w' place file j hservice hstep hfile hgone hj hji hrunning
  obtain ⟨p, effect, hp, rfl⟩ := step_process_iff.mp hstep
  obtain ⟨hpast, socket', hplace'⟩ := h.owned place file j hfile hj
  have hlock := h.locked j (Phase.holds_of_running hpast hrunning)
  obtain ⟨heffect, socket, hplace⟩ := taken_apply hfile hgone
  have hsame := hone i j socket socket' (hplace ▸ hplace')
  have hmine := h.locked i (hservice.holds hp heffect)
  rw [hsame, hlock] at hmine
  exact hji (Option.some.inj hmine)

/-! ### Processes that cannot get at each other's sockets -/

/-- In a phase that a process whose socket paths are too long can be in. -/
def Phase.barred : Phase → Bool
  | idle | opening | acquiring .. | locked | dropping [] _ | ended _ | crashed => true
  | claiming _ | binding .. | serving | stopping _ | dropping (_ :: _) _ => false

/-- Has not claimed its sockets, and has no listener. -/
def Process.Barred (p : Process) : Prop :=
  p.phase.barred ∧ p.api.pc = .off ∧ p.client.pc = .off

theorem step_barred (h : p.step home v op = some (p', effect))
    (hlong : home.checkSockets ≠ .ok ()) (hp : p.Barred) :
    p'.Barred ∧ effect.touches = false := by
  obtain ⟨hphase, hapi, hclient⟩ := hp
  cases turns_of_step h with
  | @enters _ _ phase' _ hfrom hgoes =>
    rw [hfrom] at hphase
    suffices hto : phase'.barred ∧ effect.touches = false from ⟨⟨hto.1, hapi, hclient⟩, hto.2⟩
    cases hgoes with
    | claims hshort => exact absurd hshort hlong
    | removesStale | removesLast | stale | binds | unbound | unsettled | stops | joins | givesUp
    | removesOwn | leavesOwn => cases hphase
    | _ => exact ⟨rfl, rfl⟩
  | settles hfrom | serves hfrom =>
    rw [hfrom] at hphase
    cases hphase
  | @listens _ socket _ _ _ hl hlistens =>
    have hoff : (p.listener socket).pc = .off := by
      cases socket
      · exact hapi
      · exact hclient
    rw [hl] at hoff
    cases hlistens <;> cases hoff
  | asked => exact ⟨⟨hphase, hapi, hclient⟩, rfl⟩
  | killed | crashes => exact ⟨⟨rfl, rfl, rfl⟩, rfl⟩
  | exits => exact ⟨⟨hphase, rfl, rfl⟩, rfl⟩

/-- No two processes that can bind their sockets have a socket path in common. -/
def NoneShared (homes : ι → Home) : Prop :=
  ∀ i j a b, i ≠ j → (homes i).checkSockets = .ok () → (homes j).checkSockets = .ok () →
    (homes i).socketPlace a ≠ (homes j).socketPlace b

/-- Who can bind its sockets has files only in their places, who cannot has none. -/
structure Confined (homes : ι → Home) (w : World ι) : Prop where
  barred : ∀ i, (homes i).checkSockets ≠ .ok () → (w.processes i).Barred
  owned : ∀ place file j, w.files place = some file → file.owner = some j →
    (homes j).checkSockets = .ok () ∧ ∃ socket, place = (homes j).socketPlace socket

omit [DecidableEq ι] in
theorem Confined.short (h : Confined homes w)
    (hp : (w.processes i).step (homes i) (w.view (homes i)) op = some (p, effect))
    (heffect : effect.touches) : (homes i).checkSockets = .ok () := by
  by_contra hlong
  have hnone := (step_barred hp hlong (h.barred i hlong)).2
  rw [heffect] at hnone
  cases hnone

theorem Confined.step (h : Confined homes w) {a : Action ι} (hstep : step homes w a = some w') :
    Confined homes w' := by
  cases a with
  | pass time =>
    cases hstep
    exact ⟨h.barred, h.owned⟩
  | clean place =>
    cases hstep
    refine ⟨h.barred, fun place' file j hfile hj => ?_⟩
    simp only [Function.update_apply] at hfile
    split at hfile
    · cases hfile
    · exact h.owned place' file j hfile hj
  | process i op =>
    obtain ⟨p, effect, hp, rfl⟩ := step_process_iff.mp hstep
    refine ⟨fun k hlong => ?_, fun place file j hfile hj => ?_⟩
    · by_cases hki : k = i
      · subst hki
        rw [processes_self]
        exact (step_barred hp hlong (h.barred k hlong)).1
      · rw [processes_of_ne _ _ _ hki]
        exact h.barred k hlong
    · rcases files_apply hfile with hold | ⟨socket, inode, rfl, rfl, rfl⟩
      · exact h.owned place file j hold hj
      · obtain rfl : i = j := Option.some.inj hj
        exact ⟨h.short hp rfl, socket, rfl⟩

theorem Confined.spares (h : Confined homes w) (hnone : NoneShared homes) :
    SparesOthers anyStep homes w := by
  intro i op w' place file j _ hstep hfile hgone hj hji _
  obtain ⟨p, effect, hp, rfl⟩ := step_process_iff.mp hstep
  obtain ⟨hshort, socket', hplace'⟩ := h.owned place file j hfile hj
  obtain ⟨heffect, socket, hplace⟩ := taken_apply hfile hgone
  exact hnone i j socket socket' hji.symm (h.short hp heffect) hshort (hplace.symm.trans hplace')

/-! ### Two homes -/

variable {profile : Profile} {v₁ v₂ : Vars} {ids : MachineIdFiles} {uid : UInt32} {h₁ h₂ : Home}

def Socket.name : Socket → Bytes
  | .api => ascii "api.sock"
  | .client => ascii "client.sock"

/-- Both places of a home `from_env` finds are absolute. -/
theorem absolute_of_fromEnv (h : Home.fromEnv profile v₁ ids uid = .ok home) :
    isAbsolute home.dir ∧ isAbsolute home.run := by
  rcases Home.fromEnv_iff.mp h with ⟨dir, hdir, rfl⟩ | ⟨-, root, id, hroot, hid, rfl⟩
  · have habs := (Home.absolute_eq_some.mp hdir).2
    have hrun : isAbsolute (join dir run) := isAbsolute_join habs
    exact ⟨habs, hrun⟩
  · have habs := (Home.absolute_eq_some.mp hroot).2
    refine ⟨isAbsolute_join (isAbsolute_join (isAbsolute_join habs)), ?_⟩
    exact isAbsolute_of_components (Home.components_tmpRun profile uid)

theorem socketPlace_eq (h : isAbsolute home.run) :
    home.socketPlace socket = components home.run ++ [.normal socket.name] := by
  have hin : inner socket.name = [.normal socket.name] := by
    cases socket <;> exact inner_name (by decide) (by decide) (by decide) (by decide)
  have hrel : ¬ isAbsolute socket.name := by cases socket <;> decide
  have hpath : home.socketPath socket = join home.run socket.name := by cases socket <;> rfl
  rw [Home.socketPlace, hpath, components_join h hrel, hin]

theorem lockPlace_eq (h : isAbsolute home.dir) :
    home.lockPlace = components home.dir ++ [.normal (ascii "server.lock")] := by
  rw [Home.lockPlace, Home.lock, components_join h (by decide),
    inner_name (by decide) (by decide) (by decide) (by decide)]

/-- An absolute `FILE_PEEKER_HOME` in one of the two, or one `HOME`. -/
def OneHome (v₁ v₂ : Vars) : Prop :=
  (Home.absolute v₁.filePeekerHome).isSome ∨ (Home.absolute v₂.filePeekerHome).isSome ∨
    (Home.absolute v₁.home).map components = (Home.absolute v₂.home).map components

theorem components_run_atDir {dir : Bytes} (h : isAbsolute dir) :
    components (Home.atDir dir).run = components dir ++ [.normal run] := by
  rw [Home.atDir, components_join h (by decide),
    inner_name (by decide) (by decide) (by decide) (by decide)]

/-- The connections directory in `/tmp` is not one in an overriding directory. -/
theorem run_apart (profile : Profile) (uid : UInt32) (root id : Bytes) {dir : Bytes}
    (h : isAbsolute dir) :
    components (Home.atDir dir).run ≠ components (Home.hosted profile root id uid).run := by
  intro heq
  have hrun : (Home.hosted profile root id uid).run = Home.tmpRun profile uid := rfl
  rw [components_run_atDir h, hrun, Home.components_tmpRun] at heq
  have hlast := congrArg List.getLast? heq
  simp only [List.getLast?_append, List.getLast?_cons, List.getLast?_nil] at hlast
  have hname : run = Home.tmpName profile uid := by simpa using hlast
  have hlen := Home.four_le_length_tmpName profile uid
  rw [← hname] at hlen
  exact absurd hlen (by decide)

/-- One connections directory comes with one lock, unless two `HOME`s keep theirs apart. -/
theorem lock_of_run (e₁ : Home.fromEnv profile v₁ ids uid = .ok h₁)
    (e₂ : Home.fromEnv profile v₂ ids uid = .ok h₂) :
    (components h₁.run = components h₂.run → h₁.lockPlace = h₂.lockPlace) ↔ OneHome v₁ v₂ := by
  have a₁ := absolute_of_fromEnv e₁
  have a₂ := absolute_of_fromEnv e₂
  rw [lockPlace_eq a₁.1, lockPlace_eq a₂.1, List.append_left_inj, OneHome]
  rcases Home.fromEnv_iff.mp e₁ with ⟨d₁, hd₁, rfl⟩ | ⟨hn₁, r₁, id₁, hr₁, hid₁, rfl⟩ <;>
    rcases Home.fromEnv_iff.mp e₂ with ⟨d₂, hd₂, rfl⟩ | ⟨hn₂, r₂, id₂, hr₂, hid₂, rfl⟩
  · have hd₁' := (Home.absolute_eq_some.mp hd₁).2
    have hd₂' := (Home.absolute_eq_some.mp hd₂).2
    rw [components_run_atDir hd₁', components_run_atDir hd₂', List.append_left_inj, hd₁]
    simp [Home.atDir]
  · have hapart := run_apart profile uid r₂ id₂ (Home.absolute_eq_some.mp hd₁).2
    simp [hd₁, hapart]
  · have hapart := run_apart profile uid r₁ id₁ (Home.absolute_eq_some.mp hd₂).2
    simp [hd₂, hapart.symm]
  · have hr₁' := (Home.absolute_eq_some.mp hr₁).2
    have hr₂' := (Home.absolute_eq_some.mp hr₂).2
    obtain rfl : id₁ = id₂ := Option.some.inj (hid₁.symm.trans hid₂)
    have hid := isId_of_platformMachineId hid₁
    have hrun : (Home.hosted profile r₁ id₁ uid).run = (Home.hosted profile r₂ id₁ uid).run := rfl
    rw [Home.components_hosted_dir hr₁' hid, Home.components_hosted_dir hr₂' hid, hrun,
      List.append_left_inj, hn₁, hn₂, hr₁, hr₂]
    simp

/-! ### Two processes in two environments -/

/-- Two processes, each with its home. -/
def pair (h₁ h₂ : Home) : Bool → Home
  | false => h₁
  | true => h₂

/-- Before either has been started: whatever socket files there are, neither bound them. -/
structure World.Fresh (w : World ι) : Prop where
  start : ∀ i, w.processes i = Process.start
  locks : ∀ place, w.locks place = none
  files : ∀ place file, w.files place = some file → file.owner = none

omit [DecidableEq ι] in
theorem Inv.of_fresh (h : w.Fresh) : Inv homes w where
  locked i hi := by
    rw [h.start i] at hi
    cases hi
  owned place file j hfile hj := by
    rw [h.files place file hfile] at hj
    cases hj

/-- In no run of `ok` steps a process takes a socket file from another that still runs. -/
def NeverTakes (ok : World ι → Action ι → Prop) (homes : ι → Home) : Prop :=
  ∀ w w', w.Fresh → Steps (step homes) ok w w' → SparesOthers ok homes w'

theorem neverTakes_of_oneLock (h : OneLock homes) : NeverTakes InService homes := by
  intro w w' hfresh hsteps
  have hinv : Inv homes w' := hsteps.invariant (fun _ _ _ hi hp hs => hi.step hp hs)
    (.of_fresh hfresh)
  exact hinv.spares h

omit [DecidableEq ι] in
theorem Confined.of_fresh (h : w.Fresh) : Confined homes w where
  barred i _ := by
    rw [h.start i]
    exact ⟨rfl, rfl, rfl⟩
  owned place file j hfile hj := by
    rw [h.files place file hfile] at hj
    cases hj

theorem neverTakes_of_noneShared (h : NoneShared homes) : NeverTakes anyStep homes := by
  intro w w' hfresh hsteps
  have hconfined : Confined homes w' := hsteps.invariant (fun _ _ _ hc _ hs => hc.step hs)
    (.of_fresh hfresh)
  exact hconfined.spares h

/-- What holds of more runs holds of fewer. -/
theorem NeverTakes.mono {ok ok' : World ι → Action ι → Prop} (h : NeverTakes ok homes)
    (hle : ∀ w a, ok' w a → ok w a) : NeverTakes ok' homes :=
  fun w w' hfresh hsteps i op w'' place file j hok hstep =>
    h w w' hfresh (hsteps.mono hle) i op w'' place file j (hle _ _ hok) hstep

theorem socketPlace_inj {a b : Socket} (r₁ : isAbsolute h₁.run) (r₂ : isAbsolute h₂.run)
    (h : h₁.socketPlace a = h₂.socketPlace b) : components h₁.run = components h₂.run := by
  rw [socketPlace_eq r₁, socketPlace_eq r₂] at h
  exact (List.append_inj' h rfl).1

theorem oneLock_pair (r₁ : isAbsolute h₁.run) (r₂ : isAbsolute h₂.run)
    (h : components h₁.run = components h₂.run → h₁.lockPlace = h₂.lockPlace) :
    OneLock (pair h₁ h₂) := by
  intro i j a b hplace
  cases i <;> cases j
  · rfl
  · exact h (socketPlace_inj r₁ r₂ hplace)
  · exact (h (socketPlace_inj r₂ r₁ hplace).symm).symm
  · rfl

theorem noneShared_pair (r₁ : isAbsolute h₁.run) (r₂ : isAbsolute h₂.run)
    (h : ¬ (components h₁.run = components h₂.run ∧ h₁.checkSockets = .ok () ∧
      h₂.checkSockets = .ok ())) : NoneShared (pair h₁ h₂) := by
  intro i j a b hij hi hj hplace
  cases i <;> cases j
  · exact hij rfl
  · exact h ⟨socketPlace_inj r₁ r₂ hplace, hi, hj⟩
  · exact h ⟨(socketPlace_inj r₂ r₁ hplace).symm, hj, hi⟩
  · exact hij rfl

theorem client_ne_api (h : isAbsolute home.run) :
    home.socketPlace .client ≠ home.socketPlace .api := by
  rw [socketPlace_eq h, socketPlace_eq h]
  exact fun heq => absurd (List.append_cancel_left heq) (by decide)

/-! ### Runs that take the sockets -/

@[simp] theorem setProcess_setProcess (p p' : Process) :
    (w.setProcess i p).setProcess i p' = w.setProcess i p' := by
  rw [World.setProcess, World.setProcess, Function.update_idem]
  rfl

@[simp] theorem setProcess_self (p : Process) : (w.setProcess i p).processes i = p :=
  Function.update_self ..

@[simp] theorem apply_setProcess (p : Process) (effect : Effect) :
    (w.setProcess i p).apply home j effect = (w.apply home j effect).setProcess i p := by
  cases effect <;> rfl

/-- One step of a process, told from what it does to the rest of the machine. -/
theorem act (homes : ι → Home) (w : World ι) (i : ι) (q p : Process) (op : Op) (effect : Effect)
    (hop : op.rebinds = false)
    (hq : q.step (homes i) (w.view (homes i)) op = some (p, effect)) :
    Steps (step homes) InService (w.setProcess i q)
      ((w.apply (homes i) i effect).setProcess i p) := by
  have hstep : step homes (w.setProcess i q) (.process i op) =
      some ((w.apply (homes i) i effect).setProcess i p) := by
    refine step_process_iff.mpr ⟨p, effect, ?_, ?_⟩
    · rw [setProcess_self]
      exact hq
    · rw [apply_setProcess, setProcess_setProcess]
  exact .single (.of_not_rebinds hop) hstep

theorem setProcess_processes (w : World ι) (i : ι) : w.setProcess i (w.processes i) = w := by
  rw [World.setProcess, Function.update_eq_self]

/-- A process that finds its lock free comes to claim its sockets. -/
theorem comes_to_claim (homes : ι → Home) (w : World ι) (i : ι)
    (hidle : (w.processes i).phase = .idle) (hfree : w.locks (homes i).lockPlace = none)
    (hshort : (homes i).checkSockets = .ok ()) :
    Steps (step homes) InService w ((w.apply (homes i) i .take).setProcess i
      ((w.processes i).enter (.claiming Socket.all))) := by
  have hheld : (w.view (homes i)).held = false := by simp [World.view, hfree]
  have hstart := setProcess_processes w i
  generalize w.processes i = q at hidle hstart ⊢
  have hopening := act homes w i q (q.enter .opening) (.create true) .none rfl
    (by simp [Process.step, hidle])
  have hacquiring := act homes w i (q.enter .opening)
    (q.enter (.acquiring (w.now + lockGrace) .tryLock)) (.openLock true) .none rfl
    (by simp [Process.step, World.view, Process.enter])
  have hlocked := act homes w i (q.enter (.acquiring (w.now + lockGrace) .tryLock))
    (q.enter .locked) (.tryLock true) .take rfl
    (by simp [Process.step, hheld, Process.enter])
  have hclaiming := act homes (w.apply (homes i) i .take) i (q.enter .locked)
    (q.enter (.claiming Socket.all)) .claim .none rfl
    (by simp [Process.step, hshort, Process.enter])
  rw [hstart] at hopening
  exact hopening.trans (hacquiring.trans (hlocked.trans hclaiming))

/-- A process that claims its sockets comes to bind the first of them. -/
theorem comes_to_bind (homes : ι → Home) (w : World ι) (i : ι)
    (hclaiming : (w.processes i).phase = .claiming Socket.all) (inode : Nat) :
    ∃ w', Steps (step homes) InService w w' ∧ w'.locks = w.locks ∧
      (∀ j, j ≠ i → w'.processes j = w.processes j) ∧
      w'.processes i = (w.processes i).enter (.binding .api true) ∧
      w'.files ((homes i).socketPlace .api) = some ⟨some i, inode⟩ ∧
      ((homes i).socketPlace .client ≠ (homes i).socketPlace .api →
        w'.files ((homes i).socketPlace .client) = none) := by
  have hstart := setProcess_processes w i
  generalize hq : w.processes i = q at hclaiming hstart
  have hapi := act homes w i q (q.enter (.claiming [.client])) (.removeStale true) (.remove .api)
    rfl (by simp [Process.step, hclaiming, Socket.all])
  have hclient := act homes (w.apply (homes i) i (.remove .api)) i (q.enter (.claiming [.client]))
    (q.enter (.binding .api false)) (.removeStale true) (.remove .client) rfl
    (by simp [Process.step, Process.enter])
  have hnone : (((w.apply (homes i) i (.remove .api)).apply (homes i) i
      (.remove .client)).view (homes i)).inode .api = none := by
    simp [World.view, World.apply, Function.update_apply]
  have hbound := act homes ((w.apply (homes i) i (.remove .api)).apply (homes i) i
    (.remove .client)) i (q.enter (.binding .api false)) (q.enter (.binding .api true))
    (.bind inode true) (.create .api inode) rfl
    (by simp [Process.step, hnone, Process.enter])
  rw [hstart] at hapi
  refine ⟨_, hapi.trans (hclient.trans hbound), rfl, fun j hj => ?_, ?_, ?_, fun hne => ?_⟩
  · exact Function.update_of_ne hj ..
  · rw [setProcess_self]
  · exact Function.update_self ..
  · exact (Function.update_of_ne hne ..).trans (Function.update_self ..)

/-- A process that has bound the first of its sockets comes to serve. -/
theorem comes_to_serve (homes : ι → Home) (w : World ι) (i : ι) {inode : Nat}
    (hbinding : (w.processes i).phase = .binding .api true)
    (hapi : w.files ((homes i).socketPlace .api) = some ⟨some i, inode⟩)
    (hclient : w.files ((homes i).socketPlace .client) = none) :
    ∃ w', Steps (step homes) InService w w' ∧ w'.locks = w.locks ∧
      (∀ j, j ≠ i → w'.processes j = w.processes j) ∧ (w'.processes i).phase = .serving ∧
      (w'.processes i).api.pc = .accepting := by
  have hstart := setProcess_processes w i
  generalize w.processes i = q at hbinding hstart
  have hseen : (w.view (homes i)).inode .api = some inode := by simp [World.view, hapi]
  have hfree : (w.view (homes i)).inode .client = none := by simp [World.view, hclient]
  have hbound : ((w.apply (homes i) i (.create .client 0)).view (homes i)).inode .client =
      some 0 := by
    simp [World.view, World.apply]
  let q₁ := (q.setListener ⟨.off, inode⟩ .api).enter (.binding .client false)
  have hsettle := act homes w i q q₁ (.settle true) .none rfl
    (by simp [Process.step, hbinding, hseen, q₁])
  have hbind := act homes w i q₁ (q₁.enter (.binding .client true)) (.bind 0 true)
    (.create .client 0) rfl (by simp [Process.step, q₁, Process.enter, hfree])
  have hserve := act homes (w.apply (homes i) i (.create .client 0)) i
    (q₁.enter (.binding .client true)) { q₁ with
      phase := .serving
      api := { q₁.api with pc := .accepting }
      client := ⟨.accepting, 0⟩ } (.settle true) .none rfl
    (by simp [Process.step, Process.enter, hbound])
  rw [hstart] at hsettle
  refine ⟨_, hsettle.trans (hbind.trans hserve), rfl, fun j hj => ?_, ?_, ?_⟩
  · exact Function.update_of_ne hj ..
  · rw [setProcess_self]
  · rw [setProcess_self]

/-- A server whose API socket is cleaned away can be stopped while its listener is about to
remove what may be in its place: the stop waits its five seconds for the listener, and the
server releases its lock. -/
theorem outlived (homes : ι → Home) (w : World ι) (i : ι)
    (hserving : (w.processes i).phase = .serving)
    (haccepting : (w.processes i).api.pc = .accepting) :
    ∃ w', Steps (step homes) InService w w' ∧ w'.locks (homes i).lockPlace = none ∧
      (∀ j, j ≠ i → w'.processes j = w.processes j) ∧ (w'.processes i).api.pc = .removing := by
  let place := (homes i).socketPlace .api
  let w₁ : World ι := { w with files := Function.update w.files place none }
  have hclean : Steps (step homes) InService w w₁ := .single (a := .clean place) trivial rfl
  have hgone : (w₁.view (homes i)).inode .api = none := by simp [World.view, w₁, place]
  have hstart : w₁.setProcess i (w.processes i) = w₁ := setProcess_processes w₁ i
  generalize w.processes i = q at hserving haccepting hstart
  obtain ⟨phase, ⟨pc, own⟩, client, shutdown⟩ := q
  cases hserving
  cases haccepting
  have hcheck := act homes w₁ i ⟨.serving, ⟨.accepting, own⟩, client, shutdown⟩
    ⟨.serving, ⟨.preparing, own⟩, client, shutdown⟩ (.check .api true) .none rfl
    (by simp [Process.step, Process.listener, Process.setListener, hgone])
  have hprepare := act homes w₁ i ⟨.serving, ⟨.preparing, own⟩, client, shutdown⟩
    ⟨.serving, ⟨.removing, own⟩, client, shutdown⟩ (.prepare .api true) .none rfl
    (by simp [Process.step, Process.listener, Process.setListener])
  have hshutdown := act homes w₁ i ⟨.serving, ⟨.removing, own⟩, client, shutdown⟩
    ⟨.serving, ⟨.removing, own⟩, client, true⟩ .shutdown .none rfl (by simp [Process.step])
  let q : Process := ⟨.stopping (w₁.now + shutdownTimeout), ⟨.removing, own⟩, client, true⟩
  have hstop := act homes w₁ i ⟨.serving, ⟨.removing, own⟩, client, true⟩ q .stop .none rfl
    (by simp [Process.step, Process.enter, World.view, q])
  let w₂ : World ι := { w₁ with now := w₁.now + shutdownTimeout }
  have hpass : Steps (step homes) InService (w₁.setProcess i q) (w₂.setProcess i q) :=
    .single (a := .pass shutdownTimeout) trivial rfl
  have hgiveUp := act homes w₂ i q (q.enter (.dropping Socket.all (.ok ()))) .giveUp .none rfl
    (by simp [Process.step, World.view, q, w₂])
  have hapi := act homes w₂ i (q.enter (.dropping Socket.all (.ok ())))
    (q.enter (.dropping [.client] (.ok ()))) (.removeOwn true) (.remove .api) rfl
    (by simp [Process.step, Process.enter, Socket.all])
  have hclient := act homes (w₂.apply (homes i) i (.remove .api)) i
    (q.enter (.dropping [.client] (.ok ()))) (q.enter (.dropping [] (.ok ()))) (.removeOwn true)
    (.remove .client) rfl (by simp [Process.step, Process.enter])
  have hrelease := act homes ((w₂.apply (homes i) i (.remove .api)).apply (homes i) i
    (.remove .client)) i (q.enter (.dropping [] (.ok ()))) (q.enter (.ended (.ok ()))) .release
    .free rfl (by simp [Process.step, Process.enter])
  rw [hstart] at hcheck
  have hstopped := hclean.trans (hcheck.trans (hprepare.trans (hshutdown.trans hstop)))
  refine ⟨_, hstopped.trans (hpass.trans (hgiveUp.trans (hapi.trans (hclient.trans hrelease)))),
    Function.update_self .., fun j hj => ?_, ?_⟩
  · exact Function.update_of_ne hj ..
  · rw [setProcess_self]
    rfl

/-- No server, and no socket file. -/
def emptyWorld : World Bool := ⟨0, fun _ => none, fun _ => none, fun _ => Process.start⟩

theorem emptyWorld_fresh : emptyWorld.Fresh :=
  ⟨fun _ => rfl, fun _ => rfl, fun _ _ h => by cases h⟩

/-- Two homes with one connections directory and two locks: the second process takes
the socket the first has bound. -/
theorem taken_of_two_locks (hapi : h₁.socketPlace .api = h₂.socketPlace .api)
    (hlock : h₁.lockPlace ≠ h₂.lockPlace) (hs₁ : h₁.checkSockets = .ok ())
    (hs₂ : h₂.checkSockets = .ok ()) : ¬ NeverTakes InService (pair h₁ h₂) := by
  intro hnever
  have hsecond := comes_to_claim (pair h₁ h₂) emptyWorld true rfl rfl hs₂
  generalize hw₁ : (emptyWorld.apply (pair h₁ h₂ true) true .take).setProcess true
    ((emptyWorld.processes true).enter (.claiming Socket.all)) = w₁ at hsecond
  have hidle : (w₁.processes false).phase = .idle := by
    rw [← hw₁]
    rfl
  have hfree : w₁.locks (pair h₁ h₂ false).lockPlace = none := by
    rw [← hw₁]
    exact Function.update_of_ne hlock ..
  have hfirst := comes_to_claim (pair h₁ h₂) w₁ false hidle hfree hs₁
  generalize hw₂ : (w₁.apply (pair h₁ h₂ false) false .take).setProcess false
    ((w₁.processes false).enter (.claiming Socket.all)) = w₂ at hfirst
  obtain ⟨w₃, hbinds, -, hother, hbinding, hfile, -⟩ :=
    comes_to_bind (pair h₁ h₂) w₂ false (by rw [← hw₂, setProcess_self]; rfl) 1
  have hrun := hsecond.trans (hfirst.trans hbinds)
  have hphase : (w₃.processes true).phase = .claiming Socket.all := by
    rw [hother true (by decide), ← hw₂, ← hw₁]
    rfl
  have hstep : step (pair h₁ h₂) w₃ (.process true (.removeStale true)) =
      some ((w₃.apply h₂ true (.remove .api)).setProcess true
        ((w₃.processes true).enter (.claiming [.client]))) :=
    step_process_iff.mpr ⟨_, _, by simp [Process.step, hphase, Socket.all], rfl⟩
  refine hnever emptyWorld w₃ emptyWorld_fresh hrun true (.removeStale true) _ _ _ false
    (.of_not_rebinds rfl) hstep hfile ?_ rfl (by decide) (by rw [hbinding]; rfl)
  have hgone : (w₃.apply h₂ true (.remove .api)).files (h₁.socketPlace .api) = none := by
    rw [hapi]
    exact Function.update_self ..
  show (w₃.apply h₂ true (.remove .api)).files (h₁.socketPlace .api) ≠ _
  rw [hgone]
  simp

/-- Two homes with one connections directory and one lock: a listener of the first process,
whose server has ended, takes the socket the second has bound. -/
theorem taken_of_late_rebind (hapi : h₁.socketPlace .api = h₂.socketPlace .api)
    (hclient : h₁.socketPlace .client ≠ h₁.socketPlace .api)
    (hlock : h₁.lockPlace = h₂.lockPlace) (hs₁ : h₁.checkSockets = .ok ())
    (hs₂ : h₂.checkSockets = .ok ()) : ¬ NeverTakes anyStep (pair h₁ h₂) := by
  intro hnever
  have hfirst := comes_to_claim (pair h₁ h₂) emptyWorld false rfl rfl hs₁
  generalize hw₁ : (emptyWorld.apply (pair h₁ h₂ false) false .take).setProcess false
    ((emptyWorld.processes false).enter (.claiming Socket.all)) = w₁ at hfirst
  have hidle₁ : w₁.processes true = Process.start := by
    rw [← hw₁]
    rfl
  obtain ⟨w₂, hbinds, -, hidle₂, hbinding, hfile₂, hnone⟩ :=
    comes_to_bind (pair h₁ h₂) w₁ false (by rw [← hw₁, setProcess_self]; rfl) 1
  obtain ⟨w₃, hserves, -, hidle₃, hserving, haccepting⟩ :=
    comes_to_serve (pair h₁ h₂) w₂ false (by rw [hbinding]; rfl) hfile₂ (hnone hclient)
  obtain ⟨w₄, houtlived, hfree, hidle₄, hremoving⟩ :=
    outlived (pair h₁ h₂) w₃ false hserving haccepting
  have hidle : w₄.processes true = Process.start := by
    rw [hidle₄ true (by decide), hidle₃ true (by decide), hidle₂ true (by decide), hidle₁]
  -- The lock is free, and the second process starts.
  have hsecond := comes_to_claim (pair h₁ h₂) w₄ true (by rw [hidle]; rfl)
    ((congrArg w₄.locks hlock.symm).trans hfree) hs₂
  generalize hw₅ : (w₄.apply (pair h₁ h₂ true) true .take).setProcess true
    ((w₄.processes true).enter (.claiming Socket.all)) = w₅ at hsecond
  obtain ⟨w₆, hbinds', -, hother, hbinding', hfile, -⟩ :=
    comes_to_bind (pair h₁ h₂) w₅ true (by rw [← hw₅, setProcess_self]; rfl) 2
  have hlate : (w₆.processes false).api.pc = .removing := by
    rw [hother false (by decide), ← hw₅]
    exact hremoving
  have hrun := hfirst.trans (hbinds.trans (hserves.trans (houtlived.trans
    (hsecond.trans hbinds'))))
  have hstep : ∃ p, step (pair h₁ h₂) w₆ (.process false (.removeGone .api true)) =
      some ((w₆.apply h₁ false (.remove .api)).setProcess false p) := by
    generalize hq : w₆.processes false = q at hlate
    obtain ⟨phase, ⟨pc, own⟩, client, shutdown⟩ := q
    cases hlate
    exact ⟨_, step_process_iff.mpr ⟨⟨phase, ⟨.binding, own⟩, client, shutdown⟩, .remove .api,
      by rw [hq]; rfl, rfl⟩⟩
  obtain ⟨p, hstep⟩ := hstep
  refine hnever emptyWorld w₆ emptyWorld_fresh (hrun.mono fun _ _ _ => trivial) false
    (.removeGone .api true) _ _ _ true trivial hstep hfile ?_ rfl (by decide)
    (by rw [hbinding']; rfl)
  have hgone : (w₆.apply h₁ false (.remove .api)).files (h₂.socketPlace .api) = none := by
    rw [← hapi]
    exact Function.update_self ..
  show (w₆.apply h₁ false (.remove .api)).files (h₂.socketPlace .api) ≠ _
  rw [hgone]
  simp

/-- **Shared sockets come with a shared lock**, and neither server takes a socket file of the
other while it runs, in the runs where a listener binds its socket again only while `serve`
waits for it, unless each environment goes by a `HOME` of its own.  In every run, neither does
where the two have no socket path in common, or one cannot bind its own, and only there. -/
theorem shared_sockets_iff (e₁ : Home.fromEnv profile v₁ ids uid = .ok h₁)
    (e₂ : Home.fromEnv profile v₂ ids uid = .ok h₂) :
    ((components h₁.run = components h₂.run → h₁.lockPlace = h₂.lockPlace) ↔ OneHome v₁ v₂) ∧
      (NeverTakes InService (pair h₁ h₂) ↔ OneHome v₁ v₂) ∧
      (NeverTakes anyStep (pair h₁ h₂) ↔ ¬ (components h₁.run = components h₂.run ∧
        h₁.checkSockets = .ok () ∧ h₂.checkSockets = .ok ())) := by
  have hlocks := lock_of_run e₁ e₂
  have a₁ := (absolute_of_fromEnv e₁).2
  have a₂ := (absolute_of_fromEnv e₂).2
  have hplaces (hrun : components h₁.run = components h₂.run) :
      h₁.socketPlace .api = h₂.socketPlace .api := by
    rw [socketPlace_eq a₁, socketPlace_eq a₂, hrun]
  refine ⟨hlocks, ⟨fun hnever => ?_, fun h =>
    neverTakes_of_oneLock (oneLock_pair a₁ a₂ (hlocks.mpr h))⟩, fun hnever hshared => ?_,
    fun hapart => neverTakes_of_noneShared (noneShared_pair a₁ a₂ hapart)⟩
  · by_contra hone
    obtain ⟨hrun, hlock⟩ := Classical.not_imp.mp (mt hlocks.mp hone)
    have hshort {vars : Vars} {h : Home} (e : Home.fromEnv profile vars ids uid = .ok h)
        (hnone : Home.absolute vars.filePeekerHome = none) : h.checkSockets = .ok () := by
      rcases Home.fromEnv_iff.mp e with ⟨dir, hdir, -⟩ | ⟨-, root, id, -, -, rfl⟩
      · rw [hnone] at hdir
        cases hdir
      · exact Home.checkSockets_hosted
    simp only [OneHome, not_or, Option.not_isSome_iff_eq_none] at hone
    exact taken_of_two_locks (hplaces hrun) hlock (hshort e₁ hone.1) (hshort e₂ hone.2.1) hnever
  · obtain ⟨hrun, hs₁, hs₂⟩ := hshared
    by_cases hlock : h₁.lockPlace = h₂.lockPlace
    · exact taken_of_late_rebind (hplaces hrun) (client_ne_api a₁) hlock hs₁ hs₂ hnever
    · exact taken_of_two_locks (hplaces hrun) hlock hs₁ hs₂ (hnever.mono fun _ _ _ => trivial)

/-- Two directories that `FILE_PEEKER_HOME` places, and one that it places twice. -/
theorem overriding_homes_never_take :
    NeverTakes anyStep (pair (Home.atDir (ascii "/srv/one")) (Home.atDir (ascii "/srv/two"))) ∧
      NeverTakes InService
        (pair (Home.atDir (ascii "/srv/one")) (Home.atDir (ascii "/srv/one"))) := by
  have e (dir : Bytes) (h : isAbsolute dir) :
      Home.fromEnv .release ⟨none, some dir⟩ (machineWithId []) 501 = .ok (Home.atDir dir) :=
    Home.fromEnv_iff.mpr (.inl ⟨dir, Home.absolute_eq_some.mpr ⟨rfl, h⟩, rfl⟩)
  have hone := e (ascii "/srv/one") (by decide)
  refine ⟨(shared_sockets_iff hone (e (ascii "/srv/two") (by decide))).2.2.mpr fun hshared => ?_,
    (shared_sockets_iff hone hone).2.1.mpr (.inl (by decide))⟩
  exact absurd hshared.1 (by decide +kernel)

/-- The home of a user whose `HOME` is `home`, on a machine with an id. -/
def hostedHome (home : Bytes) : Home :=
  Home.hosted .release home (ascii "0123456789abcdef0123456789abcdef") 501

/-- Two `HOME`s of one user on one machine: one connections directory, two locks, and a
server that takes the socket of the other. -/
theorem two_homes_take_sockets : ∃ h₁ h₂ : Home,
    Home.fromEnv .release ⟨some (ascii "/home/me"), none⟩ (machineWithId []) 501 = .ok h₁ ∧
      Home.fromEnv .release ⟨some (ascii "/srv/me"), none⟩ (machineWithId []) 501 = .ok h₂ ∧
      components h₁.run = components h₂.run ∧ h₁.lockPlace ≠ h₂.lockPlace ∧
      ¬ NeverTakes InService (pair h₁ h₂) ∧ ¬ NeverTakes anyStep (pair h₁ h₂) := by
  have hid : platformMachineId (machineWithId []) =
      some (ascii "0123456789abcdef0123456789abcdef") := by decide +kernel
  have e (home : Bytes) (h : isAbsolute home) :
      Home.fromEnv .release ⟨some home, none⟩ (machineWithId []) 501 = .ok (hostedHome home) :=
    Home.fromEnv_iff.mpr (.inr ⟨rfl, home, _, Home.absolute_eq_some.mpr ⟨rfl, h⟩, hid, rfl⟩)
  have hlock : (hostedHome (ascii "/home/me")).lockPlace ≠
      (hostedHome (ascii "/srv/me")).lockPlace := by decide +kernel
  have htaken : ¬ NeverTakes InService
      (pair (hostedHome (ascii "/home/me")) (hostedHome (ascii "/srv/me"))) :=
    taken_of_two_locks rfl hlock Home.checkSockets_hosted Home.checkSockets_hosted
  exact ⟨_, _, e _ (by decide), e _ (by decide), rfl, hlock, htaken,
    fun hnever => htaken (hnever.mono fun _ _ _ => trivial)⟩

end Sockets

end FilePeeker
