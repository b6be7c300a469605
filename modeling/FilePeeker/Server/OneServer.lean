import FilePeeker.Server.SharedSockets

/-!
# One server of a home

Any number of server processes on one `Home`: the one from taking the lock to releasing
it is the one the lock says, whatever the others do, crash or not.  What it removes from
its socket paths is then no other server's, and when it releases the lock it leaves no
socket file of its own (`one_server_at_a_time`).

This rests on a server's listeners being done when its sockets are removed.  A stop that
waits for the two services in vain removes the sockets and releases the lock all the
same, while a listener can be in the middle of binding its socket again; it then takes
the socket of the next server (`late_rebind_takes_socket`).  `InService` is a step that
is no such one.
-/

namespace FilePeeker

namespace Sockets

open FilePeeker.Path

variable {ι : Type*} [DecidableEq ι] {home : Home} {v : View} {p p' : Process} {op : Op}
  {effect : Effect} {socket : Socket} {w w' : World ι} {i j : ι} {a : Action ι}

/-- `Sockets::drop` removes its files without an error, or finds none. -/
def Removes (_ : World ι) : Action ι → Prop
  | .process _ (.removeOwn ok) => ok
  | _ => True

instance (w : World ι) : (a : Action ι) → Decidable (Removes w a)
  | .process _ (.removeOwn ok) => inferInstanceAs (Decidable (ok = true))
  | .process _ (.create _) | .process _ (.openLock _) | .process _ (.tryLock _)
  | .process _ .look | .process _ .readClock | .process _ .wake | .process _ .claim
  | .process _ (.removeStale _) | .process _ (.bind _ _) | .process _ (.settle _)
  | .process _ .shutdown | .process _ .stop | .process _ (.join _) | .process _ .giveUp
  | .process _ .release | .process _ .crash | .process _ .exit | .process _ (.check _ _)
  | .process _ (.prepare _ _) | .process _ (.removeGone _ _) | .process _ (.bindAgain ..)
  | .process _ (.settleAgain _ _) | .process _ (.leave _) | .clean _ | .pass _ => .isTrue trivial

/-! ### Whose files there are -/

/-- The sockets a process can have a file of. -/
def Phase.owns : Phase → Socket → Bool
  | binding .., _ | serving, _ | stopping _, _ | crashed, _ => true
  | dropping left _, socket => socket ∈ left
  | idle, _ | opening, _ | acquiring .., _ | locked, _ | claiming _, _ | ended _, _ => false

theorem Phase.owns_of_accepts {phase : Phase} (h : phase.accepts) : phase.owns socket := by
  cases phase <;> first | rfl | cases h

theorem step_owns (h : p.step home v op = some (p', effect)) (hremoves : op ≠ .removeOwn false)
    (howns : p.phase.owns socket) : p'.phase.owns socket ∨ effect = .remove socket := by
  cases turns_of_step h with
  | enters hp hgoes =>
    rw [hp] at howns
    cases hgoes with
    | removesOwn =>
      rcases List.mem_cons.mp (of_decide_eq_true howns) with rfl | hleft
      · exact .inr rfl
      · exact .inl (decide_eq_true hleft)
    | leavesOwn => exact absurd rfl hremoves
    | binds | stops => exact .inl rfl
    | unbound | unsettled | joins | givesUp => exact .inl (by cases socket <;> rfl)
    | _ => cases howns
  | settles | serves | killed | crashes => exact .inl rfl
  | listens =>
    rw [Process.setListener_phase]
    exact .inl howns
  | asked | exits => exact .inl howns

theorem step_creates {inode : Nat} (h : p.step home v op = some (p', .create socket inode))
    (hservice : op.rebinds → p.phase.accepts) : p'.phase.owns socket := by
  cases turns_of_step h with
  | enters hp hgoes =>
    cases hgoes
    rfl
  | listens hl hlistens =>
    cases hlistens
    rw [Process.setListener_phase]
    exact Phase.owns_of_accepts (hservice rfl)

/-! ### The invariant -/

/-- The process from taking the lock to releasing it is the one the lock says. -/
def Locked (home : Home) (w : World ι) : Prop :=
  ∀ i, (w.processes i).phase.holds → w.locks home.lockPlace = some i

/-- A process has no file but of the sockets it can have one of. -/
def Owned (home : Home) (w : World ι) : Prop :=
  ∀ place file j, w.files place = some file → file.owner = some j →
    ∃ socket, (w.processes j).phase.owns socket ∧ place = home.socketPlace socket

theorem Locked.step (h : Locked home w) (hstep : step (fun _ => home) w a = some w') :
    Locked home w' := by
  cases a with
  | clean place | pass time =>
    cases hstep
    exact h
  | process i op =>
    obtain ⟨p, effect, hp, rfl⟩ := step_process_iff.mp hstep
    exact @locked_step _ _ (fun _ => home) _ _ _ _ _ h hp

theorem Owned.step (h : Owned home w) (hservice : InService w a) (hremoves : Removes w a)
    (hstep : step (fun _ => home) w a = some w') : Owned home w' := by
  cases a with
  | pass time =>
    cases hstep
    exact h
  | clean place =>
    cases hstep
    intro place' file j hfile hj
    simp only [Function.update_apply] at hfile
    split at hfile
    · cases hfile
    · exact h place' file j hfile hj
  | process i op =>
    obtain ⟨p, effect, hp, rfl⟩ := step_process_iff.mp hstep
    intro place file j hfile hj
    rcases files_apply hfile with hold | ⟨socket, inode, rfl, rfl, rfl⟩
    · obtain ⟨socket, howns, hplace⟩ := h place file j hold hj
      by_cases hji : j = i
      · subst hji
        rw [processes_self]
        have hop : op ≠ .removeOwn false := by
          rintro rfl
          cases hremoves
        refine ⟨socket, (step_owns hp hop howns).resolve_right ?_, hplace⟩
        -- A file that is removed is not there.
        rintro rfl
        rw [hplace] at hfile
        simp [World.setProcess, World.apply] at hfile
      · rw [processes_of_ne _ _ _ hji]
        exact ⟨socket, howns, hplace⟩
    · obtain rfl : i = j := Option.some.inj hj
      rw [processes_self]
      exact ⟨socket, step_creates hp hservice, rfl⟩

omit [DecidableEq ι] in
theorem Locked.of_fresh (h : w.Fresh) : Locked home w := by
  intro i hi
  rw [h.start i] at hi
  cases hi

omit [DecidableEq ι] in
theorem Owned.of_fresh (h : w.Fresh) : Owned home w := by
  intro place file j hfile hj
  rw [h.files place file hfile] at hj
  cases hj

/-! ### One server at a time -/

/-- Who removes a file, or puts one in its place, holds the lock. -/
theorem holds_of_taken {place : Place} {file : SocketFile ι}
    (hservice : InService w (.process i op))
    (hstep : step (fun _ => home) w (.process i op) = some w')
    (hfile : w.files place = some file) (hgone : w'.files place ≠ some file) :
    (w.processes i).phase.holds := by
  obtain ⟨p, effect, hp, rfl⟩ := step_process_iff.mp hstep
  exact hservice.holds hp (taken_apply hfile hgone).1

/-- What becomes of a machine with one home: the lock is held by one server at a time; no
server takes a file of another that holds it; and one that releases it has left none of
its own. -/
structure OneServer (home : Home) (w : World ι) : Prop where
  one : ∀ i j, (w.processes i).phase.holds → (w.processes j).phase.holds → i = j
  spares : ∀ i op w' place file j, InService w (.process i op) →
    step (fun _ => home) w (.process i op) = some w' → w.files place = some file →
    w'.files place ≠ some file → file.owner = some j → j ≠ i → ¬ (w.processes j).phase.holds

/-- No file of a server that has removed its sockets is there, from before it releases the
lock on. -/
def LeavesNothing (w : World ι) : Prop :=
  ∀ i result, (w.processes i).phase = .dropping [] result ∨ (w.processes i).phase = .ended result →
    ∀ place file, w.files place = some file → file.owner ≠ some i

omit [DecidableEq ι] in
theorem Owned.leavesNothing (h : Owned home w) : LeavesNothing w := by
  intro i result hphase place file hfile hi
  obtain ⟨socket, howns, -⟩ := h place file i hfile hi
  rcases hphase with hphase | hphase
  · rw [hphase, Phase.owns] at howns
    simp at howns
  · rw [hphase] at howns
    cases howns

theorem Locked.oneServer (h : Locked home w) : OneServer home w where
  one i j hi hj := Option.some.inj ((h i hi).symm.trans (h j hj))
  spares i op w' place file j hservice hstep hfile hgone hj hji hholds := by
    have htaker := holds_of_taken hservice hstep hfile hgone
    exact hji (Option.some.inj ((h j hholds).symm.trans (h i htaker)))

/-- **One server of a home at a time**, in every run where no listener binds again after
its server has stopped waiting for it.  Where no removal of its own sockets fails, a
server that releases the lock leaves none. -/
theorem one_server_at_a_time (hfresh : w.Fresh)
    (h : Steps (step fun _ => home) InService w w') :
    OneServer home w' ∧
      (Steps (step fun _ => home) (fun w a => InService w a ∧ Removes w a) w w' →
        LeavesNothing w') := by
  constructor
  · have hlocked : Locked home w' := h.invariant (I := Locked home)
      (fun _ _ _ hl _ hstep => hl.step hstep) (.of_fresh hfresh)
    exact hlocked.oneServer
  · intro hremoves
    have howned : Owned home w' := hremoves.invariant (I := Owned home)
      (fun _ _ _ ho hok hstep => ho.step hok.1 hok.2 hstep) (.of_fresh hfresh)
    exact howned.leavesNothing

/-! ### Two servers of a home, one after the other -/

def oneHome : Home := Home.atDir (ascii "/srv/one")

/-- A server starts, and binds its sockets to these inodes. -/
def starts (i : Bool) (api client : Nat) : List (Action Bool) :=
  [.create true, .openLock true, .tryLock true, .claim, .removeStale true, .removeStale true,
    .bind api true, .settle true, .bind client true, .settle true].map (Action.process i)

/-- It removes its sockets, and releases the lock. -/
def removesBoth (i : Bool) : List (Action Bool) :=
  [.removeOwn true, .removeOwn true, .release].map (Action.process i)

/-- A server starts and stops, and another starts. -/
def succession : List (Action Bool) :=
  starts false 1 2 ++
    [.shutdown, .stop, .leave .api, .leave .client, .join false].map (Action.process false) ++
    removesBoth false ++ starts true 3 4

/-- What they come to. -/
def succeeded : World Bool :=
  runs (step fun _ => oneHome) (fun w a => InService w a ∧ Removes w a) emptyWorld succession

theorem succession_one_server : OneServer oneHome succeeded ∧ LeavesNothing succeeded ∧
    (succeeded.processes true).phase.holds := by
  have h : Steps (step fun _ => oneHome) (fun w a => InService w a ∧ Removes w a) emptyWorld
      succeeded := steps_runs emptyWorld succession
  have hserver := one_server_at_a_time emptyWorld_fresh (h.mono fun _ _ hok => hok.1)
  exact ⟨hserver.1, hserver.2 h, by decide +kernel⟩

/-- tonic polls the listener of the client protocol no more once its shutdown fires. -/
def TonicStops (w : World ι) : Action ι → Prop
  | .process i (.check .client _) => (w.processes i).shutdown = false
  | _ => True

instance (w : World Bool) : (a : Action Bool) → Decidable (TonicStops w a)
  | .process i (.check .client _) => inferInstanceAs (Decidable ((w.processes i).shutdown = false))
  | .process _ (.check .api _) | .process _ (.create _) | .process _ (.openLock _)
  | .process _ (.tryLock _) | .process _ .look | .process _ .readClock | .process _ .wake
  | .process _ .claim | .process _ (.removeStale _) | .process _ (.bind _ _)
  | .process _ (.settle _) | .process _ .shutdown | .process _ .stop | .process _ (.join _)
  | .process _ .giveUp | .process _ (.removeOwn _) | .process _ .release | .process _ .crash
  | .process _ .exit | .process _ (.prepare _ _) | .process _ (.removeGone _ _)
  | .process _ (.bindAgain ..) | .process _ (.settleAgain _ _) | .process _ (.leave _)
  | .clean _ | .pass _ => .isTrue trivial

/-- A server's API socket is cleaned away, and its listener is about to remove what may be
in its place when the server is stopped.  The stop waits its five seconds for it, removes
the sockets and releases the lock, and another server starts. -/
def stoppedInRebind : List (Action Bool) :=
  starts false 1 2 ++ .clean (oneHome.socketPlace .api) ::
    [.check .api true, .prepare .api true, .shutdown, .leave .client, .stop].map
      (Action.process false) ++ .pass 5000 :: .process false .giveUp :: removesBoth false ++
    starts true 3 4

/-- The listener goes on, and removes the socket of the other server. -/
theorem late_rebind_takes_socket :
    ¬ ∀ (w w' w'' : World Bool) (i j : Bool) (op : Op) (place : Place) (file : SocketFile Bool),
      w.Fresh → Steps (step fun _ => oneHome) TonicStops w w' → TonicStops w' (.process i op) →
      step (fun _ => oneHome) w' (.process i op) = some w'' → w'.files place = some file →
      w''.files place ≠ some file → file.owner = some j → j ≠ i →
      ¬ (w'.processes j).phase.holds := by
  intro h
  have hnext : (step (fun _ => oneHome)
      (runs (step fun _ => oneHome) TonicStops emptyWorld stoppedInRebind)
      (.process false (.removeGone .api true))).any
        (fun w => (w.files (oneHome.socketPlace .api)).isNone) := by decide +kernel
  obtain ⟨w, hstep, hnone⟩ := (Option.any_eq_true _ _).mp hnext
  refine h emptyWorld _ w false true (.removeGone .api true) (oneHome.socketPlace .api)
    ⟨some true, 3⟩ emptyWorld_fresh (steps_runs emptyWorld stoppedInRebind) trivial hstep
    (by decide +kernel) ?_ rfl (by decide) (by decide +kernel)
  rw [Option.isNone_iff_eq_none.mp hnone]
  nofun

end Sockets

end FilePeeker
