import FilePeeker.Server.OneServer

/-!
# What a start reports of a lock that is held

`acquire_lock` looks for the client socket twice in a round of its loop: once to wait
where there is none, and once more, where it does not wait, to say which error it is.
It returns with the lock only where it holds it, and reports a running server only where
the lock was held and the socket was there (`acquire_lock_reports`).

That a socket is unseen it reports once the grace has passed, as long as the socket a round
has seen first is there when it looks again (`Steady`).  A server that removes its sockets
between the two looks makes it give up at once (`stopping_server_fails_start`).
-/

namespace FilePeeker

namespace Sockets

open FilePeeker.Path

variable {ι : Type*} [DecidableEq ι] {homes : ι → Home} {home : Home} {v : View}
  {p p' : Process} {op : Op} {effect : Effect} {w₀ w w' : World ι} {i : ι} {a : Action ι}
  {deadline : Instant} {pc : AcquirePc} {phase : Phase}

/-! ### A step of `acquire_lock` -/

/-- What comes next of a process that is at a step of `acquire_lock`. -/
inductive AcquireStep (home : Home) (v : View) (deadline : Instant) (pc : AcquirePc) :
    Phase → Effect → Prop
  /-- Another step of the process. -/
  | aside {effect : Effect} : AcquireStep home v deadline pc (.acquiring deadline pc) effect
  | crashed : AcquireStep home v deadline pc .crashed .none
  | failed (hpc : pc = .tryLock) :
      AcquireStep home v deadline pc (.ended (Process.ioError "cannot lock " home.lock)) .none
  | held (hpc : pc = .tryLock) (hheld : v.held) :
      AcquireStep home v deadline pc (.acquiring deadline .firstLook) .none
  | taken (hpc : pc = .tryLock) (hfree : v.held = false) :
      AcquireStep home v deadline pc .locked .take
  | missing (hpc : pc = .firstLook) :
      AcquireStep home v deadline pc (.acquiring deadline .clock) .none
  | seen (hpc : pc = .firstLook) (hseen : v.inode .client ≠ none) :
      AcquireStep home v deadline pc (.acquiring deadline .secondLook) .none
  | waits (wakeAt : Instant) (hpc : pc = .clock) :
      AcquireStep home v deadline pc (.acquiring deadline (.asleep wakeAt)) .none
  | late (hpc : pc = .clock) (hlate : deadline ≤ v.now) :
      AcquireStep home v deadline pc (.acquiring deadline .secondLook) .none
  | wakes (wakeAt : Instant) (hpc : pc = .asleep wakeAt) :
      AcquireStep home v deadline pc (.acquiring deadline .tryLock) .none
  | unseen (hpc : pc = .secondLook) (hgone : v.inode .client = none) :
      AcquireStep home v deadline pc
        (.ended (.error (.socketUnseen home.dir home.clientSocket))) .none
  | running (hpc : pc = .secondLook) (hseen : v.inode .client ≠ none) :
      AcquireStep home v deadline pc (.ended (.error (.alreadyRunning home.dir))) .none

theorem step_acquiring (h : p.step home v op = some (p', effect))
    (hp : p.phase = .acquiring deadline pc) :
    AcquireStep home v deadline pc p'.phase effect := by
  cases turns_of_step h with
  | enters hfrom hgoes =>
    obtain rfl := hp.symm.trans hfrom
    rw [Process.enter_phase]
    cases hgoes with
    | lockFails => exact .failed rfl
    | lockHeld hheld => exact .held rfl hheld
    | locks hfree => exact .taken rfl hfree
    | missing => exact .missing rfl
    | seen hseen => exact .seen rfl hseen
    | unseen hgone => exact .unseen rfl hgone
    | running hseen => exact .running rfl hseen
    | sleeps => exact .waits _ rfl
    | late hlate => exact .late rfl hlate
    | wakes => exact .wakes _ rfl
  | settles hfrom | serves hfrom | exits hfrom => cases hp.symm.trans hfrom
  | listens =>
    rw [Process.setListener_phase, hp]
    exact .aside
  | asked =>
    rw [hp]
    exact .aside
  | killed _ hholds =>
    rw [hp] at hholds
    cases hholds
  | crashes => exact .crashed

/-- It is begun by opening the lock file, and by no other step. -/
theorem acquiring_of_step (h : p.step home v op = some (p', effect))
    (h' : p'.phase = .acquiring deadline pc) :
    p.phase = .opening ∧ pc = .tryLock ∨ ∃ pc', p.phase = .acquiring deadline pc' := by
  cases turns_of_step h with
  | enters hp hgoes =>
    obtain rfl := h'
    cases hgoes with
    | opened => exact .inl ⟨hp, rfl⟩
    | _ => exact .inr ⟨_, hp⟩
  | settles | serves | killed | crashes => cases h'
  | listens =>
    rw [Process.setListener_phase] at h'
    exact .inr ⟨pc, h'⟩
  | asked | exits => exact .inr ⟨pc, h'⟩

/-! ### Runs -/

/-- Where `acquire_lock` leaves a process: with the lock, or with an error. -/
def Phase.acquired : Except ServerError Unit → Phase
  | .ok () => .locked
  | .error error => .ended (.error error)

/-- `acquire_lock` returns with this result. -/
def Returns (i : ι) (w w' : World ι) (result : Except ServerError Unit) : Prop :=
  (∃ deadline pc, (w.processes i).phase = .acquiring deadline pc) ∧
    (w'.processes i).phase = .acquired result

/-- Every run of the machine. -/
abbrev anyRun (_ : World ι) (_ : Action ι) : Prop := True

/-- Between the two looks of a round, before the deadline, nothing removes the client's
socket. -/
def Steady (homes : ι → Home) (i : ι) (w : World ι) (a : Action ι) : Prop :=
  ∀ deadline, (w.processes i).phase = .acquiring deadline .secondLook → w.now < deadline →
    (w.files ((homes i).socketPlace .client)).isSome → ∀ w', step homes w a = some w' →
      (w'.files ((homes i).socketPlace .client)).isSome

/-- What is known of a process from the beginning of `acquire_lock` on: the deadline is
the grace away from there, and past `try_lock` the lock has been seen held. -/
structure Acquiring (homes : ι → Home) (i : ι) (w₀ w : World ι) : Prop where
  begun : (w.processes i).phase ≠ .idle ∧ (w.processes i).phase ≠ .opening
  deadline : ∀ deadline pc, (w.processes i).phase = .acquiring deadline pc →
    deadline = w₀.now + lockGrace
  held : ∀ deadline pc, (w.processes i).phase = .acquiring deadline pc →
    pc = .firstLook ∨ pc = .clock ∨ pc = .secondLook →
    ∃ u, Steps (step homes) anyRun w₀ u ∧ Steps (step homes) anyRun u w ∧
      (u.locks (homes i).lockPlace).isSome

/-- A second look before the deadline comes after a socket was seen. -/
def Seen (homes : ι → Home) (i : ι) (w : World ι) : Prop :=
  ∀ deadline, (w.processes i).phase = .acquiring deadline .secondLook →
    deadline ≤ w.now ∨ (w.files ((homes i).socketPlace .client)).isSome

theorem begun_of_step (h : p.step home v op = some (p', effect))
    (hbegun : p.phase ≠ .idle ∧ p.phase ≠ .opening) :
    p'.phase ≠ .idle ∧ p'.phase ≠ .opening := by
  cases turns_of_step h with
  | enters hp hgoes =>
    cases hgoes with
    | created | uncreated => exact absurd hp hbegun.1
    | _ => exact ⟨nofun, nofun⟩
  | settles | serves | killed | crashes => exact ⟨nofun, nofun⟩
  | listens =>
    rw [Process.setListener_phase]
    exact hbegun
  | asked | exits => exact hbegun

/-- A step of something else leaves the process where it was. -/
theorem step_processes (h : step homes w a = some w') :
    (∃ op p' effect, a = .process i op ∧
      (w.processes i).step (homes i) (w.view (homes i)) op = some (p', effect) ∧
      w' = (w.apply (homes i) i effect).setProcess i p') ∨
    w'.processes i = w.processes i := by
  cases a with
  | process j op =>
    obtain ⟨p', effect, hp, rfl⟩ := step_process_iff.mp h
    by_cases hij : i = j
    · subst hij
      exact .inl ⟨op, p', effect, rfl, hp, rfl⟩
    · exact .inr (processes_of_ne _ _ _ hij)
  | clean place =>
    cases h
    exact .inr rfl
  | pass time =>
    cases h
    exact .inr rfl

theorem Acquiring.step (h : Acquiring homes i w₀ w) (hrun : Steps (step homes) anyRun w₀ w)
    (hstep : step homes w a = some w') : Acquiring homes i w₀ w' := by
  have hafter : Steps (Sockets.step homes) anyRun w w' := .single trivial hstep
  rcases step_processes (i := i) hstep with ⟨op, p', effect, rfl, hp, rfl⟩ | hsame
  · have hfrom : ∀ {deadline pc}, p'.phase = .acquiring deadline pc →
        ∃ pc', (w.processes i).phase = .acquiring deadline pc' := fun hphase =>
      (acquiring_of_step hp hphase).resolve_left fun hopening => h.begun.2 hopening.1
    refine ⟨?_, fun deadline pc hphase => ?_, fun deadline pc hphase hpc => ?_⟩
    · rw [processes_self]
      exact begun_of_step hp h.begun
    · rw [processes_self] at hphase
      obtain ⟨pc', hphase'⟩ := hfrom hphase
      exact h.deadline deadline pc' hphase'
    · rw [processes_self] at hphase
      obtain ⟨pc', hphase'⟩ := hfrom hphase
      have hkept : pc' = .firstLook ∨ pc' = .clock ∨ pc' = .secondLook →
          ∃ u, Steps (Sockets.step homes) anyRun w₀ u ∧
            Steps (Sockets.step homes) anyRun u
              ((w.apply (homes i) i effect).setProcess i p') ∧
            (u.locks (homes i).lockPlace).isSome := fun hpc' => by
        obtain ⟨u, hbefore, hsince, hlock⟩ := h.held deadline pc' hphase' hpc'
        exact ⟨u, hbefore, hsince.trans hafter, hlock⟩
      have hcases := step_acquiring hp hphase'
      rw [hphase] at hcases
      cases hcases with
      | aside => exact hkept hpc
      | held _ hheld => exact ⟨w, hrun, hafter, hheld⟩
      | missing hfirst => exact hkept (.inl hfirst)
      | seen hfirst _ => exact hkept (.inl hfirst)
      | late hclock _ => exact hkept (.inr (.inl hclock))
      | waits | wakes => simp at hpc
  · refine ⟨?_, fun deadline pc hphase => ?_, fun deadline pc hphase hpc => ?_⟩
    · rw [hsame]
      exact h.begun
    · rw [hsame] at hphase
      exact h.deadline deadline pc hphase
    · rw [hsame] at hphase
      obtain ⟨u, hbefore, hsince, hlock⟩ := h.held deadline pc hphase hpc
      exact ⟨u, hbefore, hsince.trans hafter, hlock⟩

theorem now_le_of_step (h : step homes w a = some w') : w.now ≤ w'.now := by
  cases a with
  | process j op =>
    obtain ⟨p', effect, -, rfl⟩ := step_process_iff.mp h
    cases effect <;> exact Nat.le_refl _
  | clean place =>
    cases h
    exact Nat.le_refl _
  | pass time =>
    cases h
    exact Nat.le_add_right ..

omit [DecidableEq ι] in
theorem isSome_of_inode {socket : Socket} (h : (w.view home).inode socket ≠ none) :
    (w.files (home.socketPlace socket)).isSome := by
  rw [Option.isSome_iff_ne_none]
  intro hnone
  exact h (by simp only [World.view, hnone, Option.map_none])

theorem Seen.step (h : Seen homes i w) (hsteady : Steady homes i w a)
    (hstep : step homes w a = some w') : Seen homes i w' := by
  intro deadline hphase
  have hstays : (w.processes i).phase = .acquiring deadline .secondLook →
      deadline ≤ w'.now ∨ (w'.files ((homes i).socketPlace .client)).isSome := by
    intro hphase
    by_cases hlate : deadline ≤ w.now
    · exact .inl (hlate.trans (now_le_of_step hstep))
    · have hseen := (h deadline hphase).resolve_left hlate
      exact .inr (hsteady deadline hphase (Nat.lt_of_not_le hlate) hseen w' hstep)
  rcases step_processes (i := i) hstep with ⟨op, p', effect, rfl, hp, rfl⟩ | hsame
  · rw [processes_self] at hphase
    rcases acquiring_of_step hp hphase with ⟨-, hpc⟩ | ⟨pc, hphase'⟩
    · cases hpc
    · have hcases := step_acquiring hp hphase'
      rw [hphase] at hcases
      cases hcases with
      | aside => exact hstays hphase'
      | seen _ hseen => exact .inr (isSome_of_inode hseen)
      | late _ hlate => exact .inl hlate
  · exact hstays (by rw [← hsame, hphase])

/-! ### What it reports -/

theorem acquiring_of_steps (hbegun : (w₀.processes i).phase =
    .acquiring (w₀.now + lockGrace) .tryLock) (h : Steps (step homes) anyRun w₀ w) :
    Acquiring homes i w₀ w := by
  refine h.invariant_from ⟨?_, ?_, ?_⟩ fun _ _ _ hrun hinv _ hstep => hinv.step hrun hstep
  · rw [hbegun]
    exact ⟨nofun, nofun⟩
  · intro deadline pc hphase
    rw [hbegun] at hphase
    cases hphase
    rfl
  · intro deadline pc hphase hpc
    rw [hbegun] at hphase
    cases hphase
    simp at hpc

theorem seen_of_steps (hbegun : (w₀.processes i).phase =
    .acquiring (w₀.now + lockGrace) .tryLock) (h : Steps (step homes) (Steady homes i) w₀ w) :
    Seen homes i w := by
  refine h.invariant (fun _ _ _ hseen hsteady hstep => hseen.step hsteady hstep) ?_
  intro deadline hphase
  rw [hbegun] at hphase
  cases hphase

/-- A return is a step of the process itself. -/
theorem step_of_returns {result : Except ServerError Unit} (hstep : step homes w a = some w')
    (h : Returns i w w' result) : ∃ op p' effect deadline pc, a = .process i op ∧
      w' = (w.apply (homes i) i effect).setProcess i p' ∧
      (w.processes i).phase = .acquiring deadline pc ∧
      AcquireStep (homes i) (w.view (homes i)) deadline pc p'.phase effect ∧
      p'.phase = .acquired result := by
  obtain ⟨⟨deadline, pc, hphase⟩, hresult⟩ := h
  rcases step_processes (i := i) hstep with ⟨op, p', effect, rfl, hp, rfl⟩ | hsame
  · rw [processes_self] at hresult
    exact ⟨op, p', effect, deadline, pc, rfl, rfl, hphase, step_acquiring hp hphase, hresult⟩
  · rw [hsame, hphase] at hresult
    rcases result with error | ⟨⟩ <;> cases hresult

/-- It has the lock where it says so, and nobody had it. -/
theorem returns_ok (hstep : step homes w a = some w') (h : Returns i w w' (.ok ())) :
    w.locks (homes i).lockPlace = none ∧ w'.locks (homes i).lockPlace = some i := by
  obtain ⟨op, p', effect, deadline, pc, -, rfl, -, hcases, hresult⟩ := step_of_returns hstep h
  rw [hresult] at hcases
  cases hcases with
  | taken _ hfree => exact ⟨by simpa [World.view] using hfree, Function.update_self ..⟩

theorem returns_alreadyRunning (hacquiring : Acquiring homes i w₀ w)
    (hstep : step homes w a = some w') {dir : Bytes}
    (h : Returns i w w' (.error (.alreadyRunning dir))) :
    dir = (homes i).dir ∧ (w.files ((homes i).socketPlace .client)).isSome ∧
      ∃ u, Steps (step homes) anyRun w₀ u ∧ Steps (step homes) anyRun u w ∧
        (u.locks (homes i).lockPlace).isSome := by
  obtain ⟨op, p', effect, deadline, pc, -, rfl, hphase, hcases, hresult⟩ :=
    step_of_returns hstep h
  rw [hresult] at hcases
  cases hcases with
  | running hpc hseen =>
    exact ⟨rfl, isSome_of_inode hseen,
      hacquiring.held deadline pc hphase (.inr (.inr hpc))⟩

theorem returns_socketUnseen (hacquiring : Acquiring homes i w₀ w) (hseen : Seen homes i w)
    (hstep : step homes w a = some w') {dir socket : Bytes}
    (h : Returns i w w' (.error (.socketUnseen dir socket))) :
    w₀.now + lockGrace ≤ w.now := by
  obtain ⟨op, p', effect, deadline, pc, -, rfl, hphase, hcases, hresult⟩ :=
    step_of_returns hstep h
  rw [hresult] at hcases
  cases hcases with
  | unseen hpc hgone =>
    subst hpc
    rw [← hacquiring.deadline deadline _ hphase]
    refine (hseen deadline hphase).resolve_right fun hfile => ?_
    obtain ⟨file, hfile⟩ := Option.isSome_iff_exists.mp hfile
    simp [World.view, hfile] at hgone

/-- What a run of `acquire_lock` from `w₀` on may report, whatever it runs beside. -/
structure AcquireReports (homes : ι → Home) (i : ι) (w₀ : World ι) : Prop where
  ok : ∀ w a w', Steps (step homes) anyRun w₀ w → step homes w a = some w' →
    Returns i w w' (.ok ()) →
    w.locks (homes i).lockPlace = none ∧ w'.locks (homes i).lockPlace = some i
  alreadyRunning : ∀ w a w' dir, Steps (step homes) anyRun w₀ w → step homes w a = some w' →
    Returns i w w' (.error (.alreadyRunning dir)) →
    dir = (homes i).dir ∧ (w.files ((homes i).socketPlace .client)).isSome ∧
      ∃ u, Steps (step homes) anyRun w₀ u ∧ Steps (step homes) anyRun u w ∧
        (u.locks (homes i).lockPlace).isSome
  /-- Of runs where no socket is removed between the two looks of a round. -/
  socketUnseen : ∀ w a w' dir socket, Steps (step homes) (Steady homes i) w₀ w →
    step homes w a = some w' → Returns i w w' (.error (.socketUnseen dir socket)) →
    w₀.now + lockGrace ≤ w.now
  /-- Of the others. -/
  early : ∀ w deadline, Steps (step homes) anyRun w₀ w →
    (w.processes i).phase = .acquiring deadline .secondLook →
    w.files ((homes i).socketPlace .client) = none → w.now < w₀.now + lockGrace →
    ∃ w', step homes w (.process i .look) = some w' ∧ w'.now < w₀.now + lockGrace ∧
      Returns i w w' (.error (.socketUnseen (homes i).dir (homes i).clientSocket))

/-- **What `acquire_lock` reports.**  It returns the lock only where it holds it, and a
running server only where the lock was held and the socket is there.  It reports a socket as
unseen only after the grace, in every run where no socket is removed between the two looks
of a round; and where one has been, it does so at once. -/
theorem acquire_lock_reports
    (hbegun : (w₀.processes i).phase = .acquiring (w₀.now + lockGrace) .tryLock) :
    AcquireReports homes i w₀ where
  ok w a w' _ hstep := returns_ok hstep
  alreadyRunning w a w' dir hrun hstep :=
    returns_alreadyRunning (acquiring_of_steps hbegun hrun) hstep
  socketUnseen w a w' dir socket hrun hstep :=
    returns_socketUnseen (acquiring_of_steps hbegun (hrun.mono fun _ _ _ => trivial))
      (seen_of_steps hbegun hrun) hstep
  early w deadline hrun hphase hgone hearly := by
    have hlook : (w.processes i).step (homes i) (w.view (homes i)) .look =
        some ((w.processes i).enter (.ended (.error (.socketUnseen (homes i).dir
          (homes i).clientSocket))), .none) := by
      simp [Process.step, hphase, World.view, hgone]
    refine ⟨_, step_process_iff.mpr ⟨_, _, hlook, rfl⟩, hearly, ⟨deadline, _, hphase⟩, ?_⟩
    rw [processes_self]
    rfl

/-! ### A start beside a stop -/

/-- A server runs, and another is started. -/
def startBeside : List (Action Bool) :=
  starts false 1 2 ++ [.create true, .openLock true].map (Action.process true)

/-- It sees the socket, which the first server then removes. -/
def stopBetweenLooks : List (Action Bool) :=
  [.tryLock true, .look].map (Action.process true) ++
    [.shutdown, .stop, .leave .api, .leave .client, .join false, .removeOwn true,
      .removeOwn true].map (Action.process false)

def besideRunning : World Bool := runs (step fun _ => oneHome) anyRun emptyWorld startBeside

def besideStopping : World Bool :=
  runs (step fun _ => oneHome) anyRun besideRunning stopBetweenLooks

/-- The process is at the step, and this is its deadline. -/
def Phase.isAt (pc : AcquirePc) (deadline : Instant) : Phase → Bool
  | .acquiring deadline' pc' => deadline' = deadline ∧ pc' = pc
  | _ => false

theorem Phase.eq_of_isAt (h : phase.isAt pc deadline) : phase = .acquiring deadline pc := by
  cases phase with
  | acquiring deadline' pc' =>
    obtain ⟨rfl, rfl⟩ := of_decide_eq_true h
    rfl
  | _ => cases h

theorem start_beside_running : AcquireReports (fun _ => oneHome) true besideRunning :=
  acquire_lock_reports (Phase.eq_of_isAt (by decide +kernel))

/-- The first server is on its way out, and the start fails at once. -/
theorem stopping_server_fails_start : ∃ w₀ w w' : World Bool,
    Steps (step fun _ => oneHome) anyRun emptyWorld w₀ ∧
    (w₀.processes true).phase = .acquiring (w₀.now + lockGrace) .tryLock ∧
    Steps (step fun _ => oneHome) anyRun w₀ w ∧
    step (fun _ => oneHome) w (.process true .look) = some w' ∧
    Returns true w w' (.error (.socketUnseen oneHome.dir oneHome.clientSocket)) ∧
    w'.now < w₀.now + lockGrace := by
  have hlook : (besideStopping.processes true).phase =
      .acquiring (besideRunning.now + lockGrace) .secondLook := by
    exact Phase.eq_of_isAt (by decide +kernel)
  have hgone : besideStopping.files (oneHome.socketPlace .client) = none :=
    Option.isNone_iff_eq_none.mp (by decide +kernel)
  have hstep : (besideStopping.processes true).step oneHome (besideStopping.view oneHome) .look =
      some ((besideStopping.processes true).enter (.ended (.error (.socketUnseen oneHome.dir
        oneHome.clientSocket))), .none) := by
    simp [Process.step, hlook, World.view, hgone]
  refine ⟨besideRunning, besideStopping, _, steps_runs _ _, Phase.eq_of_isAt (by decide +kernel),
    steps_runs _ _, step_process_iff.mpr ⟨_, _, hstep, rfl⟩, ⟨⟨_, _, hlook⟩, ?_⟩,
    by decide +kernel⟩
  rw [processes_self]
  rfl

end Sockets

end FilePeeker
