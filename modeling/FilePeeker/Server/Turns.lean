import FilePeeker.Server.Sockets

/-!
# What a step of a server process comes to

What every step of a process keeps is told from one inversion (`turns_of_step`): `serve` goes
on to its next phase (`Process.Goes`), both sockets are bound, a listener goes on
(`Process.Listens`), the stop is asked for, or the process ends.
-/

namespace FilePeeker

namespace Sockets

namespace Process

/-- `serve` goes on by itself from one phase to another. -/
inductive Goes (home : Home) (v : View) (p : Process) : Op → Phase → Phase → Effect → Prop
  | created : Goes home v p (.create true) .idle .opening .none
  | uncreated :
      Goes home v p (.create false) .idle (.ended (ioError "cannot create " home.dir)) .none
  | opened : Goes home v p (.openLock true) .opening
      (.acquiring (v.now + lockGrace) .tryLock) .none
  | unopened :
      Goes home v p (.openLock false) .opening (.ended (ioError "cannot open " home.lock)) .none
  | lockFails {deadline : Instant} : Goes home v p (.tryLock false)
      (.acquiring deadline .tryLock) (.ended (ioError "cannot lock " home.lock)) .none
  | lockHeld {deadline : Instant} (hheld : v.held) : Goes home v p (.tryLock true)
      (.acquiring deadline .tryLock) (.acquiring deadline .firstLook) .none
  | locks {deadline : Instant} (hfree : v.held = false) :
      Goes home v p (.tryLock true) (.acquiring deadline .tryLock) .locked .take
  | missing {deadline : Instant} (hgone : v.inode .client = none) : Goes home v p .look
      (.acquiring deadline .firstLook) (.acquiring deadline .clock) .none
  | seen {deadline : Instant} (hseen : v.inode .client ≠ none) : Goes home v p .look
      (.acquiring deadline .firstLook) (.acquiring deadline .secondLook) .none
  | unseen {deadline : Instant} (hgone : v.inode .client = none) : Goes home v p .look
      (.acquiring deadline .secondLook)
      (.ended (.error (.socketUnseen home.dir home.clientSocket))) .none
  | running {deadline : Instant} (hseen : v.inode .client ≠ none) : Goes home v p .look
      (.acquiring deadline .secondLook) (.ended (.error (.alreadyRunning home.dir))) .none
  | sleeps {deadline : Instant} (hearly : v.now < deadline) : Goes home v p .readClock
      (.acquiring deadline .clock) (.acquiring deadline (.asleep (v.now + lockPoll))) .none
  | late {deadline : Instant} (hlate : deadline ≤ v.now) : Goes home v p .readClock
      (.acquiring deadline .clock) (.acquiring deadline .secondLook) .none
  | wakes {deadline wakeAt : Instant} (hnow : wakeAt ≤ v.now) : Goes home v p .wake
      (.acquiring deadline (.asleep wakeAt)) (.acquiring deadline .tryLock) .none
  | claims (hshort : home.checkSockets = .ok ()) :
      Goes home v p .claim .locked (.claiming Socket.all) .none
  | tooLong {why : Text} (hlong : home.checkSockets = .error why) : Goes home v p .claim .locked
      (.dropping [] (.error (.socketPathTooLong why))) .none
  | removesStale {socket next : Socket} {left : List Socket} : Goes home v p (.removeStale true)
      (.claiming (socket :: next :: left)) (.claiming (next :: left)) (.remove socket)
  | removesLast {socket : Socket} : Goes home v p (.removeStale true) (.claiming [socket])
      (.binding .api false) (.remove socket)
  | stale {socket : Socket} {left : List Socket} : Goes home v p (.removeStale false)
      (.claiming (socket :: left))
      (.dropping Socket.all (ioError "cannot remove stale " (home.socketPath socket))) .none
  | binds {socket : Socket} {inode : Nat} (hfree : v.inode socket = none) :
      Goes home v p (.bind inode true) (.binding socket false) (.binding socket true)
        (.create socket inode)
  | unbound {socket : Socket} {inode : Nat} {ok : Bool} :
      Goes home v p (.bind inode ok) (.binding socket false)
        (.dropping Socket.all (ioError "cannot bind " (home.socketPath socket))) .none
  | unsettled {socket : Socket} {ok : Bool} : Goes home v p (.settle ok) (.binding socket true)
      (.dropping Socket.all (ioError "cannot bind " (home.socketPath socket))) .none
  | stops (hasked : p.shutdown) :
      Goes home v p .stop .serving (.stopping (v.now + shutdownTimeout)) .none
  | joins {deadline : Instant} {grpc : Bool} (hoff : p.api.pc = .off ∧ p.client.pc = .off) :
      Goes home v p (.join grpc) (.stopping deadline)
        (.dropping Socket.all (if grpc then .error .grpc else .ok ())) .none
  | givesUp {deadline : Instant} (hlate : deadline ≤ v.now) :
      Goes home v p .giveUp (.stopping deadline) (.dropping Socket.all (.ok ())) .none
  | removesOwn {socket : Socket} {left : List Socket} {result : Except ServerError Unit} :
      Goes home v p (.removeOwn true) (.dropping (socket :: left) result)
        (.dropping left result) (.remove socket)
  | leavesOwn {socket : Socket} {left : List Socket} {result : Except ServerError Unit} :
      Goes home v p (.removeOwn false) (.dropping (socket :: left) result)
        (.dropping left result) .none
  | releases {result : Except ServerError Unit} :
      Goes home v p .release (.dropping [] result) (.ended result) .free

/-- A listener goes on. -/
inductive Listens (v : View) (p : Process) (socket : Socket) :
    Op → Listener → Listener → Effect → Prop
  | there {own : Nat} {ok : Bool} :
      Listens v p socket (.check socket ok) ⟨.accepting, own⟩ ⟨.accepting, own⟩ .none
  | gone {own : Nat} (hgone : v.inode socket ≠ some own) :
      Listens v p socket (.check socket true) ⟨.accepting, own⟩ ⟨.preparing, own⟩ .none
  | prepares {own : Nat} :
      Listens v p socket (.prepare socket true) ⟨.preparing, own⟩ ⟨.removing, own⟩ .none
  | unprepared {own : Nat} :
      Listens v p socket (.prepare socket false) ⟨.preparing, own⟩ ⟨.accepting, own⟩ .none
  | removes {own : Nat} : Listens v p socket (.removeGone socket true) ⟨.removing, own⟩
      ⟨.binding, own⟩ (.remove socket)
  | unremoved {own : Nat} :
      Listens v p socket (.removeGone socket false) ⟨.removing, own⟩ ⟨.accepting, own⟩ .none
  | binds {own inode : Nat} (hfree : v.inode socket = none) :
      Listens v p socket (.bindAgain socket inode true) ⟨.binding, own⟩ ⟨.settling, own⟩
        (.create socket inode)
  | unbound {own inode : Nat} {ok : Bool} :
      Listens v p socket (.bindAgain socket inode ok) ⟨.binding, own⟩ ⟨.accepting, own⟩ .none
  | settles {own : Nat} {ok : Bool} : Listens v p socket (.settleAgain socket ok)
      ⟨.settling, own⟩ ⟨.accepting, if ok then (v.inode socket).getD own else own⟩ .none
  | leaves {own : Nat} (hasked : p.shutdown) :
      Listens v p socket (.leave socket) ⟨.accepting, own⟩ ⟨.off, own⟩ .none

/-- What a step of a process comes to. -/
inductive Turns (home : Home) (v : View) (p : Process) : Op → Process → Effect → Prop
  | enters {op : Op} {phase phase' : Phase} {effect : Effect} (hp : p.phase = phase)
      (hgoes : p.Goes home v op phase phase' effect) : Turns home v p op (p.enter phase') effect
  /-- The first socket is bound. -/
  | settles {inode : Nat} (hp : p.phase = .binding .api true)
      (hbound : v.inode .api = some inode) : Turns home v p (.settle true)
        ((p.setListener ⟨.off, inode⟩ .api).enter (.binding .client false)) .none
  /-- The second is, and the two services start. -/
  | serves {inode : Nat} (hp : p.phase = .binding .client true)
      (hbound : v.inode .client = some inode) : Turns home v p (.settle true)
        { p with
          phase := .serving
          api := { p.api with pc := .accepting }
          client := ⟨.accepting, inode⟩ } .none
  | listens {op : Op} {socket : Socket} {l l' : Listener} {effect : Effect}
      (hl : p.listener socket = l) (hlistens : p.Listens v socket op l l' effect) :
      Turns home v p op (p.setListener l' socket) effect
  | asked : Turns home v p .shutdown { p with shutdown := true } .none
  /-- The process is killed, and its lock goes with it. -/
  | killed (hrunning : p.phase.running) (hholds : p.phase.holds) :
      Turns home v p .crash (p.silenced.enter .crashed) .free
  | crashes (hrunning : p.phase.running) (hholds : p.phase.holds = false) :
      Turns home v p .crash (p.silenced.enter .crashed) .none
  | exits {result : Except ServerError Unit} (hp : p.phase = .ended result) :
      Turns home v p .exit p.silenced .none

end Process

variable {home : Home} {v : View} {p p' : Process} {op : Op} {effect : Effect}

theorem Process.setListener_listener (p : Process) (socket : Socket) :
    p.setListener (p.listener socket) socket = p := by
  cases socket <;> rfl

theorem turns_of_step (h : p.step home v op = some (p', effect)) :
    p.Turns home v op p' effect := by
  cases op with
  | create ok =>
    simp only [Process.step] at h
    split at h
    · next hp =>
      cases ok <;> cases h
      · exact .enters hp .uncreated
      · exact .enters hp .created
    · cases h
  | openLock ok =>
    simp only [Process.step] at h
    split at h
    · next hp =>
      cases ok <;> cases h
      · exact .enters hp .unopened
      · exact .enters hp .opened
    · cases h
  | tryLock ok =>
    simp only [Process.step] at h
    split at h
    · next hp =>
      split_ifs at h with hok hheld <;> cases h
      · subst hok
        exact .enters hp (.lockHeld hheld)
      · subst hok
        exact .enters hp (.locks (Bool.eq_false_iff.mpr hheld))
      · obtain rfl : ok = false := Bool.eq_false_iff.mpr hok
        exact .enters hp .lockFails
    · cases h
  | look =>
    simp only [Process.step] at h
    split at h
    · next hp =>
      split_ifs at h with hnone <;> cases h
      · exact .enters hp (.missing hnone)
      · exact .enters hp (.seen hnone)
    · next hp =>
      split_ifs at h with hnone <;> cases h
      · exact .enters hp (.unseen hnone)
      · exact .enters hp (.running hnone)
    · cases h
  | readClock =>
    simp only [Process.step] at h
    split at h
    · next hp =>
      split_ifs at h with hnow <;> cases h
      · exact .enters hp (.sleeps hnow)
      · exact .enters hp (.late (Nat.le_of_not_lt hnow))
    · cases h
  | wake =>
    simp only [Process.step] at h
    split at h
    · next hp =>
      split_ifs at h with hnow
      cases h
      exact .enters hp (.wakes hnow)
    · cases h
  | claim =>
    simp only [Process.step] at h
    split at h
    · next hp =>
      split at h <;> cases h
      · next hshort => exact .enters hp (.claims hshort)
      · next hlong => exact .enters hp (.tooLong hlong)
    · cases h
  | removeStale ok =>
    simp only [Process.step] at h
    split at h
    · next socket left hp =>
      cases ok
      · cases h
        exact .enters hp .stale
      · cases left with
        | nil =>
          cases h
          exact .enters hp .removesLast
        | cons next left =>
          cases h
          exact .enters hp .removesStale
    · cases h
  | bind inode ok =>
    simp only [Process.step] at h
    split at h
    · next hp =>
      split_ifs at h with hbinds <;> cases h
      · obtain ⟨rfl, hfree⟩ := hbinds
        exact .enters hp (.binds hfree)
      · exact .enters hp .unbound
    · cases h
  | settle ok =>
    simp only [Process.step] at h
    split at h
    · next hp =>
      split at h <;> cases h
      · next hbound => exact .settles hp hbound
      · next hbound => exact .serves hp hbound
      · exact .enters hp .unsettled
    · cases h
  | shutdown =>
    cases h
    exact .asked
  | stop =>
    simp only [Process.step] at h
    split at h
    · next hp =>
      split_ifs at h with hasked
      cases h
      exact .enters hp (.stops hasked)
    · cases h
  | join grpc =>
    simp only [Process.step] at h
    split at h
    · next hp =>
      split at h <;> cases h
      next hoff => exact .enters hp (.joins hoff)
    · cases h
  | giveUp =>
    simp only [Process.step] at h
    split at h
    · next hp =>
      split_ifs at h with hlate
      cases h
      exact .enters hp (.givesUp hlate)
    · cases h
  | removeOwn ok =>
    simp only [Process.step] at h
    split at h
    · next hp =>
      cases ok <;> cases h
      · exact .enters hp .leavesOwn
      · exact .enters hp .removesOwn
    · cases h
  | release =>
    simp only [Process.step] at h
    split at h
    · next hp =>
      cases h
      exact .enters hp .releases
    · cases h
  | crash =>
    simp only [Process.step] at h
    split_ifs at h with hrunning hholds <;> cases h
    · exact .killed hrunning hholds
    · exact .crashes hrunning (Bool.eq_false_iff.mpr hholds)
  | exit =>
    simp only [Process.step] at h
    split at h
    · next hp =>
      cases h
      exact .exits hp
    · cases h
  | check socket ok =>
    simp only [Process.step] at h
    split at h
    · next own hl =>
      split_ifs at h with hgone <;> cases h
      · obtain ⟨rfl, hgone⟩ := hgone
        exact .listens hl (.gone hgone)
      · have hsame : p.setListener ⟨.accepting, own⟩ socket = p :=
          hl ▸ p.setListener_listener socket
        have hturns : p.Turns home v (.check socket ok)
            (p.setListener ⟨.accepting, own⟩ socket) .none := .listens hl .there
        rwa [hsame] at hturns
    · cases h
  | prepare socket ok =>
    simp only [Process.step] at h
    split at h
    · next hl =>
      cases ok <;> cases h
      · exact .listens hl .unprepared
      · exact .listens hl .prepares
    · cases h
  | removeGone socket ok =>
    simp only [Process.step] at h
    split at h
    · next hl =>
      cases ok <;> cases h
      · exact .listens hl .unremoved
      · exact .listens hl .removes
    · cases h
  | bindAgain socket inode ok =>
    simp only [Process.step] at h
    split at h
    · next hl =>
      split_ifs at h with hbinds <;> cases h
      · obtain ⟨rfl, hfree⟩ := hbinds
        exact .listens hl (.binds hfree)
      · exact .listens hl .unbound
    · cases h
  | settleAgain socket ok =>
    simp only [Process.step] at h
    split at h
    · next hl =>
      cases h
      exact .listens hl .settles
    · cases h
  | leave socket =>
    simp only [Process.step] at h
    split at h
    · next hl =>
      split_ifs at h with hasked
      cases h
      exact .listens hl (.leaves hasked)
    · cases h

end Sockets

end FilePeeker
