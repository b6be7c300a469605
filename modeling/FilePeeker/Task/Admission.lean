import FilePeeker.Lib.Gate
import FilePeeker.Task.Cancellation

/-!
# Admission: the cap and the line

A capped root joins its scope's queue when it is submitted, takes a place of
the scope in the lock section that admits it, and gives it back in the one of
`Slot::drop`.  `Places` ties the three structures this touches together: the
queue holds the tickets of the drivers still waiting, `admitted` counts the
drivers that hold a place, and the places taken so far were taken in
submission order.  `PlaceChange` lists the moves that touch any of them.
-/

namespace FilePeeker

variable {Output : Type} {config : Config} {s s' : State Output} {id x : TaskId}
  {d d' : Driver Output} {op : Op} {a : Action Output}

/-- The future `run` returned has been spawned. -/
def Body.spawned : Body Output → Bool
  | unspawned => false
  | running | ended _ => true

/-- Admitted, and the body not spawned yet or never. -/
def Pc.afterAdmit : Pc Output → Bool
  | admitNotify | setRunning | call | unwindSlot | unwindNotify | dead => true
  | _ => false

/-- The driver is past the lock section that admitted it. -/
def Driver.admitted (d : Driver Output) : Bool := d.body.spawned || d.pc.afterAdmit

/-- Admitted, and its body has not ended: neither the call of `run` nor the
future it returned. -/
def Driver.bodyPending (d : Driver Output) : Bool :=
  match d.pc with
  | .admitNotify | .setRunning | .call => true
  | _ => d.body.isRunning

/-- A root whose class and first resource are these. -/
def Driver.rootOf (d : Driver Output) (scope : Scope) : Bool :=
  d.token.parent.isNone && d.ticket.scope = scope

/-- The live slots of a scope. -/
def State.slots (s : State Output) (scope : Scope) : Nat :=
  s.ids.countP fun x => (s.drivers x).any fun d => d.holdsSlot && d.ticket.scope = scope

/-- The admitted roots of a scope whose body has not ended. -/
def State.pendingBodies (s : State Output) (scope : Scope) : Nat :=
  s.ids.countP fun x => (s.drivers x).any fun d => d.rootOf scope && d.bodyPending

/-! ### The moves that change a place -/

/-- Where a driver with a queued ticket is at its scope's gate. -/
def Driver.standing (d : Driver Output) : Standing :=
  if d.pc.inQueue then .waiting
  else if d.pc.holdsSlot then .inside
  else if d.admitted then .out
  else .left

/-- How a move changes where its driver is. -/
inductive PlaceChange : Op → Standing → Standing → Prop
  | admits : PlaceChange .admitTicket .waiting .inside
  | leave : PlaceChange .leave .waiting .left
  | release : PlaceChange .release .inside .out
  | same {op : Op} {st : Standing} (hop : op ≠ .admitTicket ∧ op ≠ .leave ∧ op ≠ .release) :
      PlaceChange op st st

theorem PlaceChange.same_of_eq {op : Op} {st st' : Standing} (h : st' = st)
    (hop : op ≠ .admitTicket ∧ op ≠ .leave ∧ op ≠ .release) : PlaceChange op st st' :=
  h ▸ .same hop

theorem Driver.standing_refuse {error : TaskError} (hq : d.ticket.queued = true)
    (hpc : d.pc.inAdmit = true) : (d.refuse error).standing = d.standing := by
  have hinq : d.pc.inQueue = true := by
    cases hp : d.pc <;> simp_all [Pc.inQueue, Pc.inAdmit]
  have h1 : d.standing = .waiting := by rw [Driver.standing, hinq, if_pos rfl]
  rw [h1]
  simp [Driver.standing, Driver.refuse, hq, Pc.inQueue]

theorem Driver.standing_join {joined : Joined Output} (hq : d.ticket.queued = true)
    (hpc : d.pc.holdsSlot = true) (hpc' : d.pc.inQueue = false) :
    (d.join joined).standing = d.standing := by
  have h1 : d.standing = .inside := by
    rw [Driver.standing, hpc', hpc, if_neg (by simp), if_pos rfl]
  rw [h1]
  simp [Driver.standing, Driver.join, hq, Pc.inQueue, Pc.inAdmit, Pc.holdsSlot]

/-- **How a move changes a driver's place in its scope.** -/
theorem Turn.place (h : Turn config s id d op d') (hok : d.Ok) (hq : d.ticket.queued = true) :
    PlaceChange op d.standing d'.standing := by
  obtain ⟨_, hb⟩ := hok
  cases h with
  | admitQueued hpc hadm hqueued =>
    have h1 : d.standing = .waiting := by simp [Driver.standing, hpc, Pc.inQueue, Pc.inAdmit]
    rw [h1]
    exact .admits
  | leaveQueue hpc =>
    rw [hpc] at hb
    have h1 : d.standing = .waiting := by simp [Driver.standing, hpc, Pc.inQueue]
    have h2 : ∀ error, ({ d with pc := .leaveNotify error } : Driver Output).standing = .left := by
      intro error
      simp [Driver.standing, Driver.admitted, show d.body = .unspawned from hb, Pc.inQueue,
        Pc.inAdmit, Pc.holdsSlot, Body.spawned, Pc.afterAdmit]
    rw [h1, h2]
    exact .leave
  | dropSlot hpc =>
    rw [hpc] at hb
    have h1 : d.standing = .inside := by
      simp [Driver.standing, hpc, Pc.inQueue, Pc.inAdmit, Pc.holdsSlot]
    have h2 : ∀ joined, ({ d with pc := .dropNotify joined } : Driver Output).standing = .out := by
      intro joined
      simp [Driver.standing, Driver.admitted, show d.body = .ended _ from hb, Pc.inQueue,
        Pc.inAdmit, Pc.holdsSlot, Body.spawned]
    rw [h1, h2]
    exact .release
  | unwindSlot hpc =>
    rw [hpc] at hb
    have h1 : d.standing = .inside := by
      simp [Driver.standing, hpc, Pc.inQueue, Pc.inAdmit, Pc.holdsSlot]
    have h2 : ({ d with pc := .unwindNotify } : Driver Output).standing = .out := by
      simp [Driver.standing, Driver.admitted, show d.body = .unspawned from hb, Pc.inQueue,
        Pc.inAdmit, Pc.holdsSlot, Body.spawned, Pc.afterAdmit]
    rw [h1, h2]
    exact .release
  | admitUnqueued hpc hadm hqueued => rw [hq] at hqueued; cases hqueued
  | admitFail hpc =>
    exact .same_of_eq (Driver.standing_refuse hq (by simp [hpc, Pc.inAdmit])) (by simp)
  | pollEnded hpc hend | joinCancelled hpc hend =>
    exact .same_of_eq (Driver.standing_join hq (by simp [hpc, Pc.holdsSlot])
      (by simp [hpc, Pc.inQueue, Pc.inAdmit])) (by simp)
  | _ =>
    rename_i hpc
    refine .same_of_eq ?_ (by simp)
    simp_all [Driver.standing, Driver.admitted, Pc.inQueue, Pc.inAdmit, Pc.holdsSlot,
      Pc.afterAdmit]

theorem Nudge.standing (h : Nudge s id d a d') (hok : d.Ok) (hq : d.ticket.queued = true) :
    d'.standing = d.standing := by
  obtain ⟨_, hb⟩ := hok
  cases h with
  | giveUp hpc => exact Driver.standing_refuse hq (by simp [hpc, Pc.inAdmit])
  | runReturns hpc =>
    simp [Driver.standing, hpc, Pc.inQueue, Pc.inAdmit, Pc.holdsSlot]
  | runPanics hpc =>
    simp [Driver.standing, hpc, hq, Pc.inQueue, Pc.inAdmit, Pc.holdsSlot]
  | bodyEnds hrun => simp [Driver.standing, Driver.admitted, hrun, Body.spawned]

/-- Only a queued ticket's driver touches the gate's structures. -/
theorem Turn.queued_of_op (h : Turn config s id d op d') (hok : d.Ok)
    (hop : op = .admitTicket ∨ op = .leave ∨ (op = .release)) : d.ticket.queued = true := by
  obtain ⟨hq, _⟩ := hok
  cases h with
  | admitQueued _ _ hqueued => exact hqueued
  | leaveQueue hpc | dropSlot hpc | unwindSlot hpc => exact hq (by simp [hpc, Pc.needsQueue])
  | _ => simp at hop

/-! ### The gate the runtime keeps -/

/-- What the gate sees of a driver: nothing, unless its ticket queues. -/
def Driver.slip (d : Driver Output) : Option (Slip Scope) :=
  if d.ticket.queued then some ⟨d.ticket.seq, d.ticket.scope, d.standing⟩ else none

/-- The runtime's capped roots as participants of a gate. -/
def State.gate (s : State Output) : Gate TaskId Scope where
  arrivals := s.ids.filter fun x => (s.drivers x).any fun d => d.ticket.queued
  slip x := (s.drivers x).bind Driver.slip
  entered := s.admissions

/-- The registry's queues and counts are those of the gate. -/
structure Registry.Keeps (reg : Registry) (g : Gate TaskId Scope) : Prop where
  queues : ∀ scope n, n ∈ reg.queues scope ↔ ∃ x, g.slip x = some ⟨n, scope, .waiting⟩
  admitted : ∀ scope, reg.admitted scope = g.inside scope

theorem Driver.slip_of_queued (hq : d.ticket.queued = true) :
    d.slip = some ⟨d.ticket.seq, d.ticket.scope, d.standing⟩ := if_pos hq

theorem Registry.Keeps.of_eq {reg reg' : Registry} {g : Gate TaskId Scope} (h : reg.Keeps g)
    (hqueues : reg'.queues = reg.queues) (hadm : reg'.admitted = reg.admitted) : reg'.Keeps g :=
  ⟨by rw [hqueues]; exact h.queues, by rw [hadm]; exact h.admitted⟩

section
variable {cap : Scope → Option Nat} {g : Gate TaskId Scope} {reg : Registry} {i : TaskId}
  {n : Nat} {k : Scope} {sl : Slip Scope}

/-- One ticket leaves the line: the queue it is taken out of is the new line. -/
theorem Gate.waiting_put (hok : Gate.Ok cap g) (hi : g.slip i = some ⟨n, k, .waiting⟩)
    {st : Standing} (hst : st ≠ .waiting) (k' : Scope) (m : Nat) :
    (∃ x, (g.put i ⟨n, k, st⟩).slip x = some ⟨m, k', .waiting⟩) ↔
      (∃ x, g.slip x = some ⟨m, k', .waiting⟩) ∧ ¬(k' = k ∧ m = n) := by
  constructor
  · rintro ⟨x, hx⟩
    rw [Gate.put_slip] at hx
    by_cases hxi : x = i
    · rw [if_pos hxi] at hx
      cases hx
      exact absurd rfl hst
    · rw [if_neg hxi] at hx
      refine ⟨⟨x, hx⟩, ?_⟩
      rintro ⟨rfl, rfl⟩
      exact hxi (hok.seq_inj x i _ _ hx hi rfl)
  · rintro ⟨⟨x, hx⟩, hne⟩
    refine ⟨x, ?_⟩
    rw [Gate.put_slip, if_neg, hx]
    rintro rfl
    rw [hi] at hx
    cases hx
    exact hne ⟨rfl, rfl⟩

/-- A ticket that is not in line before or after changes no queue. -/
theorem Gate.waiting_put_of_ne (hi : ∀ sl₀, g.slip i = some sl₀ → sl₀.standing ≠ .waiting)
    (hst : sl.standing ≠ .waiting) (k' : Scope) (m : Nat) :
    (∃ x, (g.put i sl).slip x = some ⟨m, k', .waiting⟩) ↔
      ∃ x, g.slip x = some ⟨m, k', .waiting⟩ := by
  refine exists_congr fun x => ?_
  rw [Gate.put_slip]
  by_cases hxi : x = i
  · rw [if_pos hxi, hxi]
    constructor
    · intro h
      cases h
      exact absurd rfl hst
    · intro h
      exact absurd rfl (hi _ h)
  · rw [if_neg hxi]

theorem dequeue_queues (ticket : Ticket) (k' : Scope) (m : Nat) :
    m ∈ (dequeue reg ticket).queues k' ↔
      m ∈ reg.queues k' ∧ ¬(k' = ticket.scope ∧ m = ticket.seq) := by
  by_cases hk : k' = ticket.scope
  · subst hk
    simp [dequeue, and_comm]
  · simp [dequeue, hk]

theorem Gate.inside_enter (hok : Gate.Ok cap g) (hi : g.slip i = some ⟨n, k, .waiting⟩)
    (k' : Scope) : (g.put i ⟨n, k, .inside⟩).inside k' =
      if k' = k then g.inside k' + 1 else g.inside k' := by
  have hput := Gate.inside_put hok ((hok.mem i).mpr (by rw [hi]; rfl)) ⟨n, k, .inside⟩ k'
  have h1 : g.isInside k' i = false := by simp [Gate.isInside, hi]
  have h2 : (g.put i ⟨n, k, .inside⟩).isInside k' i = decide (k' = k) := by
    simp [Gate.isInside, eq_comm]
  simp only [h1, h2, decide_eq_true_eq, Bool.false_eq_true, if_false, Nat.add_zero] at hput
  rw [hput]
  split <;> rfl

theorem Gate.inside_exit (hok : Gate.Ok cap g) (hi : g.slip i = some ⟨n, k, .inside⟩)
    (k' : Scope) : (g.put i ⟨n, k, .out⟩).inside k' =
      if k' = k then g.inside k' - 1 else g.inside k' := by
  have hput := Gate.inside_put hok ((hok.mem i).mpr (by rw [hi]; rfl)) ⟨n, k, .out⟩ k'
  have h1 : g.isInside k' i = decide (k' = k) := by simp [Gate.isInside, hi, eq_comm]
  have h2 : (g.put i ⟨n, k, .out⟩).isInside k' i = false := by
    simp [Gate.isInside]
  simp only [h1, h2, decide_eq_true_eq, Bool.false_eq_true, if_false, Nat.add_zero] at hput
  split at hput
  · rw [if_pos ‹_›]; omega
  · rw [if_neg ‹_›]; omega

theorem Gate.inside_leave (hok : Gate.Ok cap g) (hi : g.slip i = some ⟨n, k, .waiting⟩)
    (k' : Scope) : (g.put i ⟨n, k, .left⟩).inside k' = g.inside k' := by
  have hput := Gate.inside_put hok ((hok.mem i).mpr (by rw [hi]; rfl)) ⟨n, k, .left⟩ k'
  have h1 : g.isInside k' i = false := by simp [Gate.isInside, hi]
  have h2 : (g.put i ⟨n, k, .left⟩).isInside k' i = false := by
    simp [Gate.isInside]
  simpa only [h1, h2, Bool.false_eq_true, if_false, Nat.add_zero] using hput

/-- The line after an arrival is the old one, and the newcomer's ticket. -/
theorem Gate.waiting_arrive (hi : g.slip i = none) (k' : Scope) (m : Nat) :
    (∃ x, (g.put i ⟨n, k, .waiting⟩).slip x = some ⟨m, k', .waiting⟩) ↔
      (m = n ∧ k' = k) ∨ ∃ x, g.slip x = some ⟨m, k', .waiting⟩ := by
  constructor
  · rintro ⟨x, hx⟩
    rw [Gate.put_slip] at hx
    split at hx
    · cases hx
      exact .inl ⟨rfl, rfl⟩
    · exact .inr ⟨x, hx⟩
  · rintro (⟨rfl, rfl⟩ | ⟨x, hx⟩)
    · exact ⟨i, by rw [Gate.put_slip, if_pos rfl]⟩
    · refine ⟨x, ?_⟩
      rw [Gate.put_slip, if_neg, hx]
      rintro rfl
      rw [hi] at hx
      cases hx

/-! The registry follows where a ticket enters, leaves the line, or goes out. -/

variable {ticket : Ticket} {entered : List TaskId}

theorem Registry.Keeps.admitTicket (hok : Gate.Ok cap g) (hk : reg.Keeps g)
    (hi : g.slip i = some ⟨ticket.seq, ticket.scope, .waiting⟩) :
    (reg.admitTicket ticket).Keeps
      { g.put i ⟨ticket.seq, ticket.scope, .inside⟩ with entered := entered } where
  queues k m := by
    refine (dequeue_queues ticket k m).trans ?_
    rw [show ∀ x, ({ reg with admitted := x } : Registry).queues = reg.queues from fun _ => rfl,
      hk.queues]
    exact (Gate.waiting_put hok hi (by simp) k m).symm
  admitted k := by
    refine Eq.trans ?_ (Gate.inside_enter hok hi k).symm
    change Function.update reg.admitted _ _ k = _
    rw [Function.update_apply, hk.admitted, hk.admitted]
    split
    · rename_i h; rw [h]
    · rfl

theorem Registry.Keeps.dequeue (hok : Gate.Ok cap g) (hk : reg.Keeps g)
    (hi : g.slip i = some ⟨ticket.seq, ticket.scope, .waiting⟩) :
    (dequeue reg ticket).Keeps
      { g.put i ⟨ticket.seq, ticket.scope, .left⟩ with entered := entered } where
  queues k m := by
    rw [dequeue_queues, hk.queues]
    exact (Gate.waiting_put hok hi (by simp) k m).symm
  admitted k := (hk.admitted k).trans (Gate.inside_leave hok hi k).symm

theorem Registry.Keeps.release (hok : Gate.Ok cap g) (hk : reg.Keeps g)
    (hi : g.slip i = some ⟨n, k, .inside⟩) :
    (reg.release k).Keeps { g.put i ⟨n, k, .out⟩ with entered := entered } where
  queues k' m := by
    refine (hk.queues k' m).trans (Gate.waiting_put_of_ne ?_ (by simp) k' m).symm
    intro sl₀ h
    rw [hi] at h
    cases h
    simp
  admitted k' := by
    refine Eq.trans ?_ (Gate.inside_exit hok hi k').symm
    change Function.update reg.admitted _ _ k' = _
    rw [Function.update_apply, hk.admitted, hk.admitted]
    split
    · rename_i h; rw [h]
    · rfl

end

/-! ### The runtime's steps are the gate's -/

/-- What the gate reads of a driver. -/
def Driver.SameSlip (o o' : Option (Driver Output)) : Prop :=
  o'.bind Driver.slip = o.bind Driver.slip ∧
    (o'.any fun d => d.ticket.queued) = o.any fun d => d.ticket.queued

theorem Driver.SameSlip.wake (o : Option (Driver Output)) :
    Driver.SameSlip o (o.map Driver.wake) := by
  cases o <;> exact ⟨rfl, rfl⟩

theorem Moved.sameSlip (hs : d.SameStart d') (h : d.ticket.queued = true →
    d'.standing = d.standing) : Driver.SameSlip (some d) (some d') := by
  refine ⟨?_, by simp [hs.ticket]⟩
  rw [Option.bind_some, Option.bind_some]
  unfold Driver.slip
  rw [hs.ticket]
  cases hq : d.ticket.queued with
  | false => rfl
  | true => rw [h hq]

theorem State.gate_eq (hids : s'.ids = s.ids) (hadm : s'.admissions = s.admissions)
    (hsame : ∀ x, Driver.SameSlip (s.drivers x) (s'.drivers x)) : s'.gate = s.gate := by
  ext1
  · simp only [State.gate, hids]
    exact List.filter_congr fun x _ => (hsame x).2
  · funext x
    exact (hsame x).1
  · exact hadm

/-- A driver's move as the gate sees it: one slip put back. -/
theorem State.gate_put (hs : d.SameStart d') (hq : d.ticket.queued = true)
    (hd : s.drivers id = some d) (hd' : s'.drivers id = some d') (hids : s'.ids = s.ids)
    (hsame : ∀ x, x ≠ id → Driver.SameSlip (s.drivers x) (s'.drivers x)) :
    s'.gate = { s.gate.put id ⟨d.ticket.seq, d.ticket.scope, d'.standing⟩ with
      entered := s'.admissions } := by
  ext1
  · simp only [State.gate, hids]
    refine List.filter_congr fun x _ => ?_
    by_cases hx : x = id
    · subst hx
      rw [hd, hd']
      simp [hs.ticket]
    · exact (hsame x hx).2
  · funext x
    change (s'.drivers x).bind Driver.slip = (s.gate.put id _).slip x
    rw [Gate.put_slip]
    by_cases hx : x = id
    · subst hx
      rw [if_pos rfl, hd', Option.bind_some, Driver.slip_of_queued (hs.ticket ▸ hq), hs.ticket]
    · rw [if_neg hx]
      exact (hsame x hx).1
  · rfl

theorem State.perform_sameSlip (s : State Output) (config : Config) (id : TaskId)
    (d : Driver Output) (op : Op) (x : TaskId) :
    Driver.SameSlip (s.drivers x) ((s.perform config id d op).drivers x) := by
  rcases s.perform_drivers config id d op x with h | ⟨_, h⟩
  · rw [h]; exact ⟨rfl, rfl⟩
  · rw [h]; exact .wake _

/-- The moves that are none of the gate's business touch nothing admission
reads. -/
theorem State.perform_agree (s : State Output) (config : Config) (id : TaskId)
    (d : Driver Output) {op : Op} (hop : op ≠ .admitTicket ∧ op ≠ .leave ∧ op ≠ .release) :
    AgreeOnAdmission s.registry (s.perform config id d op).registry ∧
      (s.perform config id d op).admissions = s.admissions := by
  cases op with
  | admitTicket => exact absurd rfl hop.1
  | leave => exact absurd rfl hop.2.1
  | release => exact absurd rfl hop.2.2
  | setQueued on => exact ⟨s.registry.agree_setQueued id on, rfl⟩
  | setState st => exact ⟨s.registry.agree_setState id st, rfl⟩
  | settle st => exact ⟨s.registry.agree_settle config id st s.wall, rfl⟩
  | none | notify | cancelChildren => exact ⟨⟨rfl, rfl, rfl, rfl⟩, rfl⟩

/-- The room a scope has. -/
def Config.room (config : Config) (scope : Scope) : Option Nat := config.cap scope.1

/-- **A decision to admit is one the gate allows**: the root is the first of its
line, and its scope has room. -/
theorem Driver.decision_admit (hadm : d.decision config s.registry = .admits)
    (hq : d.ticket.queued = true) {cap : Nat} (hcap : config.cap d.ticket.scope.1 = some cap) :
    s.registry.admitted d.ticket.scope < cap ∧
      (s.registry.queues d.ticket.scope).min = d.ticket.seq := by
  unfold Driver.decision Ticket.cap at hadm
  rw [if_pos hq, hcap] at hadm
  generalize d.requires = requires at hadm
  induction requires with
  | nil =>
    simp only [admission] at hadm
    split at hadm
    · assumption
    · cases hadm
  | cons r rest ih =>
    simp only [admission] at hadm
    split at hadm
    · exact ih hadm
    · cases hadm
    · cases hadm
    · cases hadm
    · cases hadm

/-- A driver's move is one of the gate's or none, and the registry's queues and
counts follow. -/
theorem Turn.gate {d₀ d₁ : Driver Output} (hturn : Turn config s id d₀ op d₁)
    (hwf : Wf config s) (hok : Gate.Ok config.room s.gate) (hk : s.registry.Keeps s.gate)
    (hd : s.drivers id = some d₀) :
    ((s.perform config id d₀ op).setDriver id d₁).registry.Keeps
        ((s.perform config id d₀ op).setDriver id d₁).gate ∧
      (((s.perform config id d₀ op).setDriver id d₁).gate = s.gate ∨
        Gate.Step config.room s.gate ((s.perform config id d₀ op).setDriver id d₁).gate) := by
  have hs := hturn.sameStart
  have hdok := hwf.ok id d₀ hd
  have hothers : ∀ x, x ≠ id → Driver.SameSlip (s.drivers x)
      (((s.perform config id d₀ op).setDriver id d₁).drivers x) := by
    intro x hx
    rw [State.setDriver_drivers, Function.update_of_ne hx]
    exact s.perform_sameSlip config id d₀ op x
  have hself : ((s.perform config id d₀ op).setDriver id d₁).drivers id = some d₁ := by simp
  by_cases hop : op ≠ .admitTicket ∧ op ≠ .leave ∧ op ≠ .release
  · -- the gate stays as it is
    have hgate : ((s.perform config id d₀ op).setDriver id d₁).gate = s.gate := by
      refine State.gate_eq (s.perform_ids config id d₀ op) (s.perform_agree config id d₀ hop).2 ?_
      intro x
      by_cases hx : x = id
      · subst hx
        rw [hself, hd]
        refine Moved.sameSlip hs fun hq => ?_
        have hplace := hturn.place hdok hq
        generalize d₀.standing = st₀ at hplace ⊢
        generalize d₁.standing = st₁ at hplace ⊢
        cases hplace with
        | same => rfl
        | admits => exact absurd rfl hop.1
        | leave => exact absurd rfl hop.2.1
        | release => exact absurd rfl hop.2.2
      · exact hothers x hx
    have hagree := (s.perform_agree config id d₀ hop).1
    exact ⟨hgate ▸ hk.of_eq hagree.queues hagree.admitted, .inl hgate⟩
  · have hq : d₀.ticket.queued = true := hturn.queued_of_op hdok (by tauto)
    have hgate := State.gate_put hs hq hd hself (s.perform_ids config id d₀ op) hothers
    have hslip : s.gate.slip id = some ⟨d₀.ticket.seq, d₀.ticket.scope, d₀.standing⟩ := by
      change (s.drivers id).bind Driver.slip = _
      rw [hd, Option.bind_some, Driver.slip_of_queued hq]
    have hplace := hturn.place hdok hq
    rw [hgate]
    generalize hst₀ : d₀.standing = st₀ at hplace hslip
    generalize d₁.standing = st₁ at hplace ⊢
    cases hplace with
    | same hop' => exact absurd hop' hop
    | admits =>
      have hcapd : ∃ cap, config.cap d₀.ticket.scope.1 = some cap := by
        have := hwf.queued id d₀ hd
        rw [hq] at this
        exact Option.isSome_iff_exists.mp (Bool.and_eq_true_iff.mp this.symm).2
      obtain ⟨cap, hcap⟩ := hcapd
      have hadm : d₀.decision config s.registry = .admits := by
        generalize hop' : Op.admitTicket = op at hturn
        cases hturn <;> first | assumption | cases hop'
      obtain ⟨hroom, hmin⟩ := Driver.decision_admit hadm hq hcap
      refine ⟨hk.admitTicket hok hslip, .inr (.enter hslip ?_ hcap ?_)⟩
      · intro j m hj
        have hmem := (hk.queues d₀.ticket.scope m).mpr ⟨j, hj⟩
        exact Finset.min_le_of_eq hmem hmin
      · rw [← hk.admitted]; exact hroom
    | leave => exact ⟨hk.dequeue hok hslip, .inr (.leave hslip)⟩
    | release => exact ⟨hk.release hok hslip, .inr (.exit hslip)⟩

section
variable {kind : TaskKind} {parent : Option TaskId} {token : CancelToken TaskId}
  {submitted : SystemTime}

theorem State.started_gate_slip (x : TaskId) :
    (s.started config id kind parent token submitted).gate.slip x =
      if x = id then
        if (s.registry.ticket config kind parent).queued then
          some ⟨s.registry.nextSeq, (s.registry.ticket config kind parent).scope, .waiting⟩
        else none
      else s.gate.slip x := by
  change (Function.update s.drivers id _ x).bind Driver.slip = _
  rw [Function.update_apply]
  by_cases hx : x = id
  · rw [if_pos hx, if_pos hx]
    rfl
  · rw [if_neg hx, if_neg hx]
    rfl

theorem State.started_gate_arrivals (hnew : id ∉ s.ids) :
    (s.started config id kind parent token submitted).gate.arrivals =
      s.gate.arrivals ++ if (s.registry.ticket config kind parent).queued then [id] else [] := by
  change (s.ids ++ [id]).filter _ = s.ids.filter _ ++ _
  rw [List.filter_append]
  congr 1
  · refine List.filter_congr fun x hx => ?_
    have hne : x ≠ id := fun h => hnew (h ▸ hx)
    rw [show (s.started config id kind parent token submitted).drivers x = s.drivers x from
      Function.update_of_ne hne _ _]
  · change (List.filter (fun x => (Function.update s.drivers id _ x).any _) [id]) = _
    rw [List.filter_singleton, Function.update_self, Bool.cond_eq_ite]
    rfl

theorem State.gate_started_uncapped (hfresh : s.drivers id = none) (hnew : id ∉ s.ids)
    (hq : (s.registry.ticket config kind parent).queued = false) :
    (s.started config id kind parent token submitted).gate = s.gate := by
  have hnone : s.gate.slip id = none := by
    change (s.drivers id).bind Driver.slip = none
    rw [hfresh, Option.bind_none]
  ext1
  · rw [State.started_gate_arrivals hnew, hq, if_neg (by simp), List.append_nil]
  · funext x
    rw [State.started_gate_slip, hq]
    by_cases hx : x = id
    · rw [if_pos hx, if_neg (by simp), hx, hnone]
    · rw [if_neg hx]
  · rfl

theorem State.gate_started_capped (hnew : id ∉ s.ids)
    (hq : (s.registry.ticket config kind parent).queued = true) :
    (s.started config id kind parent token submitted).gate =
      { s.gate.put id ⟨s.registry.nextSeq, (s.registry.ticket config kind parent).scope,
          .waiting⟩ with arrivals := s.gate.arrivals ++ [id] } := by
  ext1
  · rw [State.started_gate_arrivals hnew, hq, if_pos rfl]
  · funext x
    rw [State.started_gate_slip, hq, if_pos rfl]
    exact (Gate.put_slip _ _).symm
  · rfl

/-- A new root arrives at the gate, if its class has a cap. -/
theorem State.gate_started (hwf : Wf config s) (hk : s.registry.Keeps s.gate)
    (hfresh : s.drivers id = none) :
    (s.started config id kind parent token submitted).registry.Keeps
        (s.started config id kind parent token submitted).gate ∧
      ((s.started config id kind parent token submitted).gate = s.gate ∨
        Gate.Step config.room s.gate (s.started config id kind parent token submitted).gate) := by
  have hnew : id ∉ s.ids := by
    intro h
    have hsome := (hwf.mem_ids id).mp h
    rw [hfresh] at hsome
    cases hsome
  have hqueues := s.registry.start_queues config id kind parent token submitted
  cases hq : (s.registry.ticket config kind parent).queued with
  | false =>
    have hgate : (s.started config id kind parent token submitted).gate = s.gate :=
      State.gate_started_uncapped hfresh hnew hq
    refine ⟨hgate ▸ hk.of_eq ?_ rfl, .inl hgate⟩
    funext scope
    refine (hqueues scope).trans ?_
    rw [if_neg (by simp [hq])]
  | true =>
    have hnone : s.gate.slip id = none := by
      change (s.drivers id).bind Driver.slip = none
      rw [hfresh, Option.bind_none]
    have hnotin : id ∉ s.gate.arrivals := fun h => hnew (List.mem_filter.mp h).1
    rw [State.gate_started_capped hnew hq]
    refine ⟨⟨fun k m => ?_, fun k => ?_⟩, .inr (.arrive hnotin ?_)⟩
    · refine Iff.trans ?_ (Gate.waiting_arrive hnone k m).symm
      rw [show (s.started config id kind parent token submitted).registry.queues k = _ from
        hqueues k, ← hk.queues]
      by_cases hs : k = (s.registry.ticket config kind parent).scope
      · rw [if_pos ⟨hq, hs⟩, Finset.mem_insert]
        simp [hs]
      · rw [if_neg (fun h => hs h.2)]
        simp [hs]
    · exact (hk.admitted k).trans (Gate.inside_arrive hnotin k).symm
    · intro j sl hj
      obtain ⟨d, hd, hsl⟩ := Option.bind_eq_some_iff.mp hj
      unfold Driver.slip at hsl
      split at hsl
      · cases hsl
        exact hwf.seq_lt hd
      · cases hsl

end

/-- **The runtime refines the gate**: every step of it is one of the gate's, or
leaves the gate as it is, and the registry's queues and counts follow. -/
theorem Stepped.gate (h : Stepped config s a s') (hwf : Wf config s)
    (hok : Gate.Ok config.room s.gate) (hk : s.registry.Keeps s.gate) :
    s'.registry.Keeps s'.gate ∧ (s'.gate = s.gate ∨ Gate.Step config.room s.gate s'.gate) := by
  cases h with
  | start hfresh hsub hlin => exact State.gate_started hwf hk hfresh
  | @drive id dm dm' op hdm hturn => exact hturn.gate hwf hok hk hdm
  | @nudge _ id dm dm' hdm hn =>
    have hgate : (s.setDriver id dm').gate = s.gate := by
      refine State.gate_eq rfl rfl fun x => ?_
      rw [State.setDriver_drivers]
      by_cases hx : x = id
      · subst hx
        rw [Function.update_self, hdm]
        exact Moved.sameSlip hn.sameStart (hn.standing (hwf.ok x dm hdm))
      · rw [Function.update_of_ne hx]
        exact ⟨rfl, rfl⟩
    exact ⟨hgate ▸ hk, .inl hgate⟩
  | notifyWaiters =>
    have hgate : ({ s.notifyWaiters with notifies := s.notifies - 1 } : State Output).gate =
        s.gate := State.gate_eq rfl rfl fun x => .wake _
    exact ⟨hgate ▸ hk, .inl hgate⟩
  | progress =>
    exact ⟨hk.of_eq (s.registry.agree_reportProgress config _ s.now _).queues
      (s.registry.agree_reportProgress config _ s.now _).admitted, .inl rfl⟩
  | flush =>
    exact ⟨hk.of_eq (s.registry.agree_flushProgress _ s.now).queues
      (s.registry.agree_flushProgress _ s.now).admitted, .inl rfl⟩
  | resources => exact ⟨hk.of_eq rfl rfl, .inl rfl⟩
  | cancel | cancelIdle | cancelAll | idle | idleStep | tick => exact ⟨hk, .inl rfl⟩

/-- The gate is in order, and the registry keeps it. -/
structure Gated (config : Config) (s : State Output) : Prop where
  ok : Gate.Ok config.room s.gate
  keeps : s.registry.Keeps s.gate

theorem Gated.init : Gated config (State.init : State Output) where
  ok := .empty
  keeps := ⟨by simp [State.init, State.gate, Registry.default],
    fun _ => by simp [State.init, State.gate, Registry.default, Gate.inside]⟩

theorem Stepped.gated (h : Stepped config s a s') (hwf : Wf config s) (hg : Gated config s) :
    Gated config s' := by
  obtain ⟨hk, hgate⟩ := h.gate hwf hg.ok hg.keeps
  refine ⟨?_, hk⟩
  rcases hgate with hgate | hgate
  · exact hgate ▸ hg.ok
  · exact hgate.ok hg.ok

theorem Reaches.gated {ok : State Output → Action Output → Prop} (h : Reaches config ok s) :
    Gated config s :=
  h.invariant_from .init fun _ _ _ hreach hg _ hstep =>
    (step_cases hstep).gated (Reaches.wf hreach) hg

/-! ### What the gate says of the drivers -/

theorem Driver.standing_eq_waiting : d.standing = .waiting ↔ d.pc.inQueue = true := by
  unfold Driver.standing
  split
  · simp_all
  · split
    · simp_all
    · split <;> simp_all

theorem Driver.standing_eq_inside : d.standing = .inside ↔ d.pc.holdsSlot = true := by
  have hdisj : d.pc.inQueue = true → d.pc.holdsSlot = false := by
    cases d.pc <;> simp [Pc.inQueue, Pc.inAdmit, Pc.holdsSlot]
  unfold Driver.standing
  split
  · simp_all
  · split
    · simp_all
    · split <;> simp_all

theorem Driver.admitted_iff (hok : d.Ok) :
    d.admitted = true ↔ d.standing = .inside ∨ d.standing = .out := by
  obtain ⟨_, hb⟩ := hok
  have hslot : d.pc.holdsSlot = true → d.admitted = true := by
    unfold Driver.admitted
    cases hpc : d.pc <;> cases hbody : d.body <;>
      simp_all [Pc.holdsSlot, Pc.afterAdmit, Body.spawned, Pc.bodyOk]
  have hqueue : d.pc.inQueue = true → d.admitted = false := by
    unfold Driver.admitted
    cases hpc : d.pc <;>
      simp_all [Pc.inQueue, Pc.inAdmit, Pc.afterAdmit, Body.spawned, Pc.bodyOk]
  unfold Driver.standing
  split
  · simp_all
  · split
    · simp_all
    · split <;> simp_all

/-- A driver that left the line unadmitted was refused. -/
theorem Driver.refused_of_left (hok : d.Ok) (h : d.standing = .left) :
    ∃ error, d.refused = some error := by
  obtain ⟨_, hb⟩ := hok
  have hadm : d.admitted = false ∧ d.pc.inQueue = false := by
    unfold Driver.standing at h
    split at h
    · cases h
    · split at h
      · cases h
      · split at h
        · cases h
        · simp_all
  obtain ⟨hadm, hinq⟩ := hadm
  simp only [Driver.admitted, Bool.or_eq_false_iff] at hadm
  obtain ⟨hspawn, hafter⟩ := hadm
  have hbody : d.body = .unspawned := by cases hbd : d.body <;> simp_all [Body.spawned]
  unfold Driver.refused
  rw [hbody] at hb ⊢
  cases hpc : d.pc <;> simp_all [Pc.refusing, Pc.bodyOk, Pc.inQueue, Pc.inAdmit, Pc.afterAdmit]
  all_goals
    obtain ⟨error, rfl⟩ := hb
    exact ⟨error, rfl⟩

theorem Driver.holdsSlot_of_bodyPending (hok : d.Ok) (h : d.bodyPending = true) :
    d.pc.holdsSlot = true := by
  obtain ⟨_, hb⟩ := hok
  unfold Driver.bodyPending at h
  cases hpc : d.pc <;> simp_all [Pc.holdsSlot, Pc.bodyOk, Body.isRunning]
  all_goals
    rcases hb with ⟨hb, _⟩ | ⟨_, hb, _⟩ <;> simp [hb] at h

theorem State.gate_slip {sl : Slip Scope} (h : s.gate.slip x = some sl) :
    ∃ d, s.drivers x = some d ∧ d.ticket.queued = true ∧
      sl = ⟨d.ticket.seq, d.ticket.scope, d.standing⟩ := by
  obtain ⟨d, hd, hsl⟩ := Option.bind_eq_some_iff.mp h
  unfold Driver.slip at hsl
  split at hsl
  · exact ⟨d, hd, ‹_›, (Option.some.inj hsl).symm⟩
  · cases hsl

theorem State.gate_slip_of (hd : s.drivers x = some d) (hq : d.ticket.queued = true) :
    s.gate.slip x = some ⟨d.ticket.seq, d.ticket.scope, d.standing⟩ := by
  change (s.drivers x).bind Driver.slip = _
  rw [hd, Option.bind_some, Driver.slip_of_queued hq]

/-- Inside the gate are the drivers that hold a slot. -/
theorem State.inside_eq_slots (s : State Output) (scope : Scope) :
    s.gate.inside scope = s.slots scope := by
  change (s.ids.filter _).countP _ = s.ids.countP _
  rw [List.countP_filter]
  refine List.countP_congr fun x _ => ?_
  change ((((s.drivers x).bind Driver.slip).any _ && _) = true) ↔ _
  cases hd : s.drivers x with
  | none => simp
  | some d =>
    rw [Option.bind_some, Driver.slip, Option.any_some, Option.any_some]
    cases hq : d.ticket.queued with
    | false => simp [Driver.holdsSlot, hq]
    | true =>
      have := d.standing_eq_inside
      cases hs : d.pc.holdsSlot <;> simp_all [Driver.holdsSlot]

/-- The roots of a class with a cap queue. -/
theorem Wf.queued_of_rootOf (hwf : Wf config s) {scope : Scope} {cap : Nat}
    (hcap : config.cap scope.1 = some cap) (hd : s.drivers x = some d)
    (hroot : d.rootOf scope = true) : d.ticket.queued = true ∧ d.ticket.scope = scope := by
  simp only [Driver.rootOf, Bool.and_eq_true, decide_eq_true_eq] at hroot
  obtain ⟨hp, hs⟩ := hroot
  refine ⟨?_, hs⟩
  rw [hwf.queued x d hd, hp, hs, hcap]
  rfl

/-- The roots that took a place are the admitted ones. -/
theorem Gated.mem_admissions (hg : Gated config s) (hwf : Wf config s)
    (hd : s.drivers x = some d) (hq : d.ticket.queued = true) :
    x ∈ s.admissions ↔ d.admitted = true := by
  rw [show s.admissions = s.gate.entered from rfl, hg.ok.entered,
    d.admitted_iff (hwf.ok x d hd)]
  constructor
  · rintro ⟨sl, hsl, hst⟩
    obtain ⟨d', hd', _, rfl⟩ := s.gate_slip hsl
    rw [hd] at hd'
    cases hd'
    exact hst
  · exact fun h => ⟨_, s.gate_slip_of hd hq, h⟩

/-- Every admitted root whose body has not ended holds a slot. -/
theorem Wf.pendingBodies_le (hwf : Wf config s) {scope : Scope} {cap : Nat}
    (hcap : config.cap scope.1 = some cap) : s.pendingBodies scope ≤ s.slots scope := by
  refine List.countP_mono_left fun x _ h => ?_
  obtain ⟨d, hd, h⟩ := (Option.any_eq_true ..).mp h
  simp only [Bool.and_eq_true] at h
  obtain ⟨hroot, hpend⟩ := h
  obtain ⟨hq, hs⟩ := hwf.queued_of_rootOf hcap hd hroot
  rw [hd, Option.any_some, Driver.holdsSlot, hq,
    Driver.holdsSlot_of_bodyPending (hwf.ok x d hd) hpend, hs]
  simp

/-- **The admission cap, and the order of the line.**  In every state of every
run and for every scope whose class has a cap: no more admitted roots have a
body that has not ended than the cap allows; `admitted` counts the live slots,
so giving one back never saturates; roots took their places in the order they
were submitted; and one that was submitted before an admitted root was admitted
too, or was refused and has left the queue. -/
theorem admission_capped_and_in_order (h : Reaches config anyRun s) {scope : Scope} {cap : Nat}
    (hcap : config.cap scope.1 = some cap) :
    s.pendingBodies scope ≤ cap ∧
    s.registry.admitted scope = s.slots scope ∧
    (∀ x d, s.drivers x = some d → d.holdsSlot = true → d.ticket.scope = scope →
      0 < s.registry.admitted scope) ∧
    (∀ x d, s.drivers x = some d → d.rootOf scope = true →
      (x ∈ s.admissions ↔ d.admitted = true)) ∧
    (s.admissions.Pairwise fun x y => ∀ dx dy, s.drivers x = some dx → s.drivers y = some dy →
      dx.rootOf scope = true → dy.rootOf scope = true → dx.ticket.seq < dy.ticket.seq) ∧
    (∀ x y dx dy, s.drivers x = some dx → s.drivers y = some dy → dx.rootOf scope = true →
      dy.rootOf scope = true → dx.ticket.seq < dy.ticket.seq → y ∈ s.admissions →
      x ∈ s.admissions ∨ dx.inQueue = false ∧ dx.admitted = false ∧
        ∃ error, dx.refused = some error ∧ Refusal s dx.token error) := by
  have hwf := h.wf
  have hg := h.gated
  have hadm : s.registry.admitted scope = s.slots scope :=
    (hg.keeps.admitted scope).trans (s.inside_eq_slots scope)
  refine ⟨?_, hadm, ?_, ?_, ?_, ?_⟩
  · refine Nat.le_trans (hwf.pendingBodies_le hcap) ?_
    rw [← s.inside_eq_slots]
    exact hg.ok.room scope cap hcap
  · intro x d hd hslot hs
    rw [hadm]
    refine List.countP_pos_iff.mpr ⟨x, (hwf.mem_ids x).mpr (by rw [hd]; rfl), ?_⟩
    simp [hd, hslot, hs]
  · intro x d hd hroot
    exact hg.mem_admissions hwf hd (hwf.queued_of_rootOf hcap hd hroot).1
  · refine hg.ok.order.imp fun {x y} hlt dx dy hdx hdy hrx hry => ?_
    obtain ⟨hqx, hsx⟩ := hwf.queued_of_rootOf hcap hdx hrx
    obtain ⟨hqy, hsy⟩ := hwf.queued_of_rootOf hcap hdy hry
    exact hlt _ _ (s.gate_slip_of hdx hqx) (s.gate_slip_of hdy hqy) (hsx.trans hsy.symm)
  · intro x y dx dy hdx hdy hrx hry hlt hy
    obtain ⟨hqx, hsx⟩ := hwf.queued_of_rootOf hcap hdx hrx
    obtain ⟨hqy, hsy⟩ := hwf.queued_of_rootOf hcap hdy hry
    have hokx := hwf.ok x dx hdx
    cases hst : dx.standing with
    | inside | out =>
      exact .inl ((hg.mem_admissions hwf hdx hqx).mpr ((dx.admitted_iff hokx).mpr (by simp [hst])))
    | waiting =>
      -- whoever is still in line came after everyone who has entered
      have := hg.ok.behind y hy x _ _ (s.gate_slip_of hdy hqy) (s.gate_slip_of hdx hqx)
        (hsy.trans hsx.symm) hst
      simp only at this
      omega
    | left =>
      obtain ⟨error, herror⟩ := Driver.refused_of_left hokx hst
      refine .inr ⟨?_, ?_, error, herror, h.refusal hdx herror⟩
      · have hinq : dx.pc.inQueue = false := by
          have := dx.standing_eq_waiting
          simp_all
        simp [Driver.inQueue, hinq]
      · have := dx.admitted_iff hokx
        simp_all

/-- A kind that requires no resource. -/
def plainKind (admission : AdmissionClass) : TaskKind := ⟨⟨"list", [], admission⟩, []⟩

/-- Two background roots: the first takes the one place there is, and the second
goes to sleep. -/
def twoBackgroundRoots : State Nat :=
  State.init.run .default anyRun
    [.submit ⟨1⟩ (plainKind .background) 0, .submit ⟨2⟩ (plainKind .background) 0,
      .drive ⟨2⟩, .drive ⟨2⟩, .drive ⟨2⟩, .drive ⟨1⟩, .drive ⟨1⟩, .drive ⟨1⟩]

theorem second_background_root_waits :
    twoBackgroundRoots.admissions = [⟨1⟩] ∧
    twoBackgroundRoots.pendingBodies (.background, none) ≤ 1 ∧
    twoBackgroundRoots.registry.admitted (.background, none) =
      twoBackgroundRoots.slots (.background, none) := by
  have hr : Reaches .default anyRun twoBackgroundRoots := State.steps_run _ _ _ _
  have hcap : Config.default.cap ((.background, none) : Scope).1 = some 1 := rfl
  have h := admission_capped_and_in_order hr hcap
  exact ⟨by decide, h.1, h.2.1⟩

end FilePeeker
