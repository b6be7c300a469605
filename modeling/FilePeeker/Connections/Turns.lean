import FilePeeker.Connections.Client

/-!
# What a step of a call comes to

What every step of the calls preserves is told from one inversion (`turns_of_perform`): a call
goes on by itself, gives up a server, asks for a lock, gets it, takes slots out of the
registry, empties them one after the other, or is dropped (`Drops`).  Asking for a lock,
leaving it and letting go of a slot touch nothing but the slots, and who was told to stop
(`Framed`).
-/

namespace FilePeeker.Connections

variable {κ : Type}

/-- A call goes on by itself. -/
inductive Party.Goes : Op κ → Party κ → Party κ → Prop
  | startFailed {location : ServerLocation} {error : IoError} :
      Goes (.startFailed error) (.opening location) (.ended (.failed error))
  | connected {server : Nat} : Goes .connected (.connecting server) (.inserting server)
  | discarded : Goes .discarded .discarding (.ended (.failed duplicateUuid))
  | unknown {id : κ} : Goes .look (.looking id) (.ended (.failed connectionClosed))
  | unregistered {id : κ} : Goes .remove (.removing id) (.ended (.closed (.ok ())))

/-- A call gives up the server it has to itself. -/
inductive Party.GivesUp (server : Nat) : Op κ → Party κ → Party κ → Prop
  | connectFailed {error : IoError} :
      GivesUp server (.connectFailed error) (.connecting server) (.ended (.failed error))
  | duplicate {id : κ} : GivesUp server (.insert id) (.inserting server) .discarding

/-- A call asks for the lock of a slot it has. -/
inductive Party.Asks (s : Nat) : Access → Party κ → Party κ → Prop
  | read : Asks s .read (.found s) (.waiting s)
  | write {rest : List Nat} {firstError : Option IoError} :
      Asks s .write (.approaching s rest firstError) (.emptying s rest firstError)

namespace World

variable [DecidableEq κ] {w w' w'' : World κ} {i : Nat} {p : Party κ} {op : Op κ}

/-! ### What the operations on slots leave as it is -/

/-- All but the slots, and who was told to stop, is as it was. -/
structure Framed (w w' : World κ) : Prop where
  connections : w'.connections = w.connections
  parties : w'.parties = w.parties
  started : w'.started = w.started
  lost : w'.lost = w.lost
  taken : w'.taken = w.taken
  closed : w'.closed = w.closed

theorem Framed.refl (w : World κ) : Framed w w := ⟨rfl, rfl, rfl, rfl, rfl, rfl⟩

theorem Framed.trans (h : Framed w w') (h' : Framed w' w'') : Framed w w'' where
  connections := h'.connections.trans h.connections
  parties := h'.parties.trans h.parties
  started := h'.started.trans h.started
  lost := h'.lost.trans h.lost
  taken := h'.taken.trans h.taken
  closed := h'.closed.trans h.closed

theorem ask_framed (w : World κ) (s i : Nat) (a : Access) : Framed w (w.ask s i a) := by
  unfold ask
  split
  · exact .refl w
  · exact ⟨rfl, rfl, rfl, rfl, rfl, rfl⟩

theorem leave_framed (w : World κ) (s i : Nat) : Framed w (w.leave s i) := by
  unfold leave
  split
  · exact .refl w
  · exact ⟨rfl, rfl, rfl, rfl, rfl, rfl⟩

theorem letGo_framed (w : World κ) (s : Nat) : Framed w (w.letGo s) := by
  unfold letGo
  split
  · split
    · exact .refl w
    · exact ⟨rfl, rfl, rfl, rfl, rfl, rfl⟩
  · exact .refl w

theorem letAllGo_framed (slots : List Nat) (w : World κ) : Framed w (w.letAllGo slots) := by
  induction slots generalizing w with
  | nil => exact .refl w
  | cons s slots ih => exact (letGo_framed w s).trans (ih (w.letGo s))

/-! ### The inversion -/

/-- What is left of the world when a call is dropped. -/
inductive Drops (w : World κ) (i : Nat) : Party κ → World κ → Prop
  | kills {server : Nat} (hssh : w.started[server]? = some .ssh) :
      Drops w i (.connecting server) ((w.setParty i (.ended .dropped)).stop server .kill)
  | loses {server : Nat} (hhere : w.started[server]? ≠ some .ssh) : Drops w i (.connecting server)
      { w.setParty i (.ended .dropped) with lost := w.lost ++ [server] }
  | aborts {server : Nat} :
      Drops w i (.inserting server) ((w.setParty i (.ended .dropped)).stop server .abort)
  /-- Out of the line for a lock, or with its guard. -/
  | leaves {p : Party κ} {s : Nat} (hand : p.inHand = none) (hs : s ∈ p.slots)
      (hplace : ∀ t, t ≠ s → p.place t = none) :
      Drops w i p (((w.setParty i (.ended .dropped)).leave s i).letAllGo p.slots)
  | letsGo {p : Party κ} (hand : p.inHand = none) (hplace : ∀ s, p.place s = none) :
      Drops w i p ((w.setParty i (.ended .dropped)).letAllGo p.slots)

theorem drops_dropped (w : World κ) (i : Nat) (p : Party κ) : Drops w i p (w.dropped i p) := by
  have hne {s t : Nat} {place : LockPlace} (ht : t ≠ s) :
      (if s = t then some place else none) = none := if_neg (Ne.symm ht)
  unfold dropped
  cases p with
  | connecting server =>
    dsimp only
    split
    · next hssh => exact .kills hssh
    · next hhere => exact .loses hhere
  | inserting server => exact .aborts
  | waiting s | holding s => exact .leaves rfl (List.mem_singleton_self s) fun _ ht => hne ht
  | emptying s rest firstError => exact .leaves rfl List.mem_cons_self fun _ ht => hne ht
  | found s => exact .letsGo (p := .found s) rfl fun _ => rfl
  | approaching s rest firstError =>
    exact .letsGo (p := .approaching s rest firstError) rfl fun _ => rfl
  | stopping s rest firstError =>
    exact .letsGo (p := .stopping s rest firstError) rfl fun _ => rfl
  | opening location => exact .letsGo (p := .opening location) rfl fun _ => rfl
  | looking id => exact .letsGo (p := .looking id) rfl fun _ => rfl
  | removing id => exact .letsGo (p := .removing id) rfl fun _ => rfl
  | ended outcome => exact .letsGo (p := .ended outcome) rfl fun _ => rfl
  | discarding => exact .letsGo (p := .discarding) rfl fun _ => rfl
  | draining => exact .letsGo (p := .draining) rfl fun _ => rfl

/-- What a step of a call comes to. -/
inductive Turns (w : World κ) (i : Nat) : Op κ → World κ → Prop
  | goes {op : Op κ} {p q : Party κ} (hp : w.parties[i]? = some p) (hgoes : Party.Goes op p q) :
      Turns w i op (w.setParty i q)
  | starts {location : ServerLocation} (hp : w.parties[i]? = some (.opening location)) :
      Turns w i .started
        ({ w with started := w.started ++ [location] }.setParty i (.connecting w.started.length))
  | givesUp {op : Op κ} {p q : Party κ} {server : Nat} {how : Stop}
      (hp : w.parties[i]? = some p) (hgives : Party.GivesUp server op p q) :
      Turns w i op ((w.stop server how).setParty i q)
  | registers {server : Nat} {id : κ} (hp : w.parties[i]? = some (.inserting server))
      (hfree : w.connections.lookup id = none) :
      Turns w i (.insert id) ((w.register id server).setParty i (.ended (.opened id)))
  | finds {id : κ} {s : Nat} (hp : w.parties[i]? = some (.looking id))
      (hs : w.connections.lookup id = some s) : Turns w i .look (w.setParty i (.found s))
  | asks {s : Nat} {access : Access} {p q : Party κ} (hp : w.parties[i]? = some p)
      (hasks : Party.Asks s access p q) : Turns w i .ask ((w.ask s i access).setParty i q)
  | acquires {s : Nat} {slot : Slot} {lock : RwLock Nat} {server : Nat}
      (hp : w.parties[i]? = some (.waiting s)) (hs : w.slots[s]? = some slot)
      (hlock : slot.lock.enter i = some lock) (hc : slot.connection = some server) :
      Turns w i .acquire ((w.setSlot s { slot with lock }).setParty i (.holding s))
  | refused {s : Nat} {slot : Slot} {lock : RwLock Nat} (hp : w.parties[i]? = some (.waiting s))
      (hs : w.slots[s]? = some slot) (hlock : slot.lock.enter i = some lock)
      (hc : slot.connection = none) : Turns w i .acquire
        ((w.setSlot s { slot with lock := lock.leave i }).setParty i
          (.ended (.failed connectionClosed)))
  | releases {s : Nat} (hp : w.parties[i]? = some (.holding s)) :
      Turns w i .release (((w.leave s i).setParty i (.ended .served)).letGo s)
  | removes {id : κ} {s : Nat} (hp : w.parties[i]? = some (.removing id))
      (hs : w.connections.lookup id = some s) : Turns w i .remove
        ({ w with
            connections := w.connections.erase id
            taken := w.taken ++ [(i, [s])] }.setParty i (.next [s] none))
  | drains {order : List Nat} (hp : w.parties[i]? = some .draining)
      (hperm : order.Perm w.connections.values) : Turns w i (.drain order)
        ({ w with connections := ∅, taken := w.taken ++ [(i, order)] }.setParty i
          (.next order none))
  | empties {s : Nat} {rest : List Nat} {firstError : Option IoError} {slot : Slot}
      {lock : RwLock Nat} {server : Nat}
      (hp : w.parties[i]? = some (.emptying s rest firstError)) (hs : w.slots[s]? = some slot)
      (hlock : slot.lock.pass i = some lock) (hc : slot.connection = some server) :
      Turns w i .take (((w.setSlot s ⟨none, lock⟩).stop server .shutdown).setParty i
        (.stopping s rest firstError))
  | findsEmpty {s : Nat} {rest : List Nat} {firstError : Option IoError} {slot : Slot}
      {lock : RwLock Nat} (hp : w.parties[i]? = some (.emptying s rest firstError))
      (hs : w.slots[s]? = some slot) (hlock : slot.lock.pass i = some lock)
      (hc : slot.connection = none) :
      Turns w i .take ((w.setSlot s ⟨none, lock⟩).closedSlot i s rest firstError (.ok ()))
  | closes {s : Nat} {rest : List Nat} {firstError : Option IoError}
      {result : Except IoError Unit} (hp : w.parties[i]? = some (.stopping s rest firstError)) :
      Turns w i (.stopped result) (w.closedSlot i s rest firstError result)
  | drops {p : Party κ} {w' : World κ} (hp : w.parties[i]? = some p)
      (hgoing : ∀ outcome, p ≠ .ended outcome) (hdrops : Drops w i p w') : Turns w i .drop w'

theorem turns_of_perform (hstep : w.perform i op = some w') : Turns w i op w' := by
  unfold perform at hstep
  split at hstep
  -- An open.
  · next hp =>
    cases hstep
    exact .goes hp .startFailed
  · next hp =>
    cases hstep
    exact .starts hp
  · next hp =>
    cases hstep
    exact .givesUp hp .connectFailed
  · next hp =>
    cases hstep
    exact .goes hp .connected
  · next hp =>
    split at hstep <;> cases hstep
    · next hfree => exact .registers hp hfree
    · exact .givesUp hp .duplicate
  · next hp =>
    cases hstep
    exact .goes hp .discarded
  -- A request.
  · next hp =>
    split at hstep <;> cases hstep
    · exact .goes hp .unknown
    · next hs => exact .finds hp hs
  · next hp =>
    cases hstep
    exact .asks hp .read
  · next hp =>
    split at hstep
    · cases hstep
    · next hs =>
      obtain ⟨lock, hlock, rfl⟩ := Option.map_eq_some_iff.mp hstep
      split
      · next hc => exact .acquires hp hs hlock hc
      · next hc => exact .refused hp hs hlock hc
  · next hp =>
    cases hstep
    exact .releases hp
  -- A close, and a `close_all`.
  · next hp =>
    split at hstep <;> cases hstep
    · exact .goes hp .unregistered
    · next hs => exact .removes hp hs
  · next hp =>
    split at hstep <;> cases hstep
    next hperm => exact .drains hp hperm
  · next hp =>
    cases hstep
    exact .asks hp .write
  · next hp =>
    split at hstep
    · cases hstep
    · next hs =>
      obtain ⟨lock, hlock, rfl⟩ := Option.map_eq_some_iff.mp hstep
      split
      · next hc => exact .findsEmpty hp hs hlock hc
      · next hc => exact .empties hp hs hlock hc
  · next hp =>
    cases hstep
    exact .closes hp
  -- A call is dropped.
  · cases hstep
  · next hgoing hp =>
    cases hstep
    exact .drops hp hgoing (drops_dropped w i _)
  · cases hstep

end World

end FilePeeker.Connections
