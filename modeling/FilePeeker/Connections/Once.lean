import FilePeeker.Connections.Turns
import FilePeeker.Lib.Count

/-!
# Every server once

A server that was started is in one place: with the call that opens it, in a slot, among
those that were told to stop, or lost.  Every step moves it from one of them to another
(`conserved_of_step`), so that no server is told to stop twice and none is forgotten
(`conserved_of_run`).
-/

namespace FilePeeker.Connections

variable {κ : Type} [DecidableEq κ] {w w' : World κ} {i : Nat} {p q : Party κ}
  {s n : Nat} {slot slot' : Slot}

/-- One, for the server a place is for. -/
def tally (place : Option Nat) (n : Nat) : Nat := if place = some n then 1 else 0

@[simp] theorem tally_none : tally none n = 0 := rfl

omit [DecidableEq κ] in
/-- A call that closes slots has no server to itself. -/
theorem Party.next_inHand (slots : List Nat) (firstError : Option IoError) :
    (Party.next slots firstError : Party κ).inHand = none := by
  cases slots <;> rfl

namespace World

/-- How many places a server is in. -/
def copies (w : World κ) (n : Nat) : Nat :=
  w.parties.countP (·.inHand == some n) + w.slots.countP (·.connection == some n) +
    w.stops.countP (·.1 == n) + w.lost.count n

/-- A server that was started is in one place, and no other server is anywhere. -/
def Conserved (w : World κ) : Prop :=
  ∀ n, w.copies n = if n < w.started.length then 1 else 0

/-! ### What the parts of a step do to the copies -/

theorem copies_setParty (hp : w.parties[i]? = some p) (q : Party κ) (n : Nat) :
    (w.setParty i q).copies n + tally p.inHand n = w.copies n + tally q.inHand n := by
  have h := countP_set_add (p := fun p => p.inHand == some n) (b := q) hp
  simp only [beq_iff_eq] at h
  simp only [copies, setParty, tally]
  omega

theorem copies_setParty_same (hp : w.parties[i]? = some p) (hand : q.inHand = p.inHand)
    (n : Nat) : (w.setParty i q).copies n = w.copies n := by
  have := copies_setParty hp q n
  rw [hand] at this
  omega

theorem copies_setSlot (hs : w.slots[s]? = some slot) (slot' : Slot) (n : Nat) :
    (w.setSlot s slot').copies n + tally slot.connection n =
      w.copies n + tally slot'.connection n := by
  have h := countP_set_add (p := fun slot => slot.connection == some n) (b := slot') hs
  simp only [beq_iff_eq] at h
  simp only [copies, setSlot, tally]
  omega

theorem copies_stop (w : World κ) (m : Nat) (how : Stop) (n : Nat) :
    (w.stop m how).copies n = w.copies n + tally (some m) n := by
  simp only [copies, stop, tally, List.countP_append, List.countP_singleton, beq_iff_eq,
    Option.some.injEq]
  omega

theorem copies_lost (w : World κ) (m n : Nat) :
    { w with lost := w.lost ++ [m] }.copies n = w.copies n + tally (some m) n := by
  simp only [copies, tally, List.count_append, List.count_singleton, beq_iff_eq,
    Option.some.injEq]
  omega

theorem copies_setSlot_same (hs : w.slots[s]? = some slot)
    (hc : slot'.connection = slot.connection) (n : Nat) :
    (w.setSlot s slot').copies n = w.copies n := by
  have := copies_setSlot hs slot' n
  rw [hc] at this
  omega

@[simp] theorem copies_ask (w : World κ) (s : Nat) (i : Nat) (a : Access) (n : Nat) :
    (w.ask s i a).copies n = w.copies n := by
  unfold ask
  split
  · rfl
  · rename_i slot hs
    exact copies_setSlot_same hs (by rfl) n

@[simp] theorem copies_leave (w : World κ) (s : Nat) (i : Nat) (n : Nat) :
    (w.leave s i).copies n = w.copies n := by
  unfold leave
  split
  · rfl
  · rename_i slot hs
    exact copies_setSlot_same hs (by rfl) n

/-- A connection that is dropped with its slot has its server stopped. -/
@[simp] theorem copies_letGo (w : World κ) (s : Nat) (n : Nat) :
    (w.letGo s).copies n = w.copies n := by
  unfold letGo
  split
  · rename_i server lock hs
    split
    · rfl
    · have := copies_setSlot hs ⟨none, lock⟩ n
      rw [copies_stop]
      simp only [tally_none] at this
      omega
  · rfl

@[simp] theorem copies_letAllGo (slots : List Nat) (w : World κ) (n : Nat) :
    (w.letAllGo slots).copies n = w.copies n := by
  induction slots generalizing w with
  | nil => rfl
  | cons s slots ih => exact (ih (w.letGo s)).trans (copies_letGo w s n)

theorem copies_register (w : World κ) (id : κ) (m n : Nat) :
    (w.register id m).copies n = w.copies n + tally (some m) n := by
  simp only [copies, register, tally, List.countP_append, List.countP_singleton, beq_iff_eq]
  omega

/-- What a call had to itself is stopped or lost with it. -/
theorem copies_drops (hp : w.parties[i]? = some p) (hdrops : Drops w i p w') (n : Nat) :
    w'.copies n = w.copies n := by
  have h := copies_setParty hp (.ended .dropped) n
  simp only [show (Party.ended Outcome.dropped : Party κ).inHand = none from rfl,
    tally_none] at h
  cases hdrops with
  | kills =>
    simp only [Party.inHand] at h
    rw [copies_stop]
    omega
  | loses =>
    simp only [Party.inHand] at h
    exact (copies_lost (w.setParty i (.ended .dropped)) _ _).trans (by omega)
  | aborts =>
    simp only [Party.inHand] at h
    rw [copies_stop]
    omega
  | leaves hand =>
    rw [copies_letAllGo, copies_leave]
    simpa [hand] using h
  | letsGo hand =>
    rw [copies_letAllGo]
    simpa [hand] using h

theorem drops_started (hdrops : Drops w i p w') : w'.started = w.started := by
  cases hdrops with
  | kills | loses | aborts => rfl
  | leaves => exact (letAllGo_framed _ _).started.trans (leave_framed _ _ _).started
  | letsGo => exact (letAllGo_framed _ _).started

/-! ### A step, and a run -/

/-- What a step of a call leaves as it was: how many servers there are, and where they are. -/
theorem conserved_of_same (h : w.Conserved) (hstarted : w'.started = w.started)
    (hcopies : ∀ n, w'.copies n = w.copies n) : w'.Conserved := fun n => by
  rw [hcopies, hstarted, h n]

theorem conserved_of_setParty (h : w.Conserved) (hp : w.parties[i]? = some p)
    (hand : q.inHand = p.inHand) : (w.setParty i q).Conserved :=
  conserved_of_same h rfl (copies_setParty_same hp hand)

/-- A server that a call had to itself is told to stop. -/
theorem conserved_of_stop (h : w.Conserved) (hp : w.parties[i]? = some p)
    (hand : p.inHand = some n) (how : Stop) (hq : q.inHand = none) :
    ((w.stop n how).setParty i q).Conserved := by
  refine conserved_of_same h rfl fun m => ?_
  have hp' : (w.stop n how).parties[i]? = some p := hp
  have := copies_setParty hp' q m
  rw [hand, hq, tally_none, copies_stop] at this
  omega

theorem conserved_of_turns (h : w.Conserved) {op : Op κ} (hturns : Turns w i op w') :
    w'.Conserved := by
  cases hturns with
  | goes hp hgoes => cases hgoes <;> exact conserved_of_setParty h hp rfl
  | starts hp =>
    rename_i location
    intro n
    have hp' : { w with started := w.started ++ [location] }.parties[i]? =
        some (.opening location) := hp
    have hc := copies_setParty hp' (.connecting w.started.length) n
    have hw : { w with started := w.started ++ [location] }.copies n = w.copies n := rfl
    rw [hw, h n] at hc
    simp only [Party.inHand, tally, reduceCtorEq, if_false, Option.some.injEq] at hc
    have hlen : ∀ q, ({ w with started := w.started ++ [location] }.setParty i q).started.length =
        w.started.length + 1 := fun q => List.length_append
    rw [hlen]
    split at hc <;> split at hc <;> split <;> omega
  | givesUp hp hgives => cases hgives <;> exact conserved_of_stop h hp rfl _ rfl
  | @registers server id hp =>
    refine conserved_of_same h rfl fun n => ?_
    have hp' : (w.register id server).parties[i]? = some (.inserting server) := hp
    have hc := copies_setParty hp' (.ended (.opened id)) n
    rw [copies_register] at hc
    simpa [Party.inHand] using hc
  | finds hp => exact conserved_of_setParty h hp rfl
  | @asks s access p q hp hasks =>
    have h' : (w.ask s i access).Conserved :=
      conserved_of_same h (ask_framed w s i access).started (copies_ask w s i access)
    have hp' : (w.ask s i access).parties[i]? = some p := by
      rw [(ask_framed w s i access).parties, hp]
    refine conserved_of_setParty h' hp' ?_
    cases hasks <;> rfl
  | acquires hp hs =>
    exact conserved_of_setParty (conserved_of_same h rfl (copies_setSlot_same hs rfl)) hp rfl
  | refused hp hs =>
    exact conserved_of_setParty (conserved_of_same h rfl (copies_setSlot_same hs rfl)) hp rfl
  | @releases s hp =>
    have hleft : (w.leave s i).Conserved :=
      conserved_of_same h (leave_framed w s i).started (copies_leave w s i)
    have hp' : (w.leave s i).parties[i]? = some (.holding s) := by
      rw [(leave_framed w s i).parties, hp]
    have hserved : ((w.leave s i).setParty i (.ended .served)).Conserved :=
      conserved_of_setParty hleft hp' rfl
    exact conserved_of_same hserved (letGo_framed _ _).started (copies_letGo _ _)
  | @removes id s hp =>
    have h' : { w with
        connections := w.connections.erase id
        taken := w.taken ++ [(i, [s])] }.Conserved := conserved_of_same h rfl fun _ => rfl
    exact conserved_of_setParty h' hp (Party.next_inHand _ _)
  | @drains order hp =>
    have h' : { w with connections := ∅, taken := w.taken ++ [(i, order)] }.Conserved :=
      conserved_of_same h rfl fun _ => rfl
    exact conserved_of_setParty h' hp (Party.next_inHand _ _)
  | @empties s rest firstError slot lock server hp hs _ hc =>
    refine conserved_of_setParty (conserved_of_same h rfl fun n => ?_) hp rfl
    have hcopies := copies_setSlot hs ⟨none, lock⟩ n
    rw [copies_stop]
    rw [hc] at hcopies
    simpa using hcopies
  | @findsEmpty s rest firstError slot lock hp hs _ hc =>
    have h' : { w.setSlot s ⟨none, lock⟩ with
        closed := w.closed ++ [(i, s, Except.ok ())] }.Conserved :=
      conserved_of_same h rfl (copies_setSlot_same hs hc.symm)
    exact conserved_of_setParty h' hp (Party.next_inHand _ _)
  | @closes s rest firstError result hp =>
    have h' : { w with closed := w.closed ++ [(i, s, result)] }.Conserved :=
      conserved_of_same h rfl fun _ => rfl
    exact conserved_of_setParty h' hp (Party.next_inHand _ _)
  | drops hp _ hdrops => exact conserved_of_same h (drops_started hdrops) (copies_drops hp hdrops)

theorem conserved_of_step (h : w.Conserved) {a : Action κ} (hstep : w.step a = some w') :
    w'.Conserved := by
  cases a with
  | call call =>
    cases hstep
    refine conserved_of_same h rfl fun n => ?_
    have : call.party.inHand = none := by cases call <;> rfl
    simp [copies, this]
  | perform i op => exact conserved_of_turns h (turns_of_perform hstep)

theorem conserved_start : (start : World κ).Conserved := fun n => by
  simp [copies, start]

theorem conserved_of_run (hrun : Steps World.step (fun _ _ => True) (start : World κ) w) :
    w.Conserved :=
  hrun.invariant (I := World.Conserved) (fun _ _ _ h _ hstep => conserved_of_step h hstep)
    conserved_start

end World

end FilePeeker.Connections
