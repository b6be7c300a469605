import FilePeeker.Connections.Stops

/-!
# What `close_all` returns

A `close_all` takes every slot there is out of the registry and empties one after the other,
whatever the earlier ones came to: when it returns, every one of them is empty, and what it
returns is the first error (`close_all_closes_all`).  `Turn` says what a step does to a call
that closes; from it come the invariant `Logged` and that a call takes slots once.
-/

namespace FilePeeker.Connections

variable {κ : Type} [DecidableEq κ] {w w' u : World κ} {i j : Nat} {p q : Party κ}
  {s : Nat} {slots rest : List Nat} {firstError : Option IoError}

/-- The first error of a list of results. -/
def firstErrorOf : List (Except IoError Unit) → Option IoError
  | [] => none
  | .ok () :: results => firstErrorOf results
  | .error error :: _ => some error

theorem firstErrorOf_concat (results : List (Except IoError Unit)) (r : Except IoError Unit) :
    firstErrorOf (results ++ [r]) = keepFirst (firstErrorOf results) r := by
  induction results with
  | nil => cases r <;> rfl
  | cons x results ih =>
    cases x with
    | ok _ => exact ih
    | error error => cases r <;> rfl

/-- Not in a loop over slots, and not at its end. -/
def Party.plain : Party κ → Bool
  | .approaching .. | .emptying .. | .stopping .. | .ended (.closed _) => false
  | _ => true

namespace World

theorem drops_log (hdrops : Drops w i p w') : w'.taken = w.taken ∧ w'.closed = w.closed ∧
    w'.parties = w.parties.set i (.ended .dropped) := by
  cases hdrops with
  | kills | loses | aborts => exact ⟨rfl, rfl, rfl⟩
  | @leaves _ s =>
    have hframed := (leave_framed (w.setParty i (.ended .dropped)) s i).trans
      (letAllGo_framed p.slots _)
    exact ⟨hframed.taken, hframed.closed, hframed.parties⟩
  | letsGo =>
    have hframed := letAllGo_framed p.slots (w.setParty i (.ended .dropped))
    exact ⟨hframed.taken, hframed.closed, hframed.parties⟩

/-- What a step of a call is, for who asks what it closes: of the world before and after, and
the call before and after. -/
inductive Turn (w w' : World κ) (i : Nat) : Party κ → Party κ → Prop
  | goesOn {p q : Party κ} (hp : p.plain) (hq : q.plain) (htaken : w'.taken = w.taken)
      (hclosed : w'.closed = w.closed) : Turn w w' i p q
  | dropped {p : Party κ} (htaken : w'.taken = w.taken) (hclosed : w'.closed = w.closed) :
      Turn w w' i p (.ended .dropped)
  | unknown {id : κ} (htaken : w'.taken = w.taken) (hclosed : w'.closed = w.closed) :
      Turn w w' i (.removing id) (.ended (.closed (.ok ())))
  | takes {p : Party κ} {slots : List Nat} (hp : p.plain)
      (htaken : w'.taken = w.taken ++ [(i, slots)]) (hclosed : w'.closed = w.closed) :
      Turn w w' i p (.next slots none)
  | asks {s : Nat} {rest : List Nat} {firstError : Option IoError}
      (htaken : w'.taken = w.taken) (hclosed : w'.closed = w.closed) :
      Turn w w' i (.approaching s rest firstError) (.emptying s rest firstError)
  | empties {s : Nat} {rest : List Nat} {firstError : Option IoError}
      (htaken : w'.taken = w.taken) (hclosed : w'.closed = w.closed) (hs : w'.Emptied s) :
      Turn w w' i (.emptying s rest firstError) (.stopping s rest firstError)
  | closes {p : Party κ} {s : Nat} {rest : List Nat} {firstError : Option IoError}
      {result : Except IoError Unit}
      (hp : p = .emptying s rest firstError ∨ p = .stopping s rest firstError)
      (htaken : w'.taken = w.taken) (hclosed : w'.closed = w.closed ++ [(i, s, result)])
      (hs : p = .emptying s rest firstError → w'.Emptied s) :
      Turn w w' i p (.next rest (keepFirst firstError result))

theorem turn_of_turns {op : Op κ} (hturns : Turns w i op w') :
    ∃ p q, w.parties[i]? = some p ∧ w'.parties = w.parties.set i q ∧ Turn w w' i p q := by
  cases hturns with
  | @goes _ p q hp hgoes =>
    refine ⟨p, q, hp, rfl, ?_⟩
    cases hgoes with
    | unregistered => exact .unknown rfl rfl
    | startFailed | connected | discarded | unknown => exact .goesOn rfl rfl rfl rfl
  | starts hp => exact ⟨_, _, hp, rfl, .goesOn rfl rfl rfl rfl⟩
  | @givesUp _ p q _ _ hp hgives =>
    refine ⟨p, q, hp, rfl, ?_⟩
    cases hgives <;> exact .goesOn rfl rfl rfl rfl
  | registers hp => exact ⟨_, _, hp, rfl, .goesOn rfl rfl rfl rfl⟩
  | finds hp => exact ⟨_, _, hp, rfl, .goesOn rfl rfl rfl rfl⟩
  | @asks s access p q hp hasks =>
    have hframed := ask_framed w s i access
    refine ⟨p, q, hp, congrArg (List.set · i q) hframed.parties, ?_⟩
    cases hasks with
    | read => exact .goesOn rfl rfl hframed.taken hframed.closed
    | write => exact .asks hframed.taken hframed.closed
  | acquires hp => exact ⟨_, _, hp, rfl, .goesOn rfl rfl rfl rfl⟩
  | refused hp => exact ⟨_, _, hp, rfl, .goesOn rfl rfl rfl rfl⟩
  | @releases s hp =>
    have hleft := leave_framed w s i
    have hgone := letGo_framed ((w.leave s i).setParty i (.ended .served)) s
    refine ⟨_, .ended .served, hp, ?_, .goesOn rfl rfl (hgone.taken.trans hleft.taken)
      (hgone.closed.trans hleft.closed)⟩
    exact hgone.parties.trans (congrArg (List.set · i _) hleft.parties)
  | removes hp => exact ⟨_, _, hp, rfl, .takes rfl rfl rfl⟩
  | drains hp => exact ⟨_, _, hp, rfl, .takes rfl rfl rfl⟩
  | empties hp hs => exact ⟨_, _, hp, rfl, .empties rfl rfl (emptied_setSlot_self hs)⟩
  | findsEmpty hp hs =>
    exact ⟨_, _, hp, rfl, .closes (.inl rfl) rfl rfl fun _ => emptied_setSlot_self hs⟩
  | closes hp => exact ⟨_, _, hp, rfl, .closes (.inr rfl) rfl rfl nofun⟩
  | drops hp _ hdrops =>
    obtain ⟨htaken, hclosed, hparties⟩ := drops_log hdrops
    exact ⟨_, _, hp, hparties, .dropped htaken hclosed⟩

/-! ### What a call took, and what it closed -/

/-- The slots a call took out of the registry. -/
def takenBy (w : World κ) (i : Nat) : List Nat := (w.taken.filter (·.1 == i)).flatMap (·.2)

/-- What `close_slot` returned to a call, slot by slot. -/
def closedBy (w : World κ) (i : Nat) : List (Nat × Except IoError Unit) :=
  (w.closed.filter (·.1 == i)).map (·.2)

theorem takenBy_concat (h : w'.taken = w.taken ++ [(i, slots)]) (j : Nat) :
    w'.takenBy j = w.takenBy j ++ if j = i then slots else [] := by
  simp only [takenBy, h, List.filter_append, List.flatMap_append]
  by_cases hj : j = i
  · simp [hj]
  · simp [hj, Ne.symm hj]

theorem closedBy_concat {result : Except IoError Unit}
    (h : w'.closed = w.closed ++ [(i, s, result)]) (j : Nat) :
    w'.closedBy j = w.closedBy j ++ if j = i then [(s, result)] else [] := by
  simp only [closedBy, h, List.filter_append, List.map_append]
  by_cases hj : j = i
  · simp [hj]
  · simp [hj, Ne.symm hj]

theorem takenBy_of_eq (h : w'.taken = w.taken) (j : Nat) : w'.takenBy j = w.takenBy j := by
  rw [takenBy, h, takenBy]

theorem closedBy_of_eq (h : w'.closed = w.closed) (j : Nat) : w'.closedBy j = w.closedBy j := by
  rw [closedBy, h, closedBy]

/-- What a call has to close yet, and the first error so far. -/
def Closing (w : World κ) (i : Nat) (pending : List Nat) (firstError : Option IoError) : Prop :=
  w.takenBy i = (w.closedBy i).map Prod.fst ++ pending ∧
    firstError = firstErrorOf ((w.closedBy i).map Prod.snd)

/-- How far a call is with what it closes. -/
def ClosesSo (w : World κ) (i : Nat) : Party κ → Prop
  | .approaching s rest firstError | .emptying s rest firstError =>
    w.Closing i (s :: rest) firstError
  | .stopping s rest firstError => w.Closing i (s :: rest) firstError ∧ w.Emptied s
  | .ended (.closed result) => ∃ firstError, result = resultOf firstError ∧
      w.Closing i [] firstError
  | .ended .dropped => True
  | _ => w.takenBy i = [] ∧ w.closedBy i = []

theorem closesSo_next (h : w.Closing i slots firstError) :
    w.ClosesSo i (.next slots firstError) := by
  cases slots with
  | nil => exact ⟨firstError, rfl, h⟩
  | cons s rest => exact h

theorem closesSo_plain (hp : p.plain) (h : w.ClosesSo i p) (hd : p ≠ .ended .dropped) :
    w.takenBy i = [] ∧ w.closedBy i = [] := by
  cases p with
  | ended outcome =>
    cases outcome with
    | closed result => cases hp
    | dropped => exact absurd rfl hd
    | opened _ | failed _ | served => exact h
  | approaching s rest firstError | emptying s rest firstError => cases hp
  | stopping s rest firstError => cases hp
  | opening _ | connecting _ | inserting _ | looking _ | found _ | waiting _ | holding _ =>
    exact h
  | removing _ => exact h
  | discarding | draining => exact h

theorem closesSo_of_plain (hq : q.plain) (h : w.takenBy i = [] ∧ w.closedBy i = []) :
    w.ClosesSo i q := by
  cases q with
  | ended outcome =>
    cases outcome with
    | closed result => cases hq
    | dropped => trivial
    | opened _ | failed _ | served => exact h
  | approaching s rest firstError | emptying s rest firstError => cases hq
  | stopping s rest firstError => cases hq
  | opening _ | connecting _ | inserting _ | looking _ | found _ | waiting _ | holding _ =>
    exact h
  | removing _ => exact h
  | discarding | draining => exact h

/-- Of a call that does not take the step nothing changes. -/
theorem closesSo_of_same (ht : w'.takenBy i = w.takenBy i) (hc : w'.closedBy i = w.closedBy i)
    (hempty : ∀ s, w.Emptied s → w'.Emptied s) (h : w.ClosesSo i p) : w'.ClosesSo i p := by
  have hclosing : ∀ pending firstError, w.Closing i pending firstError →
      w'.Closing i pending firstError := fun pending firstError h => by
    rwa [Closing, ht, hc]
  have hnone : w.takenBy i = [] ∧ w.closedBy i = [] → w'.takenBy i = [] ∧ w'.closedBy i = [] :=
    fun h => ⟨ht.trans h.1, hc.trans h.2⟩
  cases p with
  | ended outcome =>
    cases outcome with
    | closed result => exact h.imp fun _ h => ⟨h.1, hclosing _ _ h.2⟩
    | dropped => trivial
    | opened _ | failed _ | served => exact hnone h
  | approaching s rest firstError | emptying s rest firstError => exact hclosing _ _ h
  | stopping s rest firstError => exact ⟨hclosing _ _ h.1, hempty _ h.2⟩
  | opening _ | connecting _ | inserting _ | looking _ | found _ | waiting _ | holding _ =>
    exact hnone h
  | removing _ => exact hnone h
  | discarding | draining => exact hnone h

/-- The history says of every call how far it is, and what was closed is empty. -/
structure Logged (w : World κ) : Prop where
  calls : ∀ i p, w.parties[i]? = some p → w.ClosesSo i p
  fresh : ∀ i, w.parties.length ≤ i → w.takenBy i = [] ∧ w.closedBy i = []
  emptied : ∀ i, ∀ x ∈ w.closedBy i, w.Emptied x.1

/-- A call that ended takes no step. -/
theorem not_ended_of_turns {op : Op κ} (hturns : Turns w i op w')
    (hp : w.parties[i]? = some p) (outcome : Outcome κ) : p ≠ .ended outcome := by
  rintro rfl
  cases hturns with
  | goes hp' hgoes =>
    rw [hp] at hp'
    cases hp'
    cases hgoes
  | givesUp hp' hgives =>
    rw [hp] at hp'
    cases hp'
    cases hgives
  | asks hp' hasks =>
    rw [hp] at hp'
    cases hp'
    cases hasks
  | drops hp' hgoing =>
    rw [hp] at hp'
    cases hp'
    exact hgoing outcome rfl
  | starts hp' | registers hp' | finds hp' | acquires hp' | refused hp' | releases hp'
  | removes hp' | drains hp' | empties hp' | findsEmpty hp' | closes hp' =>
    rw [hp] at hp'
    cases hp'

theorem ended_of_step {outcome : Outcome κ} (hp : w.parties[i]? = some (.ended outcome))
    {a : Action κ} (hstep : w.step a = some w') : w'.parties[i]? = some (.ended outcome) := by
  cases a with
  | call call =>
    cases hstep
    exact (List.getElem?_append_left (List.getElem?_eq_some_iff.mp hp).1).trans hp
  | perform j op =>
    have hturns := turns_of_perform hstep
    obtain ⟨p, q, hp', hparties, -⟩ := turn_of_turns hturns
    have hji : j ≠ i := by
      rintro rfl
      exact not_ended_of_turns hturns hp outcome rfl
    rw [hparties, List.getElem?_set_ne hji, hp]

theorem logged_of_turns (h : w.Logged) {op : Op κ} (hturns : Turns w i op w') : w'.Logged := by
  obtain ⟨p, q, hp, hparties, hturn⟩ := turn_of_turns hturns
  have hempty : ∀ s, w.Emptied s → w'.Emptied s := fun s hs => emptied_of_turns hs hturns
  have hold := h.calls i p hp
  have hlt := (List.getElem?_eq_some_iff.mp hp).1
  have hd : p ≠ .ended .dropped := not_ended_of_turns hturns hp _
  -- It is enough to say what the step does for the call that takes it.
  suffices hnew : (∀ j, j ≠ i → w'.takenBy j = w.takenBy j ∧ w'.closedBy j = w.closedBy j) ∧
      w'.ClosesSo i q ∧ ∀ x ∈ w'.closedBy i, w'.Emptied x.1 by
    obtain ⟨hother, hq, hx⟩ := hnew
    refine ⟨fun j r hr => ?_, fun j hj => ?_, fun j x hxj => ?_⟩
    · rw [hparties, List.getElem?_set] at hr
      by_cases hji : j = i
      · subst hji
        rw [if_pos rfl, if_pos hlt] at hr
        cases hr
        exact hq
      · rw [if_neg (Ne.symm hji)] at hr
        exact closesSo_of_same (hother j hji).1 (hother j hji).2 hempty (h.calls j r hr)
    · rw [hparties, List.length_set] at hj
      have hji : j ≠ i := fun hji => by omega
      rw [(hother j hji).1, (hother j hji).2]
      exact h.fresh j hj
    · by_cases hji : j = i
      · exact hx x (hji ▸ hxj)
      · rw [(hother j hji).2] at hxj
        exact hempty _ (h.emptied j x hxj)
  have hsame : w'.taken = w.taken → w'.closed = w.closed →
      (∀ j, w'.takenBy j = w.takenBy j ∧ w'.closedBy j = w.closedBy j) ∧
        ∀ x ∈ w'.closedBy i, w'.Emptied x.1 := fun ht hc => by
    refine ⟨fun j => ⟨takenBy_of_eq ht j, closedBy_of_eq hc j⟩, fun x hx => ?_⟩
    rw [closedBy_of_eq hc] at hx
    exact hempty _ (h.emptied i x hx)
  cases hturn with
  | goesOn hpl hql ht hc =>
    obtain ⟨hall, hx⟩ := hsame ht hc
    refine ⟨fun j _ => hall j, closesSo_of_plain hql ?_, hx⟩
    rw [(hall i).1, (hall i).2]
    exact closesSo_plain hpl hold hd
  | dropped ht hc =>
    obtain ⟨hall, hx⟩ := hsame ht hc
    exact ⟨fun j _ => hall j, trivial, hx⟩
  | unknown ht hc =>
    obtain ⟨hall, hx⟩ := hsame ht hc
    obtain ⟨ht', hc'⟩ := closesSo_plain rfl hold hd
    refine ⟨fun j _ => hall j, ⟨none, rfl, ?_, ?_⟩, hx⟩
    · rw [(hall i).1, (hall i).2, ht', hc']
      rfl
    · rw [(hall i).2, hc']
      rfl
  | @takes _ slots hpl ht hc =>
    obtain ⟨ht', hc'⟩ := closesSo_plain hpl hold hd
    have hci : w'.closedBy i = [] := (closedBy_of_eq hc i).trans hc'
    refine ⟨fun j hj => ⟨?_, closedBy_of_eq hc j⟩, closesSo_next ⟨?_, ?_⟩, ?_⟩
    · rw [takenBy_concat ht, if_neg hj, List.append_nil]
    · rw [takenBy_concat ht, ht', if_pos rfl, hci]
      rfl
    · rw [hci]
      rfl
    · rw [hci]
      exact fun x hx => nomatch hx
  | asks ht hc =>
    obtain ⟨hall, hx⟩ := hsame ht hc
    refine ⟨fun j _ => hall j, ?_, hx⟩
    rw [ClosesSo, Closing, (hall i).1, (hall i).2]
    exact hold
  | empties ht hc hs =>
    obtain ⟨hall, hx⟩ := hsame ht hc
    refine ⟨fun j _ => hall j, ⟨?_, hs⟩, hx⟩
    rw [Closing, (hall i).1, (hall i).2]
    exact hold
  | @closes _ s rest firstError result hcase ht hc hs =>
    have hclosing : w.Closing i (s :: rest) firstError ∧ w'.Emptied s := by
      rcases hcase with rfl | rfl
      · exact ⟨hold, hs rfl⟩
      · exact ⟨hold.1, hempty _ hold.2⟩
    obtain ⟨⟨htaken, herror⟩, hs⟩ := hclosing
    have hci : w'.closedBy i = w.closedBy i ++ [(s, result)] := by
      rw [closedBy_concat hc, if_pos rfl]
    refine ⟨fun j hj => ⟨takenBy_of_eq ht j, ?_⟩, closesSo_next ⟨?_, ?_⟩, fun x hx => ?_⟩
    · rw [closedBy_concat hc, if_neg hj, List.append_nil]
    · rw [takenBy_of_eq ht, htaken, hci]
      simp
    · rw [hci, List.map_append, List.map_singleton, firstErrorOf_concat, ← herror]
    · rw [hci] at hx
      rcases List.mem_append.mp hx with hx | hx
      · exact hempty _ (h.emptied i x hx)
      · rw [List.mem_singleton.mp hx]
        exact hs

theorem logged_of_step (h : w.Logged) {a : Action κ} (hstep : w.step a = some w') :
    w'.Logged := by
  cases a with
  | perform i op => exact logged_of_turns h (turns_of_perform hstep)
  | call call =>
    cases hstep
    refine ⟨fun i p hp => ?_, fun i hi => ?_, h.emptied⟩
    · change (w.parties ++ [call.party])[i]? = some p at hp
      rw [List.getElem?_append] at hp
      split at hp
      · exact closesSo_of_same rfl rfl (fun _ hs => hs) (h.calls i p hp)
      · rename_i hge
        have hpc : p = call.party := by
          have := (List.getElem?_eq_some_iff.mp hp).1
          have hz : i - w.parties.length = 0 := by simpa using this
          rw [hz] at hp
          exact (Option.some.inj hp).symm
        subst hpc
        refine closesSo_of_plain ?_ (h.fresh i (Nat.le_of_not_lt hge))
        cases call <;> rfl
    · change (w.parties ++ [call.party]).length ≤ i at hi
      rw [List.length_append] at hi
      exact h.fresh i (Nat.le_of_add_right_le hi)

theorem logged_start : (start : World κ).Logged where
  calls := nofun
  fresh _ _ := ⟨rfl, rfl⟩
  emptied := nofun

theorem logged_of_run (hrun : Steps World.step (fun _ _ => True) (start : World κ) w) :
    w.Logged :=
  hrun.invariant (I := Logged) (fun _ _ _ h _ hstep => logged_of_step h hstep) logged_start

/-! ### What a `close_all` leaves, and what it returns -/

/-- A call that took its slots takes no more. -/
theorem takenBy_of_step (hp : w.parties[i]? = some p) (hplain : p.plain = false)
    {a : Action κ} (hstep : w.step a = some w') :
    ∃ q, w'.parties[i]? = some q ∧ (q.plain = false ∨ q = .ended .dropped) ∧
      w'.takenBy i = w.takenBy i := by
  have hlt := (List.getElem?_eq_some_iff.mp hp).1
  cases a with
  | call call =>
    cases hstep
    exact ⟨p, (List.getElem?_append_left hlt).trans hp, .inl hplain, rfl⟩
  | perform j op =>
    obtain ⟨p', q, hp', hparties, hturn⟩ := turn_of_turns (turns_of_perform hstep)
    rw [hparties, List.getElem?_set]
    by_cases hji : j = i
    · subst hji
      rw [hp] at hp'
      cases hp'
      rw [if_pos rfl, if_pos hlt]
      refine ⟨q, rfl, ?_⟩
      cases hturn with
      | goesOn hpl => rw [hplain] at hpl; cases hpl
      | dropped ht => exact ⟨.inr rfl, takenBy_of_eq ht j⟩
      | unknown => cases hplain
      | takes hpl => rw [hplain] at hpl; cases hpl
      | asks ht => exact ⟨.inl rfl, takenBy_of_eq ht j⟩
      | empties ht => exact ⟨.inl rfl, takenBy_of_eq ht j⟩
      | @closes _ s rest firstError result _ ht =>
        refine ⟨.inl ?_, takenBy_of_eq ht j⟩
        cases rest <;> rfl
    · rw [if_neg hji]
      refine ⟨p, hp, .inl hplain, ?_⟩
      cases hturn with
      | @takes _ slots _ ht =>
        rw [takenBy_concat ht, if_neg (Ne.symm hji), List.append_nil]
      | goesOn _ _ ht | dropped ht | unknown ht | asks ht | empties ht | closes _ ht =>
        exact takenBy_of_eq ht i

/-- The step that drains the registry. -/
theorem drain_of_perform {order : List Nat} (hstep : w.perform i (.drain order) = some w') :
    w.parties[i]? = some .draining ∧ order.Perm w.connections.values ∧
      w' = { w with connections := ∅, taken := w.taken ++ [(i, order)] }.setParty i
        (.next order none) := by
  cases turns_of_perform hstep with
  | goes _ hgoes => cases hgoes
  | givesUp _ hgives => cases hgives
  | drains hp hperm => exact ⟨hp, hperm, rfl⟩

/-- **`close_all` attempts every connection and returns the first error**: every slot that was
registered when it began is empty when it returns, `close_slot` was called for each in turn,
and the result is the first error of these, whatever other calls did meanwhile. -/
theorem close_all_closes_all {order : List Nat} {result : Except IoError Unit}
    (hrun : Steps World.step (fun _ _ => True) (start : World κ) w)
    (hstep : w.perform i (.drain order) = some w')
    (hrest : Steps World.step (fun _ _ => True) w' u)
    (hend : u.parties[i]? = some (.ended (.closed result))) :
    (∀ s ∈ w.connections.values, u.Emptied s) ∧
      (u.closedBy i).map Prod.fst = order ∧ order.Perm w.connections.values ∧
        result = resultOf (firstErrorOf ((u.closedBy i).map Prod.snd)) := by
  have hrun' : Steps World.step (fun _ _ => True) (start : World κ) w' :=
    hrun.tail trivial (a := .perform i (.drain order)) hstep
  have hlog := logged_of_run (hrun'.trans hrest)
  obtain ⟨firstError, hresult, htaken, herror⟩ := hlog.calls i _ hend
  -- The step itself.
  obtain ⟨hp, hperm, rfl⟩ := drain_of_perform hstep
  obtain ⟨hlt, -⟩ := List.getElem?_eq_some_iff.mp hp
  have hnone := closesSo_plain rfl ((logged_of_run hrun).calls i _ hp) nofun
  have htaken' : ({ w with
      connections := ∅
      taken := w.taken ++ [(i, order)] }.setParty i (.next order none)).takenBy i = order := by
    rw [takenBy_concat (w := w) rfl, if_pos rfl, hnone.1, List.nil_append]
  -- What follows it.
  have hkeeps : ∃ q, u.parties[i]? = some q ∧ (q.plain = false ∧ u.takenBy i = order ∨
      q = .ended .dropped) := by
    refine hrest.invariant (I := fun v => ∃ q, v.parties[i]? = some q ∧
      (q.plain = false ∧ v.takenBy i = order ∨ q = .ended .dropped))
      (fun v a v' hv _ hs => ?_)
      ⟨.next order none, List.getElem?_set_self hlt, .inl ⟨by cases order <;> rfl, htaken'⟩⟩
    obtain ⟨r, hr, ⟨hrp, hrt⟩ | rfl⟩ := hv
    · obtain ⟨r', hr', hcase, ht⟩ := takenBy_of_step hr hrp hs
      exact ⟨r', hr', hcase.imp_left fun hp => ⟨hp, ht.trans hrt⟩⟩
    · exact ⟨_, ended_of_step hr hs, .inr rfl⟩
  obtain ⟨r, hr, ⟨-, hut⟩ | rfl⟩ := hkeeps
  · have hfst : (u.closedBy i).map Prod.fst = order := by
      rw [← hut, htaken, List.append_nil]
    refine ⟨fun s hs => ?_, hfst, hperm, by rw [hresult, herror]⟩
    have hmem : s ∈ (u.closedBy i).map Prod.fst := by
      rw [hfst]
      exact hperm.mem_iff.mpr hs
    obtain ⟨x, hx, rfl⟩ := List.mem_map.mp hmem
    exact hlog.emptied i x hx
  · rw [hend] at hr
    cases hr

/-- Two calls open a server each. -/
def openTwo : List (Action Nat) :=
  opening ++ [.call (.openAt .ssh), .perform 1 .started, .perform 1 .connected,
    .perform 1 (.insert 8)]

/-- A `close_all` of two servers, the first of which fails to stop. -/
theorem close_all_closes_all_failing :
    ∃ u : World Nat, (∀ s ∈ (after (openTwo ++ [.call .closeAll])).connections.values,
        u.Emptied s) ∧ (u.closedBy 2).map Prod.fst = [0, 1] ∧
      [0, 1].Perm (after (openTwo ++ [.call .closeAll])).connections.values ∧
      Except.error ⟨.unlisted 3, "exit status: 3"⟩ =
        resultOf (firstErrorOf ((u.closedBy 2).map Prod.snd)) :=
  ⟨_, close_all_closes_all (i := 2) (steps_after (openTwo ++ [.call .closeAll])) rfl
    (steps_runs _ [.perform 2 .ask, .perform 2 .take,
      .perform 2 (.stopped (.error ⟨.unlisted 3, "exit status: 3"⟩)), .perform 2 .ask,
      .perform 2 .take, .perform 2 (.stopped (.ok ()))]) rfl⟩

end World

end FilePeeker.Connections
