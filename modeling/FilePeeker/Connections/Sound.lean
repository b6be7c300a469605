import FilePeeker.Connections.Once

/-!
# Who refers to a slot, and who holds it

What a slot's lock says of a call is what the call does with the slot (`locks`); a guard is
of a slot with a connection (`guarded`); and a slot with a connection is one that the
registry or a call refers to (`kept`).  Within a step a reference may be gone before what
it held is, so the invariant names the slots that are `owed` their end.
-/

namespace FilePeeker.Connections

variable {κ : Type} [DecidableEq κ] {w w' : World κ} {i j : Nat} {p q : Party κ}
  {s t : Nat} {slot slot' : Slot} {owed owed' slots : List Nat}

namespace Party

omit [DecidableEq κ] in
theorem mem_slots_of_place {place : LockPlace} (h : p.place s = some place) : s ∈ p.slots := by
  cases p <;> simp only [Party.place, reduceCtorEq] at h
  all_goals
    split at h
    · rename_i heq
      simp [slots, heq]
    · cases h

omit [DecidableEq κ] in
theorem next_slots (slots : List Nat) (firstError : Option IoError) :
    (Party.next slots firstError : Party κ).slots = slots := by
  cases slots <;> rfl

end Party

namespace World

theorem setParty_setParty (w : World κ) (i : Nat) (p q : Party κ) :
    (w.setParty i p).setParty i q = w.setParty i q := by
  simp [setParty]

/-- Where a call stands with the lock of a slot. -/
def placeOf (w : World κ) (j s : Nat) : Option LockPlace := (w.parties[j]?).bind (·.place s)

theorem placeOf_setParty (hp : w.parties[i]? = some p) (q : Party κ) (j s : Nat) :
    (w.setParty i q).placeOf j s = if j = i then q.place s else w.placeOf j s := by
  obtain ⟨hlt, -⟩ := List.getElem?_eq_some_iff.mp hp
  simp only [placeOf, setParty, List.getElem?_set]
  by_cases hj : j = i
  · simp [hj, hlt]
  · simp [hj, Ne.symm hj]

theorem exists_of_placeOf {place : LockPlace} (h : w.placeOf j s = some place) :
    ∃ p ∈ w.parties, s ∈ p.slots := by
  obtain ⟨p, hp, hplace⟩ := Option.bind_eq_some_iff.mp h
  exact ⟨p, List.mem_of_getElem? hp, Party.mem_slots_of_place hplace⟩

structure Sound (w : World κ) (owed : List Nat) : Prop where
  registered : ∀ s ∈ w.connections.values, s < w.slots.length
  referred : ∀ p ∈ w.parties, ∀ s ∈ p.slots, s < w.slots.length
  kept : ∀ s slot, w.slots[s]? = some slot → slot.connection ≠ none →
    w.Referenced s ∨ s ∈ owed
  locks : ∀ s slot, w.slots[s]? = some slot → ∀ j, slot.lock.place j = w.placeOf j s
  guarded : ∀ s slot j, w.slots[s]? = some slot → w.placeOf j s = some (.holds .read) →
    slot.connection ≠ none

namespace Sound

theorem slot_of_mem (h : w.Sound owed) (hp : w.parties[i]? = some p) (hs : s ∈ p.slots) :
    ∃ slot, w.slots[s]? = some slot :=
  ⟨_, List.getElem?_eq_getElem (h.referred p (List.mem_of_getElem? hp) s hs)⟩

/-- What refers to a slot still does, or it was the one call that changed. -/
theorem referenced_set (hp : w.parties[i]? = some p) (h : w.Referenced s) :
    (w.setParty i q).Referenced s ∨ s ∈ p.slots := by
  rcases h with h | ⟨r, hr, hs⟩
  · exact .inl (.inl h)
  obtain ⟨j, hj⟩ := List.mem_iff_getElem?.mp hr
  by_cases hji : j = i
  · subst hji
    rw [hp] at hj
    cases hj
    exact .inr hs
  · refine .inl (.inr ⟨r, List.mem_of_getElem? (i := j) ?_, hs⟩)
    simpa [setParty, List.getElem?_set, Ne.symm hji] using hj

theorem mem_set (hp : w.parties[i]? = some p) (q : Party κ) : q ∈ (w.setParty i q).parties := by
  obtain ⟨hlt, -⟩ := List.getElem?_eq_some_iff.mp hp
  exact List.mem_set hlt q

/-- What a call refers to after a step of it, or is owed. -/
theorem kept_set (h : w.Sound owed) (hp : w.parties[i]? = some p)
    (howed : ∀ s ∈ p.slots ++ owed, s ∈ q.slots ∨ s ∈ owed')
    (hs : w.slots[s]? = some slot) (hc : slot.connection ≠ none) :
    (w.setParty i q).Referenced s ∨ s ∈ owed' := by
  have hmem : s ∈ p.slots ++ owed → (w.setParty i q).Referenced s ∨ s ∈ owed' := fun hm =>
    (howed s hm).imp_left fun hq => .inr ⟨q, mem_set hp q, hq⟩
  rcases h.kept s slot hs hc with hr | hr
  · rcases referenced_set (q := q) hp hr with hr | hr
    · exact .inl hr
    · exact hmem (List.mem_append_left _ hr)
  · exact hmem (List.mem_append_right _ hr)

theorem referred_set (h : w.Sound owed) (hslots : ∀ s ∈ q.slots, s < w.slots.length) :
    ∀ p ∈ (w.setParty i q).parties, ∀ s ∈ p.slots, s < w.slots.length := fun p hp s hs => by
  rcases List.mem_or_eq_of_mem_set hp with hp | rfl
  · exact h.referred p hp s hs
  · exact hslots s hs

/-- A call goes on and no lock is touched. -/
theorem setParty (h : w.Sound owed) (hp : w.parties[i]? = some p)
    (hplace : ∀ s, q.place s = p.place s) (hslots : ∀ s ∈ q.slots, s < w.slots.length)
    (howed : ∀ s ∈ p.slots ++ owed, s ∈ q.slots ∨ s ∈ owed') :
    (w.setParty i q).Sound owed' := by
  have hof : ∀ j s, (w.setParty i q).placeOf j s = w.placeOf j s := fun j s => by
    rw [placeOf_setParty hp]
    split
    · rename_i hj
      rw [hj, hplace, placeOf, hp]
      rfl
    · rfl
  exact
    { registered := h.registered
      referred := h.referred_set hslots
      kept := fun s slot hs hc => h.kept_set hp howed hs hc
      locks := fun s slot hs j => (h.locks s slot hs j).trans (hof j s).symm
      guarded := fun s slot j hs hj => h.guarded s slot j hs ((hof j s).symm.trans hj) }

/-- A call goes on, and its place with one lock changes. -/
theorem move (h : w.Sound owed) (hp : w.parties[i]? = some p) (hs : w.slots[s]? = some slot)
    (hlock : ∀ j, slot'.lock.place j = if j = i then q.place s else slot.lock.place j)
    (hplace : ∀ t, t ≠ s → q.place t = p.place t)
    (hconn : slot'.connection = slot.connection ∨ slot'.connection = none)
    (hguard : ∀ j, slot'.lock.place j = some (.holds .read) → slot'.connection ≠ none)
    (hslots : ∀ s ∈ q.slots, s < w.slots.length)
    (howed : ∀ t ∈ p.slots ++ owed,
      t ∈ q.slots ∨ t ∈ owed' ∨ t = s ∧ slot'.connection = none) :
    ((w.setSlot s slot').setParty i q).Sound owed' := by
  have hp' : (w.setSlot s slot').parties[i]? = some p := hp
  have hget : ∀ t, (w.setSlot s slot').slots[t]? = if t = s then some slot' else w.slots[t]? := by
    intro t
    obtain ⟨hlt, -⟩ := List.getElem?_eq_some_iff.mp hs
    by_cases ht : t = s
    · simp [setSlot, ht, hlt]
    · simp [setSlot, Ne.symm ht, ht]
  have hlocks : ∀ t slot, (w.setSlot s slot').slots[t]? = some slot →
      ∀ j, slot.lock.place j = ((w.setSlot s slot').setParty i q).placeOf j t := by
    intro t slot₁ ht j
    rw [placeOf_setParty hp']
    rw [hget] at ht
    split at ht
    · rename_i hts
      cases ht
      rw [hlock, hts, h.locks s slot hs j]
      rfl
    · rename_i hts
      rw [h.locks t slot₁ ht j]
      split
      · rename_i hj
        rw [hplace t hts, placeOf, hj, hp]
        rfl
      · rfl
  refine
    { registered := fun t ht => ?_
      referred := fun r hr t ht => ?_
      kept := fun t slot₁ ht hc => ?_
      locks := hlocks
      guarded := fun t slot₁ j ht hj => ?_ }
  · simpa [setSlot, World.setParty] using h.registered t ht
  · simpa [setSlot, World.setParty] using h.referred_set hslots r hr t ht
  · have hc' : t = s → slot'.connection ≠ none := fun hts => by
      rw [World.setParty] at ht
      rw [hget, if_pos hts] at ht
      cases ht
      exact hc
    have hold : ∃ slot₀, w.slots[t]? = some slot₀ ∧ slot₀.connection ≠ none := by
      rw [World.setParty] at ht
      rw [hget] at ht
      split at ht
      · rename_i hts
        cases ht
        refine ⟨slot, hts ▸ hs, ?_⟩
        rcases hconn with hconn | hconn
        · rwa [← hconn]
        · exact absurd hconn hc
      · exact ⟨slot₁, ht, hc⟩
    obtain ⟨slot₀, ht₀, hc₀⟩ := hold
    have howed' : ∀ t ∈ p.slots ++ owed, t ∈ q.slots ∨ t ∈ owed' ++ (if slot'.connection = none
        then [s] else []) := fun u hu => by
      rcases howed u hu with hq | ho | ⟨rfl, hn⟩
      · exact .inl hq
      · exact .inr (List.mem_append_left _ ho)
      · exact .inr (by simp [hn])
    rcases h.kept_set hp howed' ht₀ hc₀ with hr | hr
    · exact .inl hr
    · rcases List.mem_append.mp hr with hr | hr
      · exact .inr hr
      · split at hr
        · rename_i hn
          exact absurd hn (hc' (by simpa using hr))
        · cases hr
  · rw [← hlocks t slot₁ ht j] at hj
    rw [World.setParty] at ht
    rw [hget] at ht
    split at ht
    · cases ht
      exact hguard j hj
    · exact h.guarded t slot₁ j ht ((h.locks t slot₁ ht j).symm.trans hj)

/-- A call asks for a lock that it has no part in. -/
theorem ask (h : w.Sound owed) (hp : w.parties[i]? = some p) (hs : s < w.slots.length)
    (hnone : p.place s = none) {a : Access} (hq : q.place s = some (.waits a))
    (hplace : ∀ t, t ≠ s → q.place t = p.place t) (hslots : ∀ s ∈ q.slots, s < w.slots.length)
    (howed : ∀ t ∈ p.slots ++ owed, t ∈ q.slots ∨ t ∈ owed') :
    ((w.ask s i a).setParty i q).Sound owed' := by
  have hget : w.slots[s]? = some w.slots[s] := List.getElem?_eq_getElem hs
  have hfree : w.slots[s].lock.place i = none := by
    rw [h.locks s _ hget i, placeOf, hp]
    exact hnone
  unfold World.ask
  rw [hget]
  refine h.move hp hget (fun j => ?_) hplace (.inl rfl) (fun j hj => ?_) hslots
    (fun t ht => (howed t ht).imp_right .inl)
  · rw [RwLock.place_ask hfree, hq]
  · rw [RwLock.place_ask hfree] at hj
    split at hj
    · cases hj
    · exact h.guarded s w.slots[s] j hget ((h.locks s w.slots[s] hget j).symm.trans hj)

/-- A call has no more part in a lock. -/
theorem leave (h : w.Sound owed) (hp : w.parties[i]? = some p) (hs : s < w.slots.length)
    (hnone : q.place s = none) (hplace : ∀ t, t ≠ s → q.place t = p.place t)
    (hslots : ∀ s ∈ q.slots, s < w.slots.length)
    (howed : ∀ t ∈ p.slots ++ owed, t ∈ q.slots ∨ t ∈ owed') :
    ((w.leave s i).setParty i q).Sound owed' := by
  have hget : w.slots[s]? = some w.slots[s] := List.getElem?_eq_getElem hs
  unfold World.leave
  rw [hget]
  refine h.move hp hget (fun j => ?_) hplace (.inl rfl) (fun j hj => ?_) hslots
    (fun t ht => (howed t ht).imp_right .inl)
  · rw [RwLock.place_leave, hnone]
  · rw [RwLock.place_leave] at hj
    split at hj
    · cases hj
    · exact h.guarded s w.slots[s] j hget ((h.locks s w.slots[s] hget j).symm.trans hj)

/-- What nothing refers to has no connection any more. -/
theorem letGo (h : w.Sound (s :: owed)) : (w.letGo s).Sound owed := by
  have hkeep : (∀ slot, w.slots[s]? = some slot → slot.connection ≠ none → w.Referenced s) →
      w.Sound owed := fun hr =>
    { h with
      kept := fun t slot ht hc => by
        rcases h.kept t slot ht hc with hk | hk
        · exact .inl hk
        · rcases List.mem_cons.mp hk with rfl | hk
          · exact .inl (hr slot ht hc)
          · exact .inr hk }
  unfold World.letGo
  split
  · rename_i server lock hs
    split
    · rename_i hr
      exact hkeep fun _ _ _ => hr
    · rename_i hr
      obtain ⟨hlt, -⟩ := List.getElem?_eq_some_iff.mp hs
      have hget : ∀ t, (w.slots.set s ⟨none, lock⟩)[t]? =
          if t = s then some ⟨none, lock⟩ else w.slots[t]? := fun t => by
        by_cases ht : t = s
        · simp [ht, hlt]
        · simp [ht, Ne.symm ht]
      refine
        { registered := fun t ht => ?_
          referred := fun p hp t ht => ?_
          kept := fun t slot ht hc => ?_
          locks := fun t slot ht j => ?_
          guarded := fun t slot j ht hj => ?_ }
      · simpa [setSlot, stop] using h.registered t ht
      · simpa [setSlot, stop] using h.referred p hp t ht
      · have ht' := (hget t).symm.trans ht
        split at ht'
        · cases ht'
          exact absurd rfl hc
        · rename_i hts
          exact (h.kept t slot ht' hc).imp_right fun hm =>
            (List.mem_cons.mp hm).resolve_left hts
      · have ht' := (hget t).symm.trans ht
        split at ht'
        · rename_i hts
          cases ht'
          exact hts ▸ h.locks s _ hs j
        · exact h.locks t slot ht' j
      · have ht' := (hget t).symm.trans ht
        split at ht'
        · rename_i hts
          exact absurd (.inr (hts ▸ exists_of_placeOf hj)) hr
        · exact h.guarded t slot j ht' hj
  · rename_i hne
    exact hkeep fun slot hs hc => by
      obtain ⟨connection, lock⟩ := slot
      cases connection with
      | none => exact absurd rfl hc
      | some server => exact absurd hs (hne server lock)

theorem letAllGo (h : w.Sound (slots ++ owed)) : (w.letAllGo slots).Sound owed := by
  induction slots generalizing w with
  | nil => exact h
  | cons s slots ih => exact ih (letGo h)

/-- A new slot, with its connection, that nobody has asked for. -/
theorem register (h : w.Sound owed) (id : κ) (server : Nat) (hfree : ∀ s,
    w.connections.lookup id ≠ some s) : (w.register id server).Sound owed := by
  have hnone : ∀ j, w.placeOf j w.slots.length = none := fun j => by
    cases hj : w.placeOf j w.slots.length with
    | none => rfl
    | some place =>
      obtain ⟨p, hp, hs⟩ := exists_of_placeOf hj
      exact absurd (h.referred p hp _ hs) (Nat.lt_irrefl _)
  have hval : ∀ s, s ∈ (w.register id server).connections.values ↔
      s = w.slots.length ∨ s ∈ w.connections.values := by
    intro s
    simp only [World.register, Table.mem_values, Table.lookup_insert_if]
    constructor
    · rintro ⟨k, hk⟩
      split at hk
      · exact .inl (Option.some.inj hk).symm
      · exact .inr ⟨k, hk⟩
    · rintro (rfl | ⟨k, hk⟩)
      · exact ⟨id, by simp⟩
      · refine ⟨k, ?_⟩
        have hne : k ≠ id := fun hid => hfree s (by rw [← hid, hk])
        rw [if_neg hne, hk]
  have hget : ∀ t slot, (w.register id server).slots[t]? = some slot →
      w.slots[t]? = some slot ∨ t = w.slots.length ∧ slot = ⟨some server, .free⟩ := by
    intro t slot ht
    rw [World.register] at ht
    rw [List.getElem?_append] at ht
    split at ht
    · exact .inl ht
    · rename_i hge
      have hlt := (List.getElem?_eq_some_iff.mp ht).1
      have hz : t - w.slots.length = 0 := by simpa using hlt
      rw [hz] at ht
      exact .inr ⟨by omega, (Option.some.inj ht).symm⟩
  refine
    { registered := fun t ht => ?_
      referred := fun p hp t ht => ?_
      kept := fun t slot ht hc => ?_
      locks := fun t slot ht j => ?_
      guarded := fun t slot j ht hj => ?_ }
  · rw [World.register, List.length_append, List.length_singleton]
    rcases (hval t).mp ht with rfl | ht
    · exact Nat.lt_succ_self _
    · exact Nat.lt_succ_of_lt (h.registered t ht)
  · rw [World.register, List.length_append, List.length_singleton]
    exact Nat.lt_succ_of_lt (h.referred p hp t ht)
  · rcases hget t slot ht with ht | ⟨rfl, rfl⟩
    · exact (h.kept t slot ht hc).imp_left (Or.imp_left fun hv => (hval t).mpr (.inr hv))
    · exact .inl (.inl ((hval _).mpr (.inl rfl)))
  · rcases hget t slot ht with ht | ⟨rfl, rfl⟩
    · exact h.locks t slot ht j
    · exact (hnone j).symm
  · rcases hget t slot ht with ht | ⟨rfl, rfl⟩
    · exact h.guarded t slot j ht hj
    · simp

/-- The slots a call has yet to close are its own. -/
theorem next (h : w.Sound owed) (hp : w.parties[i]? = some p)
    (hplace : ∀ s, p.place s = none) (hslots : ∀ s ∈ slots, s < w.slots.length)
    (howed : ∀ s ∈ p.slots ++ owed, s ∈ slots) (firstError : Option IoError) :
    (w.setParty i (.next slots firstError)).Sound [] := by
  refine h.setParty hp (fun s => ?_) ?_ fun s hs => .inl ?_
  · cases slots <;> exact (hplace s).symm
  · rwa [Party.next_slots]
  · rw [Party.next_slots]
    exact howed s hs

end Sound

/-! ### A step, and a run -/

/-- A call that is dropped leaves its lock, and lets go of what it referred to. -/
theorem sound_drops (h : w.Sound []) (hp : w.parties[i]? = some p) (hdrops : Drops w i p w') :
    w'.Sound [] := by
  have hlt : ∀ s ∈ p.slots, s < w.slots.length := h.referred p (List.mem_of_getElem? hp)
  -- One that had no part in a lock.
  have hend : (∀ s, p.place s = none) → (w.setParty i (.ended .dropped)).Sound (p.slots ++ []) :=
    fun hplace => h.setParty hp (fun s => (hplace s).symm) (List.forall_mem_nil _)
      fun s hs => .inr hs
  cases hdrops with
  | kills | loses | aborts =>
    have h' := hend fun _ => rfl
    exact ⟨h'.1, h'.2, h'.3, h'.4, h'.5⟩
  | @leaves _ s _ hs hplace =>
    have hcomm : (w.setParty i (.ended .dropped)).leave s i =
        (w.leave s i).setParty i (.ended .dropped) := by
      simp only [leave, setParty]
      split <;> rfl
    have hleft : ((w.setParty i (.ended .dropped)).leave s i).Sound (p.slots ++ []) := by
      rw [hcomm]
      exact h.leave hp (hlt s hs) rfl (fun t ht => (hplace t ht).symm) (List.forall_mem_nil _)
        fun t ht => .inr ht
    exact hleft.letAllGo
  | letsGo _ hplace => exact (hend hplace).letAllGo

/-- A call that reads has the lock, or is refused it. -/
theorem sound_enters (h : w.Sound []) {lock : RwLock Nat} (hp : w.parties[i]? = some (.waiting s))
    (hs : w.slots[s]? = some slot) (hlock : slot.lock.enter i = some lock) (j : Nat) :
    lock.place j = if j = i then some (.holds .read) else slot.lock.place j := by
  obtain ⟨a, hwaits, hplace⟩ := RwLock.place_enter hlock
  have hread : a = .read := by
    rw [h.locks s slot hs i, placeOf, hp] at hwaits
    simpa [Party.place, eq_comm] using hwaits
  rw [hplace, hread]

/-- A call has emptied a slot. -/
theorem sound_empties (h : w.Sound []) {lock : RwLock Nat} {rest : List Nat}
    {firstError : Option IoError} (hp : w.parties[i]? = some (.emptying s rest firstError))
    (hs : w.slots[s]? = some slot) (hlock : slot.lock.pass i = some lock) :
    ((w.setSlot s ⟨none, lock⟩).setParty i (.stopping s rest firstError)).Sound [] := by
  obtain ⟨a, -, hplace⟩ := RwLock.place_pass hlock
  have hlt : ∀ t ∈ s :: rest, t < w.slots.length := h.referred _ (List.mem_of_getElem? hp)
  have hno : ∀ j, lock.place j ≠ some (.holds .read) := fun j hj => by
    rw [hplace] at hj
    split at hj
    · cases hj
    · refine RwLock.no_reader_of_pass hlock ?_ j hj
      rw [h.locks s slot hs i, placeOf, hp]
      exact if_pos rfl
  refine h.move hp hs (fun j => by rw [hplace]; rfl)
    (fun t ht => (if_neg (Ne.symm ht)).symm) (.inr rfl) (fun j hj => absurd hj (hno j))
    (fun t ht => hlt t (List.mem_cons_of_mem _ ht)) fun t ht => ?_
  rcases List.mem_cons.mp (by simpa [Party.slots] using ht : t ∈ s :: rest) with rfl | ht
  · exact .inr (.inr ⟨rfl, rfl⟩)
  · exact .inl ht

theorem sound_of_turns (h : w.Sound []) {op : Op κ} (hturns : Turns w i op w') :
    w'.Sound [] := by
  cases hturns with
  | goes hp hgoes =>
    cases hgoes <;>
      exact h.setParty hp (fun _ => rfl) (List.forall_mem_nil _) (List.forall_mem_nil _)
  | @starts location hp =>
    have h' : { w with started := w.started ++ [location] }.Sound [] := ⟨h.1, h.2, h.3, h.4, h.5⟩
    exact h'.setParty hp (fun _ => rfl) (List.forall_mem_nil _) (List.forall_mem_nil _)
  | @givesUp _ p q server how hp hgives =>
    have h' : (w.stop server how).Sound [] := ⟨h.1, h.2, h.3, h.4, h.5⟩
    cases hgives <;>
      exact h'.setParty hp (fun _ => rfl) (List.forall_mem_nil _) (List.forall_mem_nil _)
  | @registers server id hp hfree =>
    have h' := h.register id server fun s hs => by rw [hfree] at hs; cases hs
    exact h'.setParty (p := .inserting server) hp (fun _ => rfl) (List.forall_mem_nil _)
      (List.forall_mem_nil _)
  | @finds id s hp hs =>
    have hlt := h.registered s (Table.mem_values.mpr ⟨id, hs⟩)
    refine h.setParty hp (fun _ => rfl) (fun t ht => ?_) (List.forall_mem_nil _)
    rwa [List.mem_singleton.mp ht]
  | @asks s access p q hp hasks =>
    have hlt := h.referred p (List.mem_of_getElem? hp)
    cases hasks with
    | read =>
      exact h.ask hp (hlt s (List.mem_singleton_self s)) rfl (if_pos rfl)
        (fun t ht => if_neg (Ne.symm ht)) hlt fun t ht => .inl (by simpa [Party.slots] using ht)
    | write =>
      exact h.ask hp (hlt s List.mem_cons_self) rfl (if_pos rfl)
        (fun t ht => if_neg (Ne.symm ht)) hlt fun t ht => .inl (by simpa [Party.slots] using ht)
  | @acquires s slot lock server hp hs hlock hc =>
    have hlt := (List.getElem?_eq_some_iff.mp hs).1
    refine h.move hp hs (fun j => ?_) (fun t ht => ?_) (.inl rfl) (fun _ _ => by simp [hc])
      (fun t ht => ?_) fun t ht => .inl (by simpa [Party.slots] using ht)
    · simp [sound_enters h hp hs hlock, Party.place]
    · simp [Party.place, Ne.symm ht]
    · rwa [List.mem_singleton.mp ht]
  | @refused s slot lock hp hs hlock hc =>
    refine h.move hp hs (fun j => ?_) (fun t ht => (if_neg (Ne.symm ht)).symm) (.inl rfl)
      (fun j hj => ?_) (List.forall_mem_nil _) fun t ht => ?_
    · simp only [RwLock.place_leave, sound_enters h hp hs hlock, Party.place]
      split <;> rfl
    · rw [RwLock.place_leave, sound_enters h hp hs hlock] at hj
      split at hj
      · cases hj
      · exact h.guarded s slot j hs ((h.locks s slot hs j).symm.trans hj)
    · exact .inr (.inr ⟨by simpa [Party.slots] using ht, hc⟩)
  | @releases s hp =>
    have hlt := h.referred _ (List.mem_of_getElem? hp) s (by simp [Party.slots])
    have h' : ((w.leave s i).setParty i (.ended .served)).Sound [s] :=
      h.leave hp hlt rfl (fun t ht => (if_neg (Ne.symm ht)).symm) (List.forall_mem_nil _) fun t ht =>
        .inr (by simpa [Party.slots] using ht)
    exact h'.letGo
  | @removes id s hp hs =>
    have hlt := h.registered s (Table.mem_values.mpr ⟨id, hs⟩)
    have h' : { w with
        connections := w.connections.erase id
        taken := w.taken ++ [(i, [s])] }.Sound [s] :=
      { registered := fun t ht => by
          obtain ⟨k, hk⟩ := Table.mem_values.mp ht
          rw [Table.lookup_erase_if] at hk
          split at hk
          · cases hk
          · exact h.registered t (Table.mem_values.mpr ⟨k, hk⟩)
        referred := h.referred
        kept := fun t slot ht hc => by
          rcases h.kept t slot ht hc with (hv | hv) | hv
          · obtain ⟨k, hk⟩ := Table.mem_values.mp hv
            by_cases hkid : k = id
            · subst hkid
              rw [hs] at hk
              exact .inr (by simpa using (Option.some.inj hk).symm)
            · refine .inl (.inl (Table.mem_values.mpr ⟨k, ?_⟩))
              rw [Table.lookup_erase_if, if_neg hkid, hk]
          · exact .inl (.inr hv)
          · cases hv
        locks := h.locks
        guarded := h.guarded }
    refine h'.next (p := .removing id) hp (fun _ => rfl) (fun t ht => ?_) (fun t ht => ht) none
    rwa [List.mem_singleton.mp ht]
  | @drains order hp hperm =>
    have h' : { w with connections := ∅, taken := w.taken ++ [(i, order)] }.Sound order :=
      { registered := (List.forall_mem_nil _)
        referred := h.referred
        kept := fun t slot ht hc => by
          rcases h.kept t slot ht hc with (hv | hv) | hv
          · exact .inr (hperm.mem_iff.mpr hv)
          · exact .inl (.inr hv)
          · cases hv
        locks := h.locks
        guarded := h.guarded }
    exact h'.next (p := .draining) hp (fun _ => rfl)
      (fun t ht => h.registered t (hperm.mem_iff.mp ht)) (fun t ht => ht) none
  | empties hp hs hlock _ =>
    have hmove := sound_empties h hp hs hlock
    exact ⟨hmove.1, hmove.2, hmove.3, hmove.4, hmove.5⟩
  | @findsEmpty s rest firstError slot lock hp hs hlock _ =>
    have hmove := sound_empties h hp hs hlock
    have hlt : ∀ t ∈ s :: rest, t < w.slots.length := h.referred _ (List.mem_of_getElem? hp)
    have h' : ({ w.setSlot s ⟨none, lock⟩ with
        closed := w.closed ++ [(i, s, Except.ok ())] }.setParty i
          (.stopping s rest firstError)).Sound [] :=
      ⟨hmove.1, hmove.2, hmove.3, hmove.4, hmove.5⟩
    obtain ⟨hi, -⟩ := List.getElem?_eq_some_iff.mp hp
    have hself : (w.parties.set i (.stopping s rest firstError))[i]? =
        some (.stopping s rest firstError) := List.getElem?_set_self hi
    have hnext := h'.next (p := .stopping s rest firstError) hself (fun _ => rfl)
      (fun t (ht : t ∈ rest) => by simpa [setParty, setSlot] using hlt t (List.mem_cons_of_mem _ ht))
      (fun t ht => by simpa [Party.slots] using ht) (keepFirst firstError (.ok ()))
    rwa [setParty_setParty] at hnext
  | @closes s rest firstError result hp =>
    have h' : { w with closed := w.closed ++ [(i, s, result)] }.Sound [] :=
      ⟨h.1, h.2, h.3, h.4, h.5⟩
    exact h'.next (p := .stopping s rest firstError) hp (fun _ => rfl)
      (h.referred _ (List.mem_of_getElem? hp)) (fun t ht => by simpa [Party.slots] using ht) _
  | drops hp _ hdrops => exact sound_drops h hp hdrops

theorem sound_of_step (h : w.Sound []) {a : Action κ} (hstep : w.step a = some w') :
    w'.Sound [] := by
  cases a with
  | perform i op => exact sound_of_turns h (turns_of_perform hstep)
  | call call =>
    cases hstep
    have hcall : call.party.slots = [] ∧ ∀ s, call.party.place s = none := by
      cases call <;> exact ⟨rfl, fun _ => rfl⟩
    have hof : ∀ j s, { w with parties := w.parties ++ [call.party] }.placeOf j s =
        w.placeOf j s := fun j s => by
      simp only [placeOf, List.getElem?_append]
      split
      · rfl
      · rename_i hge
        rw [List.getElem?_eq_none (Nat.le_of_not_lt hge)]
        cases j - w.parties.length with
        | zero => exact hcall.2 s
        | succ n => rfl
    exact
      { registered := h.registered
        referred := fun p hp s hs => by
          rcases List.mem_append.mp hp with hp | hp
          · exact h.referred p hp s hs
          · rw [List.mem_singleton.mp hp, hcall.1] at hs
            cases hs
        kept := fun s slot hs hc => (h.kept s slot hs hc).imp_left
          (Or.imp_right fun ⟨p, hp, hm⟩ => ⟨p, List.mem_append_left _ hp, hm⟩)
        locks := fun s slot hs j => (h.locks s slot hs j).trans (hof j s).symm
        guarded := fun s slot j hs hj => h.guarded s slot j hs ((hof j s).symm.trans hj) }

theorem sound_start : (start : World κ).Sound [] where
  registered := nofun
  referred := nofun
  kept := nofun
  locks := nofun
  guarded := nofun

theorem sound_of_run (hrun : Steps World.step (fun _ _ => True) (start : World κ) w) :
    w.Sound [] :=
  hrun.invariant (I := (Sound · [])) (fun _ _ _ h _ hstep => sound_of_step h hstep) sound_start

end World

end FilePeeker.Connections
