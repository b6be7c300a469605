import FilePeeker.Connections.Stops

/-!
# Every call comes to its end

No call waits for ever: where servers start or fail to and shutdowns return, every run
without new calls is finite (`rests`), whatever calls are dropped in it, and where it cannot
go on every call has ended (`every_call_ends`).  What a call waits for at a lock are the calls
before it in line and who reads, and a call that reads waits for no lock.
-/

namespace FilePeeker.Connections

variable {κ : Type} [DecidableEq κ] {w w' u : World κ} {i j s : Nat} {p q : Party κ}

/-- How many steps a call has before it at most, with three for a slot it has to close. -/
def Party.weight : Party κ → Nat
  | .opening _ => 6
  | .connecting _ => 5
  | .inserting _ => 4
  | .discarding => 1
  | .looking _ => 4
  | .found _ => 3
  | .waiting _ => 2
  | .holding _ => 1
  | .removing _ => 1
  | .draining => 1
  | .approaching _ rest _ => 3 * rest.length + 3
  | .emptying _ rest _ => 3 * rest.length + 2
  | .stopping _ rest _ => 3 * rest.length + 1
  | .ended _ => 0

omit [DecidableEq κ] in
theorem Party.weight_next (slots : List Nat) (firstError : Option IoError) :
    (Party.next slots firstError : Party κ).weight = 3 * slots.length := by
  cases slots with
  | nil => rfl
  | cons s rest => simp [Party.next, Party.weight, Nat.mul_add]

omit [DecidableEq κ] in
theorem Party.weight_pos (h : ∀ outcome, p ≠ .ended outcome) : 0 < p.weight := by
  cases p with
  | ended outcome => exact absurd rfl (h outcome)
  | _ => exact Nat.succ_pos _

def totalWeight : List (Party κ) → Nat
  | [] => 0
  | p :: ps => p.weight + totalWeight ps

omit [DecidableEq κ] in
theorem totalWeight_set {ps : List (Party κ)} (h : ps[i]? = some p) (q : Party κ) :
    totalWeight (ps.set i q) + p.weight = totalWeight ps + q.weight := by
  induction ps generalizing i with
  | nil => cases h
  | cons r ps ih =>
    cases i with
    | zero =>
      obtain rfl : r = p := by simpa using h
      simp only [List.set_cons_zero, totalWeight]
      omega
    | succ i =>
      have := ih (i := i) (by simpa using h)
      simp only [List.set_cons_succ, totalWeight]
      omega

/-- A step that is not a new call. -/
def NoCall : World κ → Action κ → Prop
  | _, .call _ => False
  | _, .perform _ _ => True

/-- A step that is not a new call, and drops none. -/
def Progress : World κ → Action κ → Prop
  | _, .call _ => False
  | _, .perform _ op => op ≠ .drop

namespace World

/-- What is left to do: for a registered connection, to close it. -/
def work (w : World κ) : Nat := totalWeight w.parties + 3 * w.connections.size

theorem work_setParty (hp : w.parties[i]? = some p) (q : Party κ) :
    (w.setParty i q).work + p.weight = w.work + q.weight := by
  have := totalWeight_set hp q
  simp only [work, setParty]
  omega

theorem work_framed (h : Framed w w') : w'.work = w.work := by
  rw [work, h.parties, h.connections, work]

/-- A call that goes on to less than it had before it. -/
theorem work_setParty_lt (hp : w.parties[i]? = some p) (hlt : q.weight < p.weight) :
    (w.setParty i q).work < w.work := by
  have := work_setParty hp q
  omega

theorem size_insert {t : Table κ Nat} {id : κ} (h : t.lookup id = none) (n : Nat) :
    Table.size (t.insert id n) = t.size + 1 := by
  have hmem : id ∉ t.keys := fun hm => by
    rw [← AList.mem_keys, ← AList.lookup_isSome, h] at hm
    cases hm
  simp [Table.size, AList.keys_insert, List.erase_of_not_mem hmem]

omit [DecidableEq κ] in
theorem length_values (t : Table κ Nat) : t.values.length = t.size := by
  simp [Table.values, Table.size, AList.keys, List.keys]

/-- A call that is dropped does no more. -/
theorem work_drops (hp : w.parties[i]? = some p) (hgoing : ∀ outcome, p ≠ .ended outcome)
    (hdrops : Drops w i p w') : w'.work < w.work := by
  have hlt : (w.setParty i (.ended .dropped)).work < w.work :=
    work_setParty_lt hp (Party.weight_pos hgoing)
  cases hdrops with
  | kills | loses | aborts => exact hlt
  | leaves => rwa [work_framed ((leave_framed _ _ _).trans (letAllGo_framed _ _))]
  | letsGo => rwa [work_framed (letAllGo_framed _ _)]

/-- Every step of a call does some of the work. -/
theorem work_lt_of_turns {op : Op κ} (hturns : Turns w i op w') : w'.work < w.work := by
  cases hturns with
  | goes hp hgoes => cases hgoes <;> exact work_setParty_lt hp (by simp [Party.weight])
  | @starts location hp =>
    exact work_setParty_lt (w := { w with started := w.started ++ [location] }) hp
      (by simp [Party.weight])
  | @givesUp _ _ _ server how hp hgives =>
    cases hgives <;>
      exact work_setParty_lt (w := w.stop server how) hp (by simp [Party.weight])
  | @registers server id hp hfree =>
    have h := totalWeight_set hp (.ended (.opened id))
    have hsize := size_insert hfree w.slots.length
    simp only [Party.weight] at h
    simp only [work, setParty, register, hsize]
    omega
  | finds hp => exact work_setParty_lt hp (by simp [Party.weight])
  | @asks s access p q hp hasks =>
    have hframed := ask_framed w s i access
    rw [← work_framed hframed]
    refine work_setParty_lt (hframed.parties ▸ hp) ?_
    cases hasks <;> simp [Party.weight]
  | @acquires s slot lock _ hp =>
    exact work_setParty_lt (w := w.setSlot s { slot with lock }) hp (by simp [Party.weight])
  | @refused s slot lock hp =>
    exact work_setParty_lt (w := w.setSlot s { slot with lock := lock.leave i }) hp
      (by simp [Party.weight])
  | @releases s hp =>
    have hframed := leave_framed w s i
    rw [work_framed (letGo_framed _ s), ← work_framed hframed]
    exact work_setParty_lt (hframed.parties ▸ hp) (by simp [Party.weight])
  | @removes id s hp hs =>
    have h := totalWeight_set hp (.next [s] none)
    have hlt := Table.size_erase_lt hs
    rw [Party.weight_next, List.length_singleton, Party.weight] at h
    simp only [work, setParty]
    omega
  | @drains order hp hperm =>
    have h := totalWeight_set hp (.next order none)
    have hlen := hperm.length_eq.trans (length_values w.connections)
    have hzero : Table.size (∅ : Table κ Nat) = 0 := rfl
    rw [Party.weight_next, Party.weight] at h
    simp only [work, setParty, hzero]
    omega
  | @empties s rest firstError slot lock server hp =>
    exact work_setParty_lt (w := (w.setSlot s ⟨none, lock⟩).stop server .shutdown) hp
      (by simp [Party.weight])
  | @findsEmpty s rest firstError slot lock hp =>
    refine work_setParty_lt (w := { w.setSlot s ⟨none, lock⟩ with
      closed := w.closed ++ [(i, s, Except.ok ())] }) hp ?_
    rw [Party.weight_next, Party.weight]
    omega
  | @closes s rest firstError result hp =>
    refine work_setParty_lt (w := { w with closed := w.closed ++ [(i, s, result)] }) hp ?_
    rw [Party.weight_next, Party.weight]
    omega
  | drops hp hgoing hdrops => exact work_drops hp hgoing hdrops

/-- **No run goes on for ever.** -/
theorem rests (w : World κ) : Rests World.step NoCall w := by
  refine Rests.of_measure (I := fun _ => True) work (fun _ => 0) (fun _ _ _ _ _ _ => trivial)
    (fun w a w' _ hok hstep => .inl ?_) trivial
  cases a with
  | call call => exact absurd hok id
  | perform i op => exact work_lt_of_turns (turns_of_perform hstep)

/-! ### A call that waits -/

/-- Who is at a place of a lock. -/
theorem party_of_placeOf {place : LockPlace} (h : w.placeOf i s = some place) :
    ∃ p, w.parties[i]? = some p ∧
      (place = .waits .read ∧ p = .waiting s ∨ place = .holds .read ∧ p = .holding s ∨
        place = .waits .write ∧ ∃ rest firstError, p = .emptying s rest firstError) := by
  obtain ⟨p, hp, hplace⟩ := Option.bind_eq_some_iff.mp h
  refine ⟨p, hp, ?_⟩
  cases p <;> simp only [Party.place, reduceCtorEq] at hplace
  all_goals
    split at hplace
    · rename_i heq
      subst heq
      cases hplace
      simp
    · cases hplace

/-- Where somebody waits for a slot, some call can go on. -/
theorem exists_step_of_waits (h : w.Sound []) {a : Access}
    (hi : w.placeOf i s = some (.waits a)) :
    ∃ j op, op ≠ Op.drop ∧ (w.perform j op).isSome := by
  obtain ⟨p, hp, -⟩ := party_of_placeOf hi
  obtain ⟨r, hr, hsr⟩ := exists_of_placeOf hi
  have hlt := h.referred r hr s hsr
  have hs : w.slots[s]? = some w.slots[s] := List.getElem?_eq_getElem hlt
  have hlocks := h.locks s _ hs
  by_cases hreaders : w.slots[s].lock.readers = []
  · have hwriter : w.slots[s].lock.writer = none := by
      cases hw : w.slots[s].lock.writer with
      | none => rfl
      | some k =>
        have hk : w.slots[s].lock.place k = some (.holds .write) := by
          simp [RwLock.place, hreaders, hw]
        rw [hlocks k] at hk
        obtain ⟨_, _, ⟨hc, -⟩ | ⟨hc, -⟩ | ⟨hc, -⟩⟩ := party_of_placeOf hk <;> cases hc
    have hqueue : w.slots[s].lock.queue ≠ [] := fun hnil => by
      have hw := (hlocks i).trans hi
      simp [RwLock.place, hreaders, hwriter, hnil] at hw
    obtain ⟨k, hk⟩ := RwLock.exists_enter hqueue hwriter hreaders
    obtain ⟨lock, hlock⟩ := Option.isSome_iff_exists.mp hk
    obtain ⟨b, hplace, -⟩ := RwLock.place_enter hlock
    rw [hlocks k] at hplace
    obtain ⟨r, hr, ⟨-, rfl⟩ | ⟨hc, -⟩ | ⟨-, rest, firstError, rfl⟩⟩ := party_of_placeOf hplace
    · refine ⟨k, .acquire, by simp, ?_⟩
      simp only [perform, hr, hs, hlock, Option.map_some, Option.isSome_some]
    · cases hc
    · refine ⟨k, .take, by simp, ?_⟩
      simp only [perform, hr, hs, RwLock.pass, hlock, Option.map_some, Option.isSome_some]
  · obtain ⟨k, hk⟩ := List.exists_mem_of_ne_nil _ hreaders
    have hplace := RwLock.reader_iff.mp hk
    rw [hlocks k] at hplace
    obtain ⟨r, hr, ⟨hc, -⟩ | ⟨-, rfl⟩ | ⟨hc, -⟩⟩ := party_of_placeOf hplace
    · cases hc
    · exact ⟨k, .release, by simp, by simp only [perform, hr, Option.isSome_some]⟩
    · cases hc

/-- Where some call has not ended, some call can go on. -/
theorem exists_step [Nonempty κ] (h : w.Sound []) (hp : w.parties[i]? = some p)
    (hend : ∀ outcome, p ≠ .ended outcome) :
    ∃ j op, op ≠ Op.drop ∧ (w.perform j op).isSome := by
  obtain ⟨id⟩ := ‹Nonempty κ›
  cases p with
  | opening location => exact ⟨i, .started, by simp, by simp [perform, hp]⟩
  | connecting server => exact ⟨i, .connected, by simp, by simp [perform, hp]⟩
  | inserting server =>
    refine ⟨i, .insert id, by simp, ?_⟩
    simp only [perform, hp]
    split <;> rfl
  | discarding => exact ⟨i, .discarded, by simp, by simp [perform, hp]⟩
  | looking id =>
    refine ⟨i, .look, by simp, ?_⟩
    simp only [perform, hp]
    split <;> rfl
  | found s => exact ⟨i, .ask, by simp, by simp [perform, hp]⟩
  | waiting s =>
    refine exists_step_of_waits (i := i) (s := s) (a := .read) h ?_
    rw [placeOf, hp]
    exact if_pos rfl
  | holding s => exact ⟨i, .release, by simp, by simp [perform, hp]⟩
  | removing id =>
    refine ⟨i, .remove, by simp, ?_⟩
    simp only [perform, hp]
    split <;> rfl
  | draining =>
    refine ⟨i, .drain w.connections.values, by simp, ?_⟩
    simp only [perform, hp, List.Perm.refl, if_true, Option.isSome_some]
  | approaching s rest firstError => exact ⟨i, .ask, by simp, by simp [perform, hp]⟩
  | emptying s rest firstError =>
    refine exists_step_of_waits (i := i) (s := s) (a := .write) h ?_
    rw [placeOf, hp]
    exact if_pos rfl
  | stopping s rest firstError => exact ⟨i, .stopped (.ok ()), by simp, by simp [perform, hp]⟩
  | ended outcome => exact absurd rfl (hend outcome)

/-- **Every call comes to its end**: no run without new calls is infinite, and one that cannot
go on, unless by dropping a call, has ended every call. -/
theorem every_call_ends [Nonempty κ]
    (hrun : Steps World.step (fun _ _ => True) (start : World κ) w) :
    Rests World.step NoCall w ∧
      ∀ u, Steps World.step NoCall w u → (∀ a, Progress u a → u.step a = none) →
        ∀ p ∈ u.parties, ∃ outcome, p = .ended outcome := by
  refine ⟨rests w, fun u hu hstuck p hp => ?_⟩
  have hsound := sound_of_run (hrun.trans (hu.mono fun _ _ _ => trivial))
  obtain ⟨i, hi⟩ := List.mem_iff_getElem?.mp hp
  by_contra hne
  obtain ⟨j, op, hop, hsome⟩ := exists_step hsound hi fun outcome h => hne ⟨outcome, h⟩
  have hnone : u.perform j op = none := hstuck (.perform j op) hop
  rw [hnone] at hsome
  cases hsome

theorem every_call_ends_closing : Rests World.step NoCall (after closing) ∧
    ∀ u, Steps World.step NoCall (after closing) u →
      (∀ a, Progress u a → u.step a = none) → ∀ p ∈ u.parties, ∃ outcome, p = .ended outcome :=
  every_call_ends (steps_after closing)

end World

end FilePeeker.Connections
