import FilePeeker.Connections.Sound

/-!
# When a server is told to stop

A server is told to stop when nothing can use it any more, and once (`stopped_iff_unused`):
neither a call that opens it, nor a slot that the registry or a call refers to.  Only a
server in this process can be forgotten, by a call that is dropped while it connects to it,
and then it runs for as long as the process (`lost_for_good`).

While a guard of a slot is held its server has not been told to stop (`guard_keeps_server`),
and a slot that was emptied refuses every call that still has it (`emptied_refuses`).
-/

namespace FilePeeker.Connections

variable {κ : Type} [DecidableEq κ] {w w' u : World κ} {i j : Nat} {p q : Party κ}
  {s n : Nat} {slot : Slot} {slots : List Nat}

namespace World

/-- Something can use the server: the call that opens it, or who has a slot it is in. -/
def InUse (w : World κ) (n : Nat) : Prop :=
  (∃ p ∈ w.parties, p.inHand = some n) ∨
    ∃ s slot, w.slots[s]? = some slot ∧ slot.connection = some n ∧ w.Referenced s

/-- Every call has ended and no connection is registered. -/
def Quiet (w : World κ) : Prop :=
  w.connections.values = [] ∧ ∀ p ∈ w.parties, ∃ outcome, p = .ended outcome

theorem not_inUse_of_quiet (h : w.Quiet) (n : Nat) : ¬ w.InUse n := by
  rintro (⟨p, hp, hand⟩ | ⟨s, slot, -, -, hr | ⟨p, hp, hs⟩⟩)
  · obtain ⟨outcome, rfl⟩ := h.2 p hp
    cases hand
  · rw [h.1] at hr
    cases hr
  · obtain ⟨outcome, rfl⟩ := h.2 p hp
    cases hs

/-- Told to stop: so many times. -/
def stopCount (w : World κ) (n : Nat) : Nat := w.stops.countP (·.1 == n)

theorem inUse_iff (h : w.Sound []) : w.InUse n ↔
    0 < w.parties.countP (·.inHand == some n) + w.slots.countP (·.connection == some n) := by
  rw [Nat.add_pos_iff_pos_or_pos, List.countP_pos_iff, List.countP_pos_iff]
  refine or_congr (by simp) ⟨?_, ?_⟩
  · rintro ⟨s, slot, hs, hc, -⟩
    exact ⟨slot, List.mem_of_getElem? hs, by simpa using hc⟩
  · rintro ⟨slot, hmem, hc⟩
    obtain ⟨s, hs⟩ := List.mem_iff_getElem?.mp hmem
    have hc : slot.connection = some n := by simpa using hc
    refine ⟨s, slot, hs, hc, ?_⟩
    exact (h.kept s slot hs (by simp [hc])).resolve_right nofun

/-- **A server is told to stop once, and when nothing can use it**: unless it is lost. -/
theorem stopped_iff_unused (hrun : Steps World.step (fun _ _ => True) (start : World κ) w)
    (hn : n < w.started.length) :
    w.stopCount n ≤ 1 ∧ (w.stopCount n = 1 ↔ ¬ w.InUse n ∧ n ∉ w.lost) := by
  have hc := conserved_of_run hrun n
  have hlost : n ∈ w.lost ↔ 0 < w.lost.count n := List.count_pos_iff.symm
  rw [if_pos hn] at hc
  rw [inUse_iff (sound_of_run hrun), hlost]
  simp only [copies] at hc
  simp only [stopCount]
  omega

/-- The state a list of actions leads to. -/
def after (actions : List (Action Nat)) : World Nat :=
  runs World.step (fun _ _ => True) start actions

theorem steps_after (actions : List (Action Nat)) :
    Steps World.step (fun _ _ => True) start (after actions) :=
  steps_runs _ _

/-- The first call opens a server in this process. -/
def opening : List (Action Nat) :=
  [.call (.openAt .embedded), .perform 0 .started, .perform 0 .connected, .perform 0 (.insert 7)]

/-- The second gets a guard of it. -/
def holding : List (Action Nat) :=
  opening ++ [.call (.request 7), .perform 1 .look, .perform 1 .ask, .perform 1 .acquire]

/-- Or closes it, up to the point where the server is to stop. -/
def openAndClose : List (Action Nat) :=
  opening ++ [.call (.close 7), .perform 1 .remove, .perform 1 .ask, .perform 1 .take]

/-- A server is in use, and then it is not: it has been told to stop. -/
theorem stopped_iff_unused_openAndClose : (after opening).stopCount 0 = 0 ∧ (after opening).InUse 0 ∧
    (after openAndClose).stopCount 0 = 1 ∧ ¬ (after openAndClose).InUse 0 := by
  obtain ⟨-, hopened⟩ := stopped_iff_unused (n := 0) (steps_after opening) (by decide)
  obtain ⟨-, hclosed⟩ := stopped_iff_unused (n := 0) (steps_after openAndClose) (by decide)
  have hzero : (after opening).stopCount 0 = 0 := by decide
  have hone : (after openAndClose).stopCount 0 = 1 := by decide
  refine ⟨hzero, by_contra fun hunused => ?_, hone, (hclosed.mp hone).1⟩
  have hstopped := hopened.mpr ⟨hunused, by decide⟩
  rw [hzero] at hstopped
  cases hstopped

theorem stopped_once_of_quiet (hrun : Steps World.step (fun _ _ => True) (start : World κ) w)
    (hquiet : w.Quiet) (hn : n < w.started.length) (hlost : n ∉ w.lost) : w.stopCount n = 1 :=
  (stopped_iff_unused hrun hn).2.mpr ⟨not_inUse_of_quiet hquiet n, hlost⟩

/-! ### What is lost -/

/-- A step that does not drop a call while it connects to a server in this process. -/
def Careful (w : World κ) (a : Action κ) : Prop :=
  ∀ i n, a = .perform i .drop → w.parties[i]? = some (.connecting n) →
    w.started[n]? = some .ssh

/-- Only such a drop loses a server. -/
theorem turns_lost {op : Op κ} (hturns : Turns w i op w') :
    w'.lost = w.lost ∨ ∃ n, op = .drop ∧ w.parties[i]? = some (.connecting n) ∧
      w.started[n]? ≠ some .ssh ∧ w'.lost = w.lost ++ [n] := by
  cases hturns with
  | drops hp _ hdrops =>
    cases hdrops with
    | loses hhere => exact .inr ⟨_, rfl, hp, hhere, rfl⟩
    | kills | aborts => exact .inl rfl
    | leaves => exact .inl ((letAllGo_framed _ _).lost.trans (leave_framed _ _ _).lost)
    | letsGo => exact .inl (letAllGo_framed _ _).lost
  | asks => exact .inl (ask_framed _ _ _ _).lost
  | releases => exact .inl ((letGo_framed _ _).lost.trans (leave_framed _ _ _).lost)
  | goes | starts | givesUp | registers | finds | acquires | refused => exact .inl rfl
  | removes | drains | empties | findsEmpty | closes => exact .inl rfl

theorem step_lost {a : Action κ} (hstep : w.step a = some w') :
    w'.lost = w.lost ∨ ∃ i n, a = .perform i .drop ∧ w.parties[i]? = some (.connecting n) ∧
      w.started[n]? ≠ some .ssh ∧ w'.lost = w.lost ++ [n] := by
  cases a with
  | call call =>
    cases hstep
    exact .inl rfl
  | perform i op =>
    exact (turns_lost (turns_of_perform hstep)).imp_right fun ⟨n, hop, h⟩ =>
      ⟨i, n, by rw [hop], h⟩

/-- Where no such call is dropped, **every server is told to stop exactly once**: by the time
every call has ended and no connection is registered. -/
theorem stopped_once_of_careful (hrun : Steps World.step Careful (start : World κ) w)
    (hquiet : w.Quiet) (hn : n < w.started.length) : w.stopCount n = 1 := by
  have hlost : w.lost = [] := by
    refine hrun.invariant (I := fun w => w.lost = []) (fun v a v' hv hok hstep => ?_) rfl
    rcases step_lost hstep with hsame | ⟨i, m, ha, hp, hne, -⟩
    · rw [hsame, hv]
    · exact absurd (hok i m ha hp) hne
  refine stopped_once_of_quiet (hrun.mono fun _ _ _ => trivial) hquiet hn ?_
  rw [hlost]
  exact List.not_mem_nil

theorem lost_mono {a : Action κ} (hstep : w.step a = some w') (h : n ∈ w.lost) :
    n ∈ w'.lost := by
  rcases step_lost hstep with hsame | ⟨i, m, -, -, -, happ⟩
  · rwa [hsame]
  · rw [happ]
    exact List.mem_append_left _ h

/-- **A server in this process outlives a call that is dropped while it connects to it**: no
step tells it to stop, and nothing can use it. -/
theorem lost_for_good (hrun : Steps World.step (fun _ _ => True) (start : World κ) w)
    (hp : w.parties[i]? = some (.connecting n)) (hembedded : w.started[n]? = some .embedded)
    (hstep : w.perform i .drop = some w')
    (hrest : Steps World.step (fun _ _ => True) w' u) :
    u.stopCount n = 0 ∧ ¬ u.InUse n := by
  have hlost : n ∈ w'.lost := by
    simp only [perform, hp, Option.some.injEq] at hstep
    subst hstep
    simp [dropped, hembedded]
  have hrun' : Steps World.step (fun _ _ => True) (start : World κ) w' :=
    hrun.tail trivial (a := .perform i .drop) hstep
  have hu : n ∈ u.lost :=
    hrest.invariant (I := fun w => n ∈ w.lost) (fun _ _ _ h _ hs => lost_mono hs h) hlost
  have hrun'' := hrun'.trans hrest
  have hc := conserved_of_run hrun'' n
  have hpos : 0 < u.lost.count n := List.count_pos_iff.mpr hu
  rw [inUse_iff (sound_of_run hrun'')]
  simp only [copies] at hc
  simp only [stopCount]
  split at hc <;> omega

theorem lost_for_good_closeAll :
    (runs World.step (fun _ _ => True) ((after (opening.take 2)).dropped 0 (.connecting 0))
        [.call .closeAll, .perform 1 (.drain [])]).stopCount 0 = 0 ∧
      ¬ (runs World.step (fun _ _ => True) ((after (opening.take 2)).dropped 0 (.connecting 0))
        [.call .closeAll, .perform 1 (.drain [])]).InUse 0 :=
  lost_for_good (i := 0) (steps_after (opening.take 2)) rfl rfl rfl (steps_runs _ _)

/-! ### Guards, and slots that were emptied -/

/-- **While a guard is held its server is up**: it is in the slot, and nothing has told it
to stop. -/
theorem guard_keeps_server (hrun : Steps World.step (fun _ _ => True) (start : World κ) w)
    (hp : w.parties[i]? = some (.holding s)) :
    ∃ slot n, w.slots[s]? = some slot ∧ slot.connection = some n ∧ w.stopCount n = 0 ∧
      n ∉ w.lost := by
  have hsound := sound_of_run hrun
  obtain ⟨slot, hs⟩ := hsound.slot_of_mem hp (s := s) (by simp [Party.slots])
  have hplace : w.placeOf i s = some (.holds .read) := by
    rw [placeOf, hp]
    exact if_pos rfl
  obtain ⟨n, hc⟩ := Option.ne_none_iff_exists'.mp (hsound.guarded s slot i hs hplace)
  have huse : w.InUse n := .inr ⟨s, slot, hs, hc, .inr ⟨_, List.mem_of_getElem? hp, by
    simp [Party.slots]⟩⟩
  have hpos := (inUse_iff hsound).mp huse
  have hcons := conserved_of_run hrun n
  have hlost : n ∈ w.lost → 0 < w.lost.count n := List.count_pos_iff.mpr
  simp only [copies] at hcons
  refine ⟨slot, n, hs, hc, ?_, fun hm => ?_⟩
  · simp only [stopCount]
    split at hcons <;> omega
  · have := hlost hm
    split at hcons <;> omega

theorem guard_keeps_server_holding :
    ∃ slot n, (after holding).slots[0]? = some slot ∧ slot.connection = some n ∧
      (after holding).stopCount n = 0 ∧ n ∉ (after holding).lost :=
  guard_keeps_server (i := 1) (steps_after holding) rfl

/-- A slot whose connection is gone. -/
def Emptied (w : World κ) (s : Nat) : Prop := ∃ lock, w.slots[s]? = some ⟨none, lock⟩

theorem emptied_setSlot (h : w.Emptied s) {t : Nat} (ht : w.slots[t]? = some slot)
    {slot' : Slot} (hc : slot'.connection = slot.connection ∨ slot'.connection = none) :
    (w.setSlot t slot').Emptied s := by
  obtain ⟨lock, hs⟩ := h
  obtain ⟨hlt, -⟩ := List.getElem?_eq_some_iff.mp hs
  by_cases hts : t = s
  · subst hts
    rw [hs] at ht
    cases ht
    obtain ⟨connection, lock'⟩ := slot'
    have : connection = none := hc.elim id id
    exact ⟨lock', by simp [setSlot, hlt, this]⟩
  · exact ⟨lock, by simp [setSlot, hts, hs]⟩

theorem emptied_setSlot_self (hs : w.slots[s]? = some slot) {lock : RwLock Nat} :
    (w.setSlot s ⟨none, lock⟩).Emptied s :=
  ⟨lock, by simp [setSlot, (List.getElem?_eq_some_iff.mp hs).1]⟩

theorem emptied_ask (h : w.Emptied s) (t i : Nat) (a : Access) : (w.ask t i a).Emptied s := by
  unfold ask
  split
  · exact h
  · rename_i slot ht
    exact emptied_setSlot h ht (.inl rfl)

theorem emptied_leave (h : w.Emptied s) (t i : Nat) : (w.leave t i).Emptied s := by
  unfold leave
  split
  · exact h
  · rename_i slot ht
    exact emptied_setSlot h ht (.inl rfl)

theorem emptied_letGo (h : w.Emptied s) (t : Nat) : (w.letGo t).Emptied s := by
  unfold letGo
  split
  · rename_i server lock ht
    split
    · exact h
    · exact emptied_setSlot h ht (.inr rfl)
  · exact h

theorem emptied_letAllGo (h : w.Emptied s) : (w.letAllGo slots).Emptied s := by
  induction slots generalizing w with
  | nil => exact h
  | cons t slots ih => exact ih (emptied_letGo h t)

/-- No connection comes back to a slot. -/
theorem emptied_of_turns (h : w.Emptied s) {op : Op κ} (hturns : Turns w i op w') :
    w'.Emptied s := by
  cases hturns with
  | registers =>
    obtain ⟨lock, hs⟩ := h
    obtain ⟨hlt, -⟩ := List.getElem?_eq_some_iff.mp hs
    exact ⟨lock, (List.getElem?_append_left hlt).trans hs⟩
  | asks => exact emptied_ask h _ _ _
  | acquires _ ht => exact emptied_setSlot h ht (.inl rfl)
  | refused _ ht => exact emptied_setSlot h ht (.inl rfl)
  | releases =>
    exact emptied_letGo (w := World.setParty _ i _) (emptied_leave h _ _) _
  | empties _ ht => exact emptied_setSlot h ht (.inr rfl)
  | findsEmpty _ ht => exact emptied_setSlot h ht (.inr rfl)
  | drops _ _ hdrops =>
    cases hdrops with
    | kills | loses | aborts => exact h
    | leaves => exact emptied_letAllGo (emptied_leave (w := World.setParty w i _) h _ _)
    | letsGo => exact emptied_letAllGo (w := World.setParty w i _) h
  | goes | starts | givesUp | finds | removes | drains | closes => exact h

theorem emptied_of_step (h : w.Emptied s) {a : Action κ} (hstep : w.step a = some w') :
    w'.Emptied s := by
  cases a with
  | call call =>
    cases hstep
    exact h
  | perform i op => exact emptied_of_turns h (turns_of_perform hstep)

theorem emptied_of_run (h : w.Emptied s)
    (hrun : Steps World.step (fun _ _ => True) w u) : u.Emptied s :=
  hrun.invariant (I := (Emptied · s)) (fun _ _ _ h _ hstep => emptied_of_step h hstep) h

/-- **Closing a connection is terminal**: once its slot was emptied nobody holds a guard of
it again, and who had the slot already is told that the connection is closed. -/
theorem emptied_refuses (hrun : Steps World.step (fun _ _ => True) (start : World κ) w)
    (hs : w.Emptied s) (hrest : Steps World.step (fun _ _ => True) w u) :
    (∀ i : Nat, u.parties[i]? ≠ some (.holding s)) ∧
      ∀ (i : Nat) u', u.parties[i]? = some (.waiting s) → u.perform i .acquire = some u' →
        u'.parties[i]? = some (.ended (.failed connectionClosed)) := by
  obtain ⟨lock, hu⟩ := emptied_of_run hs hrest
  constructor
  · intro i hi
    obtain ⟨slot, n, hs', hc, -⟩ := guard_keeps_server (hrun.trans hrest) hi
    rw [hu] at hs'
    cases hs'
    cases hc
  · intro i u' hi hstep
    obtain ⟨hlt, -⟩ := List.getElem?_eq_some_iff.mp hi
    simp only [perform, hi, hu] at hstep
    obtain ⟨lock', -, rfl⟩ := Option.map_eq_some_iff.mp hstep
    simp [setParty, setSlot, hlt]

/-- The second call has found the slot when the third takes it out of the registry, and asks
for its lock after it; then the third empties it. -/
def closing : List (Action Nat) :=
  opening ++ [.call (.request 7), .call (.close 7), .perform 1 .look, .perform 2 .remove,
    .perform 2 .ask, .perform 1 .ask, .perform 2 .take]

/-- The second call waits for the slot that was emptied, and is told that it is closed. -/
theorem emptied_refuses_closing :
    (∀ i : Nat, (after closing).parties[i]? ≠ some (.holding 0)) ∧
      (after closing).parties[1]? = some (.waiting 0) ∧
      ∃ u', (after closing).perform 1 .acquire = some u' ∧
        u'.parties[1]? = some (.ended (.failed connectionClosed)) := by
  obtain ⟨hnone, hrefused⟩ := emptied_refuses (s := 0) (steps_after closing) ⟨_, rfl⟩ (.refl _)
  have hwaits : (after closing).parties[1]? = some (.waiting 0) := rfl
  obtain ⟨u', hu'⟩ : ∃ u', (after closing).perform 1 .acquire = some u' := ⟨_, rfl⟩
  exact ⟨hnone, hwaits, u', hu', hrefused 1 u' hwaits hu'⟩

end World

end FilePeeker.Connections
