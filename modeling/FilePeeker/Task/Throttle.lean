import Mathlib.Data.List.Chain
import FilePeeker.Task.Pace

/-!
# Throttled progress

`Metered` is a runtime with the history of each task's progress: what was reported while
the task had not settled, and when its progress was sent, but for what its settling
sent.  `Throttled` is what the pace of a task has to do with this history, and `Recorded` is
what holds of it in every run.

No progress is lost (`progress_is_never_lost`).  It is not always sent at intervals: a
flush that comes late can be overtaken by a report, and then sends what is reported next
too soon after it (`progress_spaced_iff`, `overtaken_flush_too_soon`).
-/

namespace FilePeeker

variable {Output : Type} {config : Config} {s s' : State Output} {x : TaskId}
  {a : Action Output}

/-! ### What was sent of a task's progress -/

def TaskEvent.progress? : TaskEvent → Option Progress
  | progressed _ progress => some progress
  | submitted _ | stateChanged _ _ => none

/-- The progress of a task among the events. -/
def progressesOf (x : TaskId) (events : List TaskEvent) : List Progress :=
  (eventsOf x events).filterMap TaskEvent.progress?

/-- The last progress sent of a task. -/
def lastProgress (x : TaskId) (sent : List Sent) : Option Progress :=
  (progressesOf x (sent.map Sent.event)).getLast?

/-- When the progress of a task was sent. -/
def progressTimes (x : TaskId) (sent : List Sent) : List Instant :=
  (sent.filter fun e => taskOf e.event = x ∧ e.event.progress?.isSome).map Sent.time

theorem progressesOf_append (x : TaskId) (l m : List TaskEvent) :
    progressesOf x (l ++ m) = progressesOf x l ++ progressesOf x m := by
  rw [progressesOf, eventsOf_append, List.filterMap_append]
  rfl

theorem progressTimes_mk (x : TaskId) (now : Instant) (events : List TaskEvent) :
    progressTimes x (events.map (Sent.mk now)) = (progressesOf x events).map fun _ => now := by
  induction events with
  | nil => rfl
  | cons ev events ih =>
    rw [progressTimes] at ih
    rw [List.map_cons, progressTimes, progressesOf, eventsOf, List.filter_cons, List.filter_cons]
    by_cases hx : taskOf ev = x
    · cases hp : ev.progress? with
      | none => simpa [hx, hp, progressesOf, eventsOf] using ih
      | some p => simpa [hx, hp, progressesOf, eventsOf] using ih
    · simpa [hx, progressesOf, eventsOf] using ih

theorem lastProgress_append (x : TaskId) (sent : List Sent) (now : Instant)
    (events : List TaskEvent) : lastProgress x (sent ++ events.map (Sent.mk now)) =
      (progressesOf x events).getLast?.or (lastProgress x sent) := by
  rw [lastProgress, List.map_append, List.map_map,
    show events.map (Sent.event ∘ Sent.mk now) = events from List.map_id' events,
    progressesOf_append, List.getLast?_append, lastProgress]

theorem progressesOf_quiet {events : List TaskEvent}
    (h : ∀ ev ∈ eventsOf x events, ev.quiet) : progressesOf x events = [] := by
  refine List.filterMap_eq_nil_iff.mpr fun ev hev => ?_
  have hquiet := h ev hev
  cases ev with
  | progressed => cases hquiet
  | submitted | stateChanged => rfl

/-! ### Runs with their history -/

/-- A runtime, and what has been reported and sent. -/
structure Metered (Output : Type) where
  runtime : State Output
  /-- What has been reported of each task while it had not settled. -/
  reports : TaskId → List Progress
  /-- When the progress of each task was sent, but for what its settling sent. -/
  times : TaskId → List Instant

def Metered.init : Metered Output := ⟨.init, fun _ => [], fun _ => []⟩

/-- What an action reports of a task. -/
def Action.reportOf (x : TaskId) : Action Output → Option Progress
  | .progress id p => if id = x then some p else none
  | _ => none

def meteredStep (config : Config) (m : Metered Output) (a : Action Output) :
    Option (Metered Output) :=
  (step config m.runtime a).map fun s =>
    { runtime := s
      reports := fun x =>
        if (m.runtime.pace x).isSome then m.reports x ++ (a.reportOf x).toList else m.reports x
      times := fun x =>
        if s.settles = m.runtime.settles then
          m.times x ++ progressTimes x (s.events.drop m.runtime.events.length)
        else m.times x }

/-- Every run. -/
abbrev anyMetered (_ : Metered Output) (_ : Action Output) : Prop := True

/-- The times are an interval apart. -/
def Spaced (interval : Nat) (times : List Instant) : Prop :=
  times.IsChain fun t u => t + interval ≤ u

/-- A flush of the task that ran now would send progress after a report had overtaken it:
one that came when the flush was already to run, and went out at once, less than the
interval ago. -/
def State.overtaken (config : Config) (s : State Output) (x : TaskId) : Bool :=
  match s.pace x with
  | none => false
  | some q => q.throttle.pending && (s.timersOf x).any fun due =>
      q.throttle.lastSent.any fun last =>
        decide (due ≤ last ∧ s.now < last + config.progressInterval)

/-- No flush runs that has been overtaken. -/
def InOrder (config : Config) (m : Metered Output) : Action Output → Prop
  | .flush x => m.runtime.overtaken config x = false
  | _ => True

instance (m : Metered Output) : (a : Action Output) → Decidable (InOrder config m a)
  | .flush x => inferInstanceAs (Decidable (m.runtime.overtaken config x = false))
  | .submit .. | .submitChild .. | .cancel .. | .cancelAll | .addResource ..
  | .setResourceState .. | .setResourceReady .. | .notifyWaiters | .idle | .idleStep ..
  | .drive .. | .giveUp .. | .runReturns .. | .runPanics .. | .bodyEnds .. | .progress ..
  | .tick .. => .isTrue trivial

/-! ### What a step adds to the history -/

variable {m m' : Metered Output} {events : List TaskEvent} {q : Pace} {p : Progress}

theorem meteredStep_eq (h : meteredStep config m a = some m') :
    step config m.runtime a = some m'.runtime ∧
    (∀ x, m'.reports x = if (m.runtime.pace x).isSome
      then m.reports x ++ (a.reportOf x).toList else m.reports x) ∧
    ∀ events, m'.runtime.events = m.runtime.events ++ events.map (Sent.mk m.runtime.now) →
      ∀ x, m'.times x = if m'.runtime.settles = m.runtime.settles
        then m.times x ++ (progressesOf x events).map fun _ => m.runtime.now else m.times x := by
  obtain ⟨s, hs, rfl⟩ := Option.map_eq_some_iff.mp h
  refine ⟨hs, fun _ => rfl, fun events hev x => ?_⟩
  simp only at hev ⊢
  rw [hev, List.drop_left, progressTimes_mk]

theorem reportOf_of_paces (h : a.paces x = false) : a.reportOf x = none := by
  cases a with
  | progress id p => exact if_neg (of_decide_eq_false h)
  | _ => rfl

/-! ### What the pace of a task has to do with its history -/

/-- The throttle of a task against what was reported and sent of it. -/
structure Throttled (config : Config) (m : Metered Output) (x : TaskId) (q : Pace) : Prop where
  last : q.throttle.lastSent = (m.times x).getLast?
  past : ∀ t, q.throttle.lastSent = some t → t ≤ m.runtime.now
  silent : q.throttle.lastSent = none → m.reports x = []
  latest : ∀ p, (m.reports x).getLast? = some p → q.progress = p
  scheduled : q.throttle.pending → q.throttle.flushScheduled
  timers : if q.throttle.flushScheduled then
      ∃ due t, m.runtime.timersOf x = [due] ∧ q.throttle.lastSent = some t ∧
        (due = t + config.progressInterval ∨ due ≤ t)
    else m.runtime.timersOf x = []
  told : q.throttle.pending = false → m.reports x ≠ [] →
    lastProgress x m.runtime.events = some q.progress

/-- What holds of the history in every run. -/
structure Recorded (config : Config) (m : Metered Output) : Prop where
  reaches : Reaches config anyRun m.runtime
  fresh : ∀ x, m.runtime.drivers x = none →
    m.reports x = [] ∧ m.times x = [] ∧ m.runtime.timersOf x = []
  throttled : ∀ x q, m.runtime.pace x = some q → Throttled config m x q
  gone : ∀ x sent st, sent ∈ m.runtime.events → sent.event = .stateChanged x st →
    st.isTerminal → m.runtime.drivers x ≠ none ∧ m.runtime.pace x = none
  ended : ∀ x before sent after st, m.runtime.events = before ++ sent :: after →
    sent.event = .stateChanged x st → st.isTerminal →
    ∀ p, (m.reports x).getLast? = some p → lastProgress x before = some p

theorem Recorded.init : Recorded config (Metered.init : Metered Output) where
  reaches := .refl _
  fresh _ _ := ⟨rfl, rfl, rfl⟩
  throttled _ _ h := by cases h
  gone _ _ _ h := by cases h
  ended _ before _ _ _ h := by
    have hnil : ([] : List Sent) = before ++ _ := h
    simp at hnil

theorem Recorded.driver_of_pace (h : Recorded config m) (hpace : m.runtime.pace x = some q) :
    m.runtime.drivers x ≠ none := by
  obtain ⟨e, he, -⟩ := State.pace_eq_some.mp hpace
  obtain ⟨d, hd, -⟩ := (Reaches.wf h.reaches).entry x e he
  rw [hd]
  exact Option.some_ne_none d

/-- The history of one task is the same after a step that reports, sends and spawns
nothing for it. -/
theorem Throttled.same (h : Throttled config m x q) (hnow : m.runtime.now ≤ m'.runtime.now)
    (hreports : m'.reports x = m.reports x) (htimes : m'.times x = m.times x)
    (htimers : m'.runtime.timersOf x = m.runtime.timersOf x)
    (hlast : lastProgress x m'.runtime.events = lastProgress x m.runtime.events) :
    Throttled config m' x q where
  last := htimes ▸ h.last
  past t ht := Nat.le_trans (h.past t ht) hnow
  silent hnone := hreports ▸ h.silent hnone
  latest p hp := h.latest p (hreports ▸ hp)
  scheduled := h.scheduled
  timers := htimers ▸ h.timers
  told hpending hne := hlast ▸ h.told hpending (hreports ▸ hne)

theorem Stepped.now_le (h : Stepped config s a s') : s.now ≤ s'.now := by
  cases h with
  | tick => exact Nat.le_add_right _ _
  | @drive id d d' op => cases op <;> exact Nat.le_refl _
  | _ => exact Nat.le_refl _

theorem Throttle.due_eq_true {t : Throttle} {interval : Nat} {now : Instant}
    (h : t.due interval now = true) (hpast : ∀ last, t.lastSent = some last → last ≤ now) :
    ∀ last, t.lastSent = some last → last + interval ≤ now := by
  intro last hlast
  have hle := hpast last hlast
  simp only [Throttle.due, hlast, decide_eq_true_eq] at h
  exact (Nat.le_sub_iff_add_le' hle).mp h

theorem Throttle.due_eq_false {t : Throttle} {interval : Nat} {now : Instant}
    (h : t.due interval now = false) :
    ∃ last, t.lastSent = some last ∧ ¬ interval ≤ now - last := by
  rw [Throttle.due] at h
  split at h
  · cases h
  · next last hlast => exact ⟨last, hlast, by simpa using h⟩

/-- **A step keeps the throttle of a task to its history.** -/
theorem Recorded.throttled_step (h : Recorded config m) (hstep : meteredStep config m a = some m')
    (hev : m'.runtime.events = m.runtime.events ++ events.map (Sent.mk m.runtime.now))
    (hpaced : Paced config m.runtime a m'.runtime x (eventsOf x events))
    (hpace : m'.runtime.pace x = some q) : Throttled config m' x q := by
  obtain ⟨hs, hreports, htimes⟩ := meteredStep_eq hstep
  have hnow := (step_cases hs).now_le
  have hreports := hreports x
  have htimes := htimes events hev x
  have hlast : lastProgress x m'.runtime.events = _ :=
    hev ▸ lastProgress_append x m.runtime.events m.runtime.now events
  -- Where nothing is told of the task's progress.
  have hsilent (hquiet : ∀ ev ∈ eventsOf x events, ev.quiet) : m'.times x = m.times x ∧
      lastProgress x m'.runtime.events = lastProgress x m.runtime.events := by
    rw [progressesOf_quiet hquiet] at htimes hlast
    refine ⟨?_, hlast⟩
    rw [htimes, List.map_nil, List.append_nil, ite_self]
  have hunreported (hreport : a.reportOf x = none) : m'.reports x = m.reports x := by
    rw [hreports, hreport, Option.toList_none, List.append_nil, ite_self]
  cases hpaced with
  | kept hsame hquiet htimers hother =>
    exact (h.throttled x q (hsame ▸ hpace)).same hnow (hunreported (reportOf_of_paces hother)) (hsilent hquiet).1
      htimers (hsilent hquiet).2
  | gone hgone => rw [hgone] at hpace; cases hpace
  | settled ha hpace₀ hst hgone => rw [hgone] at hpace; cases hpace
  | started hfresh hpace' hquiet htimers hother =>
    obtain rfl := Option.some.inj (hpace'.symm.trans hpace)
    obtain ⟨hreports₀, htimes₀, htimers₀⟩ := h.fresh x hfresh
    have hnone : m'.reports x = [] := (hunreported (reportOf_of_paces hother)).trans hreports₀
    refine ⟨?_, nofun, fun _ => hnone, ?_, nofun, htimers.trans htimers₀, fun _ hne => ?_⟩
    · rw [(hsilent hquiet).1, htimes₀]
      rfl
    · intro p hp
      rw [hnone] at hp
      cases hp
    · exact absurd hnone hne
  | @sent q₀ p ha hpace₀ hdue hpace' hevents htimers hsettles =>
    obtain rfl := Option.some.inj (hpace'.symm.trans hpace)
    have hq := h.throttled x q₀ hpace₀
    subst ha
    have hprogress : progressesOf x events = [p] := by rw [progressesOf, hevents]; rfl
    rw [hpace₀, Option.isSome_some, if_pos rfl, Action.reportOf, if_pos rfl] at hreports
    rw [if_pos hsettles, hprogress] at htimes
    rw [hprogress] at hlast
    refine ⟨by simp [htimes], ?_, nofun, ?_, nofun, ?_, fun _ _ => hlast⟩
    · rintro t ht
      exact Option.some.inj ht ▸ hnow
    · intro p' hp'
      simpa [hreports] using hp'
    · have htimer := hq.timers
      rw [← htimers] at htimer
      refine (show if q₀.throttle.flushScheduled then _ else _ from ?_)
      split
      · next hflush =>
        rw [if_pos hflush] at htimer
        obtain ⟨due, t, hdues, ht, hcase⟩ := htimer
        have hle := hq.past t ht
        have hover := Throttle.due_eq_true hdue hq.past t ht
        refine ⟨due, m.runtime.now, hdues, rfl, .inr ?_⟩
        rcases hcase with rfl | hcase
        · exact hover
        · exact Nat.le_trans hcase hle
      · next hflush => rwa [if_neg hflush] at htimer
  | @held q₀ p ha hpace₀ hdue hpace' hevents htimers =>
    obtain rfl := Option.some.inj (hpace'.symm.trans hpace)
    have hq := h.throttled x q₀ hpace₀
    obtain ⟨t, ht, hsoon⟩ := Throttle.due_eq_false hdue
    subst ha
    rw [hpace₀, Option.isSome_some, if_pos rfl, Action.reportOf, if_pos rfl] at hreports
    obtain ⟨htimes', -⟩ := hsilent (by rw [hevents]; exact List.forall_mem_nil _)
    refine ⟨by rw [htimes', hq.last], fun t' ht' => Nat.le_trans (hq.past t' ht') hnow, ?_, ?_,
      fun _ => rfl, ?_, nofun⟩
    · intro hnone
      rw [ht] at hnone
      cases hnone
    · intro p' hp'
      simpa [hreports] using hp'
    · have htimer := hq.timers
      show ∃ due t, _
      cases hflush : q₀.throttle.flushScheduled with
      | true =>
        rw [if_pos hflush] at htimer
        rw [htimers, if_pos hflush, List.append_nil]
        exact htimer
      | false =>
        rw [if_neg (by simp [hflush])] at htimer
        rw [htimers, if_neg (by simp [hflush]), htimer]
        refine ⟨_, t, rfl, ht, .inl ?_⟩
        have hle := hq.past t ht
        have hwait := Nat.le_of_lt (Nat.lt_of_not_le hsoon)
        simp only [Throttle.wait, ht]
        rw [← Nat.add_sub_assoc hwait, Nat.add_comm m.runtime.now,
          Nat.add_sub_assoc (Nat.sub_le _ _), Nat.sub_sub_self hle, Nat.add_comm]
  | @flushed q₀ due ha hpace₀ htimer hover htimers hpace' hevents hsettles =>
    obtain rfl := Option.some.inj (hpace'.symm.trans hpace)
    have hq := h.throttled x q₀ hpace₀
    have hreports' := hunreported (by rw [ha]; rfl)
    -- The flush was the only one, and none is left.
    have hflush : q₀.throttle.flushScheduled = true := by
      by_contra hflush
      have hnone := hq.timers
      rw [if_neg hflush] at hnone
      rw [hnone] at htimer
      cases htimer
    have hnone : m'.runtime.timersOf x = [] := by
      have hone := hq.timers
      rw [if_pos hflush] at hone
      obtain ⟨due', t, hdues, -⟩ := hone
      rw [hdues] at htimer htimers
      rw [htimers, List.mem_singleton.mp htimer, List.erase_cons_head]
    cases hpending : q₀.throttle.pending with
    | true =>
      rw [hpending, if_pos rfl] at hevents
      have hprogress : progressesOf x events = [q₀.progress] := by rw [progressesOf, hevents]; rfl
      rw [if_pos hsettles, hprogress] at htimes
      rw [hprogress] at hlast
      rw [if_pos rfl]
      refine ⟨by simp [htimes], ?_, nofun, ?_, nofun, hnone, fun _ _ => hlast⟩
      · rintro t ht
        exact Option.some.inj ht ▸ hnow
      · exact fun p hp => hq.latest p (hreports' ▸ hp)
    | false =>
      rw [hpending, if_neg Bool.false_ne_true] at hevents
      obtain ⟨htimes', hlast'⟩ := hsilent (by rw [hevents]; exact List.forall_mem_nil _)
      rw [if_neg Bool.false_ne_true]
      refine ⟨by rw [htimes', ← hq.last], fun t ht => Nat.le_trans (hq.past t ht) hnow,
        fun hnone => hreports' ▸ hq.silent hnone, fun p hp => hq.latest p (hreports' ▸ hp), ?_,
        hnone, fun hp hne => hlast' ▸ hq.told hp (hreports' ▸ hne)⟩
      intro hp
      rw [show q₀.throttle.pending = true from hp] at hpending
      cases hpending

/-- A task that tells of its end settles, and has told its latest progress before. -/
theorem Paced.settles_of_terminal {st : TaskState} {before after : List TaskEvent}
    (h : Paced config s a s' x (eventsOf x (before ++ .stateChanged x st :: after)))
    (hst : st.isTerminal) : ∃ q, a = .drive x ∧ s.pace x = some q ∧ s'.pace x = none ∧
      progressesOf x before = if q.throttle.pending then [q.progress] else [] := by
  have hsplit : eventsOf x (before ++ .stateChanged x st :: after) =
      eventsOf x before ++ .stateChanged x st :: eventsOf x after := by
    rw [eventsOf_append, eventsOf, eventsOf, eventsOf, List.filter_cons_of_pos (by simp [taskOf])]
  have hmem : TaskEvent.stateChanged x st ∈ eventsOf x (before ++ .stateChanged x st :: after) := by
    rw [hsplit]
    exact List.mem_append_right _ List.mem_cons_self
  have hloud (hquiet : ∀ ev ∈ eventsOf x (before ++ .stateChanged x st :: after), ev.quiet) :
      False := by
    have hev := hquiet _ hmem
    simp [TaskEvent.quiet, hst] at hev
  cases h with
  | kept _ hquiet => exact (hloud hquiet).elim
  | gone _ hquiet => exact (hloud hquiet).elim
  | started _ _ hquiet => exact (hloud hquiet).elim
  | sent _ _ _ _ hevents => rw [hevents] at hmem; simp at hmem
  | held _ _ _ _ hevents => rw [hevents] at hmem; cases hmem
  | flushed _ _ _ _ _ _ hevents =>
    rw [hevents] at hmem
    split at hmem <;> simp at hmem
  | @settled q st' ha hpace hst' hpace' hevents hsettles =>
    refine ⟨q, ha, hpace, hpace', ?_⟩
    rw [hsplit] at hevents
    rw [progressesOf]
    cases hpending : q.throttle.pending with
    | false =>
      rw [hpending, if_neg Bool.false_ne_true, List.nil_append] at hevents
      rw [if_neg Bool.false_ne_true]
      cases hbefore : eventsOf x before with
      | nil => rfl
      | cons ev l =>
        rw [hbefore] at hevents
        simp at hevents
    | true =>
      rw [hpending, if_pos rfl] at hevents
      rw [if_pos rfl]
      cases hbefore : eventsOf x before with
      | nil =>
        rw [hbefore] at hevents
        cases (List.cons.inj hevents).1
      | cons ev l =>
        rw [hbefore] at hevents
        obtain ⟨rfl, hrest⟩ := List.cons.inj hevents
        cases l with
        | nil => rfl
        | cons ev' l => simp at hrest

/-- The settled stay so. -/
theorem Paced.stays_gone (h : Paced config s a s' x events) (hd : s.drivers x ≠ none)
    (hpace : s.pace x = none) : s'.pace x = none := by
  cases h with
  | kept hsame => rw [hsame, hpace]
  | gone hgone => exact hgone
  | started hfresh => exact absurd hfresh hd
  | sent _ hsome | held _ hsome | flushed _ hsome => rw [hpace] at hsome; cases hsome
  | settled _ _ _ hgone => exact hgone

/-- Nothing is told of the progress of a task without a pace, and no flush spawned. -/
theorem Paced.silent (h : Paced config s a s' x events) (hpace : s.pace x = none) :
    (∀ ev ∈ events, ev.quiet) ∧ s'.timersOf x ⊆ s.timersOf x := by
  cases h with
  | kept _ hquiet htimers => exact ⟨hquiet, htimers ▸ List.Subset.refl _⟩
  | gone _ hquiet htimers => exact ⟨hquiet, htimers⟩
  | started _ _ hquiet htimers => exact ⟨hquiet, htimers ▸ List.Subset.refl _⟩
  | sent _ hsome | held _ hsome | flushed _ hsome | settled _ hsome =>
    rw [hpace] at hsome
    cases hsome

/-- **Every step keeps the history of every task.** -/
theorem Recorded.step (h : Recorded config m) (hstep : meteredStep config m a = some m') :
    Recorded config m' := by
  obtain ⟨hs, hreports, htimes⟩ := meteredStep_eq hstep
  have hstepped := step_cases hs
  obtain ⟨events, hev, hpaced⟩ := hstepped.paces (Reaches.wf h.reaches)
  have hforward {x : TaskId} (hd : m.runtime.drivers x ≠ none) : m'.runtime.drivers x ≠ none := by
    obtain ⟨d, hd⟩ := Option.ne_none_iff_exists'.mp hd
    obtain ⟨d', hd', -⟩ := hstepped.driver_forward hd
    rw [hd']
    exact Option.some_ne_none d'
  -- What there is to say of an end that is told now.
  have hnew {x : TaskId} {before after : List Sent} {sent : Sent} {st : TaskState}
      (hsplit : events.map (Sent.mk m.runtime.now) = before ++ sent :: after)
      (hsent : sent.event = .stateChanged x st) (hst : st.isTerminal) :
      ∃ q, a = .drive x ∧ m.runtime.pace x = some q ∧ m'.runtime.pace x = none ∧
        progressesOf x (before.map Sent.event) =
          if q.throttle.pending then [q.progress] else [] := by
    have hevents : events = before.map Sent.event ++ .stateChanged x st :: after.map Sent.event := by
      have hmap := congrArg (List.map Sent.event) hsplit
      rwa [List.map_map, show events.map (Sent.event ∘ Sent.mk m.runtime.now) = events from
        List.map_id' events, List.map_append, List.map_cons, hsent] at hmap
    exact (hevents ▸ hpaced x).settles_of_terminal hst
  refine ⟨.tail h.reaches trivial hs, fun x hfresh => ?_,
    fun x q => h.throttled_step hstep hev (hpaced x), fun x sent st hmem hsent hst => ?_, ?_⟩
  · have hfresh₀ : m.runtime.drivers x = none := by
      by_contra hd
      exact hforward hd hfresh
    obtain ⟨hreports₀, htimes₀, htimers₀⟩ := h.fresh x hfresh₀
    have hnone : m.runtime.pace x = none := by
      by_contra hne
      obtain ⟨q, hq⟩ := Option.ne_none_iff_exists'.mp hne
      exact h.driver_of_pace hq hfresh₀
    obtain ⟨hquiet, htimers⟩ := (hpaced x).silent hnone
    refine ⟨by rw [hreports, hnone, hreports₀]; rfl, ?_, ?_⟩
    · rw [htimes events hev, htimes₀, progressesOf_quiet hquiet]
      exact ite_self _
    · rw [htimers₀] at htimers
      exact List.subset_nil.mp htimers
  · rw [hev] at hmem
    rcases List.mem_append.mp hmem with hold | hnow
    · obtain ⟨hd, hpace⟩ := h.gone x sent st hold hsent hst
      exact ⟨hforward hd, (hpaced x).stays_gone hd hpace⟩
    · obtain ⟨before, after, hsplit⟩ := List.append_of_mem hnow
      obtain ⟨q, -, hpace, hgone, -⟩ := hnew hsplit hsent hst
      exact ⟨hforward (h.driver_of_pace hpace), hgone⟩
  · intro x before sent after st hsplit hsent hst p hp
    -- An end told before, or now.
    have hcases : (∃ rest, m.runtime.events = before ++ sent :: rest) ∨
        ∃ told, before = m.runtime.events ++ told ∧
          events.map (Sent.mk m.runtime.now) = told ++ sent :: after := by
      rw [hev] at hsplit
      rcases List.append_eq_append_iff.mp hsplit with ⟨told, hbefore, hnow⟩ | ⟨rest, hold, hnow⟩
      · exact .inr ⟨told, hbefore, hnow⟩
      · cases rest with
        | nil => exact .inr ⟨[], by simpa using hold.symm, by simpa using hnow.symm⟩
        | cons first rest =>
          obtain ⟨rfl, -⟩ := List.cons.inj hnow
          exact .inl ⟨rest, hold⟩
    rcases hcases with ⟨rest, hold⟩ | ⟨told, rfl, hnow⟩
    · have hmem : sent ∈ m.runtime.events := by
        rw [hold]
        exact List.mem_append_right _ List.mem_cons_self
      have hpace := (h.gone x sent st hmem hsent hst).2
      rw [hreports, hpace, Option.isSome_none, if_neg Bool.false_ne_true] at hp
      exact h.ended x before sent rest st hold hsent hst p hp
    · obtain ⟨q, rfl, hpace, -, hprogress⟩ := hnew hnow hsent hst
      have hq := h.throttled x q hpace
      have hreport : (Action.drive x : Action Output).reportOf x = none := rfl
      rw [hreports, hreport, Option.toList_none, List.append_nil, ite_self] at hp
      rw [lastProgress, List.map_append, progressesOf_append, hprogress, List.getLast?_append,
        hq.latest p hp |>.symm]
      cases hpending : q.throttle.pending with
      | true => rfl
      | false =>
        refine hq.told hpending fun hnone => ?_
        rw [hnone] at hp
        cases hp

theorem Recorded.reached (h : Steps (meteredStep config) anyMetered .init m) : Recorded config m :=
  h.invariant (fun _ _ _ hm _ hstep => hm.step hstep) .init

/-! ### No progress is lost -/

/-- **No progress is lost.**  Of a task that has not settled: progress that is held back
has a flush to come; with none to come, the last progress sent is the latest reported.
And before its end is told, the latest reported has been sent. -/
theorem progress_is_never_lost (h : Steps (meteredStep config) anyMetered .init m) :
    (∀ x e, m.runtime.registry.entry x = some e → e.live = true →
      (e.throttle.pending → e.throttle.flushScheduled ∧ ∃ due, (x, due) ∈ m.runtime.timers) ∧
      (e.throttle.flushScheduled = false → m.reports x ≠ [] →
        lastProgress x m.runtime.events = some e.info.progress) ∧
      ∀ p, (m.reports x).getLast? = some p → e.info.progress = p) ∧
    ∀ x before sent after st, m.runtime.events = before ++ sent :: after →
      sent.event = .stateChanged x st → st.isTerminal →
      ∀ p, (m.reports x).getLast? = some p → lastProgress x before = some p := by
  have hm := Recorded.reached h
  refine ⟨fun x e he hlive => ?_, hm.ended⟩
  have hq := hm.throttled x _ (State.pace_eq_some.mpr ⟨e, he, hlive, rfl⟩)
  refine ⟨fun hpending => ⟨hq.scheduled hpending, ?_⟩, fun hnone hne => ?_, hq.latest⟩
  · have htimers := hq.timers
    rw [if_pos (hq.scheduled hpending)] at htimers
    obtain ⟨due, t, hdues, -⟩ := htimers
    exact ⟨due, State.mem_timersOf.mp (hdues ▸ List.mem_singleton_self due)⟩
  · refine hq.told ?_ hne
    cases hpending : e.throttle.pending with
    | false => rfl
    | true =>
      have hflush : e.throttle.flushScheduled = true := hq.scheduled hpending
      rw [hnone] at hflush
      cases hflush

/-! ### Progress at intervals -/

theorem spaced_concat {interval : Nat} {times : List Instant} {now : Instant} :
    Spaced interval (times ++ [now]) ↔
      Spaced interval times ∧ ∀ last, times.getLast? = some last → last + interval ≤ now := by
  rw [Spaced, List.isChain_append]
  simp [Spaced]

theorem overtaken_eq_true : m.runtime.overtaken config x = true ↔
    ∃ q due last, m.runtime.pace x = some q ∧ q.throttle.pending = true ∧
      due ∈ m.runtime.timersOf x ∧ q.throttle.lastSent = some last ∧ due ≤ last ∧
      m.runtime.now < last + config.progressInterval := by
  rw [State.overtaken]
  cases m.runtime.pace x with
  | none => simp
  | some q =>
    cases hlast : q.throttle.lastSent <;> simp [hlast]

theorem overtaken_eq_false (h : ∀ q, m.runtime.pace x = some q → q.throttle.pending = false) :
    m.runtime.overtaken config x = false := by
  rw [← Bool.not_eq_true, overtaken_eq_true]
  rintro ⟨q, _, _, hpace, hpending, -⟩
  rw [h q hpace] at hpending
  cases hpending

/-- A flush that sends progress comes an interval after the last unless it was
overtaken. -/
theorem Throttled.in_time_iff (h : Throttled config m x q) (hpace : m.runtime.pace x = some q)
    (hpending : q.throttle.pending = true) {due : Instant} (htimer : due ∈ m.runtime.timersOf x)
    (hover : due ≤ m.runtime.now) :
    (∀ last, (m.times x).getLast? = some last →
      last + config.progressInterval ≤ m.runtime.now) ↔ m.runtime.overtaken config x = false := by
  have htimers := h.timers
  rw [if_pos (h.scheduled hpending)] at htimers
  obtain ⟨due', t, hdues, ht, hcase⟩ := htimers
  obtain rfl : due = due' := by simpa [hdues] using htimer
  rw [← h.last, ht]
  constructor
  · intro hlater
    rw [← Bool.not_eq_true, overtaken_eq_true]
    rintro ⟨q', _, last, hpace', -, -, hlast, -, hsoon⟩
    obtain rfl := Option.some.inj (hpace.symm.trans hpace')
    obtain rfl := Option.some.inj (ht.symm.trans hlast)
    exact absurd (hlater t rfl) (Nat.not_le_of_lt hsoon)
  · rintro hnot last hlast
    obtain rfl := Option.some.inj hlast
    rcases hcase with rfl | hcase
    · exact hover
    · by_contra hsoon
      rw [← Bool.not_eq_true, overtaken_eq_true] at hnot
      exact hnot ⟨q, due, t, hpace, hpending, htimer, ht, hcase, Nat.lt_of_not_le hsoon⟩

/-- What a step adds to the times of one task. -/
theorem Recorded.times_step (h : Recorded config m) (hstep : meteredStep config m a = some m')
    (hev : m'.runtime.events = m.runtime.events ++ events.map (Sent.mk m.runtime.now))
    (hpaced : Paced config m.runtime a m'.runtime x (eventsOf x events)) :
    m'.times x = m.times x ∧ (a = .flush x → m.runtime.overtaken config x = false) ∨
    m'.times x = m.times x ++ [m.runtime.now] ∧
      ((∀ last, (m.times x).getLast? = some last →
          last + config.progressInterval ≤ m.runtime.now) ↔
        (a = .flush x → m.runtime.overtaken config x = false)) := by
  obtain ⟨-, -, htimes⟩ := meteredStep_eq hstep
  have htimes := htimes events hev x
  have hsilent (hquiet : ∀ ev ∈ eventsOf x events, ev.quiet) : m'.times x = m.times x := by
    rw [htimes, progressesOf_quiet hquiet, List.map_nil, List.append_nil, ite_self]
  have hunrelated (hother : a.paces x = false) (ha : a = .flush x) :
      m.runtime.overtaken config x = false := by
    rw [ha] at hother
    exact absurd rfl (of_decide_eq_false hother)
  cases hpaced with
  | kept _ hquiet _ hother => exact .inl ⟨hsilent hquiet, hunrelated hother⟩
  | started _ _ hquiet _ hother => exact .inl ⟨hsilent hquiet, hunrelated hother⟩
  | gone _ hquiet _ hother =>
    refine .inl ⟨hsilent hquiet, fun ha => ?_⟩
    rcases hother with hnone | hother
    · refine overtaken_eq_false fun q hpace => ?_
      rw [hnone] at hpace
      cases hpace
    · exact hunrelated hother ha
  | @sent q p ha hpace hdue _ hevents _ hsettles =>
    have hq := h.throttled x q hpace
    have hprogress : progressesOf x events = [p] := by rw [progressesOf, hevents]; rfl
    rw [if_pos hsettles, hprogress] at htimes
    have hlater := Throttle.due_eq_true hdue hq.past
    rw [hq.last] at hlater
    refine .inr ⟨htimes, iff_of_true hlater ?_⟩
    rw [ha]
    nofun
  | held ha _ _ _ hevents =>
    refine .inl ⟨hsilent (by rw [hevents]; exact List.forall_mem_nil _), ?_⟩
    rw [ha]
    nofun
  | @flushed q due ha hpace htimer hover _ _ hevents hsettles =>
    cases hpending : q.throttle.pending with
    | false =>
      rw [hpending, if_neg Bool.false_ne_true] at hevents
      refine .inl ⟨hsilent (by rw [hevents]; exact List.forall_mem_nil _), fun _ => ?_⟩
      refine overtaken_eq_false fun q' hpace' => ?_
      obtain rfl := Option.some.inj (hpace.symm.trans hpace')
      exact hpending
    | true =>
      rw [hpending, if_pos rfl] at hevents
      have hprogress : progressesOf x events = [q.progress] := by rw [progressesOf, hevents]; rfl
      rw [if_pos hsettles, hprogress] at htimes
      refine .inr ⟨htimes, ?_⟩
      rw [(h.throttled x q hpace).in_time_iff hpace hpending htimer hover]
      exact ⟨fun hnot _ => hnot, fun hnot => hnot ha⟩
  | settled ha _ _ _ _ hsettles =>
    rw [if_neg (by simp [hsettles])] at htimes
    refine .inl ⟨htimes, ?_⟩
    rw [ha]
    nofun

/-- **A step keeps the times apart exactly if it is no flush that was overtaken.** -/
theorem Recorded.spaced_step (h : Recorded config m) (hstep : meteredStep config m a = some m')
    (hspaced : ∀ x, Spaced config.progressInterval (m.times x)) :
    (∀ x, Spaced config.progressInterval (m'.times x)) ↔ InOrder config m a := by
  obtain ⟨hs, -, -⟩ := meteredStep_eq hstep
  obtain ⟨events, hev, hpaced⟩ := (step_cases hs).paces (Reaches.wf h.reaches)
  have hone (x : TaskId) : Spaced config.progressInterval (m'.times x) ↔
      (a = .flush x → m.runtime.overtaken config x = false) := by
    rcases h.times_step hstep hev (hpaced x) with ⟨hsame, hnot⟩ | ⟨hmore, hiff⟩
    · rw [hsame]
      exact iff_of_true (hspaced x) hnot
    · rw [hmore, spaced_concat, and_iff_right (hspaced x), hiff]
  simp only [hone]
  cases a with
  | flush y =>
    constructor
    · intro hall
      exact hall y rfl
    · rintro hnot x hx
      cases hx
      exact hnot
  | _ => exact iff_of_true nofun trivial

/-- **Progress is sent at intervals exactly as long as no flush runs that was
overtaken**: in every run without one the times of each task's progress are an interval
apart, and the first that runs brings two of them closer. -/
theorem progress_spaced_iff (h : Steps (meteredStep config) (InOrder config) .init m) :
    (∀ x, Spaced config.progressInterval (m.times x)) ∧
    ∀ a m', meteredStep config m a = some m' →
      ((∀ x, Spaced config.progressInterval (m'.times x)) ↔ InOrder config m a) := by
  have hkept {m : Metered Output} (h : Steps (meteredStep config) (InOrder config) .init m) :
      Recorded config m := Recorded.reached (h.mono fun _ _ _ => trivial)
  have hspaced : ∀ x, Spaced config.progressInterval (m.times x) := by
    have hstart : ∀ x, Spaced config.progressInterval ((Metered.init : Metered Output).times x) :=
      fun _ => List.IsChain.nil
    exact h.invariant_from (I := fun m => ∀ x, Spaced config.progressInterval (m.times x)) hstart
      fun u a v hu hI hok hstep => ((hkept hu).spaced_step hstep hI).mpr hok
  exact ⟨hspaced, fun a m' hstep => (hkept h).spaced_step hstep hspaced⟩

/-! ### Runs -/

/-- A root's body begins. -/
def bodyBegins : List (Action Nat) :=
  [.submit ⟨1⟩ ⟨⟨"list", [], .interactive⟩, []⟩ 0, .drive ⟨1⟩, .drive ⟨1⟩, .drive ⟨1⟩,
    .runReturns ⟨1⟩]

/-- The body reports that many items. -/
def reportItems (n : Nat) : Action Nat := .progress ⟨1⟩ ⟨none, .items n none⟩

/-- Two reports fifty milliseconds apart, and the flush of the second on its time. -/
def flushedInTime : Metered Nat :=
  runs (meteredStep .default) (InOrder .default) .init
    (bodyBegins ++ [reportItems 1, .tick 50000000 0, reportItems 2, .tick 50000000 0, .flush ⟨1⟩])

theorem flushed_in_time_spaced : flushedInTime.times ⟨1⟩ = [0, 100000000] ∧
    Spaced Config.default.progressInterval (flushedInTime.times ⟨1⟩) :=
  ⟨by decide, (@progress_spaced_iff _ .default _ (steps_runs _ _)).1 ⟨1⟩⟩

/-- The body ends while its second report is held back. -/
def endedHeldBack : Metered Nat :=
  runs (meteredStep .default) anyMetered .init
    (bodyBegins ++ [reportItems 1, .tick 50000000 0, reportItems 2, .bodyEnds ⟨1⟩ (.ok 0),
      .drive ⟨1⟩, .drive ⟨1⟩, .drive ⟨1⟩, .drive ⟨1⟩, .drive ⟨1⟩])

/-- The second report is sent before the end. -/
theorem held_back_is_sent :
    lastProgress ⟨1⟩ endedHeldBack.runtime.events.dropLast = some ⟨none, .items 2 none⟩ := by
  have hsplit : endedHeldBack.runtime.events = endedHeldBack.runtime.events.dropLast ++
      ⟨50000000, .stateChanged ⟨1⟩ .succeeded⟩ :: [] := by decide
  exact (@progress_is_never_lost _ .default _ (steps_runs _ _)).2 ⟨1⟩ _ _ _ _ hsplit rfl rfl _
    (by decide)

/-- The flush of the second report comes thirty milliseconds late: the third report has
overtaken it, and the fourth is held back. -/
def overtakenFlush : Metered Nat :=
  runs (meteredStep .default) anyMetered .init
    (bodyBegins ++ [reportItems 1, .tick 50000000 0, reportItems 2, .tick 70000000 0,
      reportItems 3, .tick 5000000 0, reportItems 4, .tick 5000000 0, .flush ⟨1⟩])

theorem overtaken_flush_too_soon :
    ¬ ∀ (m : Metered Nat) (x : TaskId), Steps (meteredStep .default) anyMetered .init m →
      Spaced Config.default.progressInterval (m.times x) := by
  intro h
  have hspaced := h overtakenFlush ⟨1⟩ (steps_runs _ _)
  rw [show overtakenFlush.times ⟨1⟩ = [0, 120000000] ++ [130000000] by decide,
    spaced_concat] at hspaced
  exact absurd (hspaced.2 120000000 rfl) (by decide)

end FilePeeker
