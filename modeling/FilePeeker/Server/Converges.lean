import FilePeeker.Server.WatchStream

/-!
# A drained stream shows the tasks as they are

The forwarder says of every change only that a task changed, and looks the task
up when it gets to it.  `Following` is the invariant that makes this enough: of
every retained task, either the forwarder has an event still to come to, or the
events it has produced show the task as it is, but for progress the runtime
holds back (`TaskInfo.Current`).  A drained forwarder has no event to come to.

A task evicted before the forwarder looks it up is passed over, and the client
keeps what it was shown last (`finished_task_left_running`).
-/

namespace FilePeeker

variable {Output : Type} {config : Config} {capacity : Nat} {s s' : State Output}
  {st st' : WatchStream} {w w' : Watch Output} {x : TaskId} {a : Action Output}

/-- The task as it is now, but for progress that is held back. -/
def TaskInfo.Current (info : TaskInfo) (v : View) : Prop :=
  info = v.info ∨ v.pending = true ∧ { info with progress := v.info.progress } = v.info

/-- The forwarder is yet to look at the task. -/
def WatchStream.Ahead (st : WatchStream) (s : State Output) (x : TaskId) : Prop :=
  st.pc = .lookup x ∨ Unread s.events st.next fun sent => taskOf sent.event = x

/-- Past a snapshot, and before the last one. -/
def ForwardPc.following : ForwardPc → Bool
  | send _ | select | lookup _ => true
  | _ => false

/-- The forwarder is behind on no task it will not come to. -/
structure Following (s : State Output) (st : WatchStream) : Prop where
  next : st.next ≤ s.events.length
  fresh : st.pc.following = true → ∀ x v, s.view x = some v →
    st.Ahead s x ∨ ∃ info, watchFeed.copyOf st.produced x = some info ∧ info.Current v

theorem State.task_of_view {v : View} (h : s.view x = some v) :
    s.registry.task x = some v.info := by
  obtain ⟨e, he, rfl⟩ := Option.map_eq_some_iff.mp h
  rw [Registry.task, he]
  rfl

theorem State.view_of_task {info : TaskInfo} (h : s.registry.task x = some info) :
    ∃ p, s.view x = some ⟨info, p⟩ := by
  obtain ⟨e, he, rfl⟩ := Option.map_eq_some_iff.mp h
  exact ⟨e.throttle.pending, by rw [State.view, he]; rfl⟩

/-- What a step of the runtime sends about a task is ahead of every forwarder. -/
theorem WatchStream.Ahead.of_sent {events : List TaskEvent} (hnext : st.next ≤ s.events.length)
    (hev : s'.events = s.events ++ events.map (Sent.mk s.now)) (hx : eventsOf x events ≠ []) :
    st.Ahead s' x := by
  obtain ⟨sent, hsent, habout⟩ := exists_sent_about s.now hx
  refine .inr ?_
  rw [hev]
  exact .of_mem hnext hsent habout

theorem WatchStream.Ahead.append {events : List TaskEvent} (h : st.Ahead s x)
    (hev : s'.events = s.events ++ events.map (Sent.mk s.now)) : st.Ahead s' x := by
  rcases h with hpc | hunread
  · exact .inl hpc
  · refine .inr ?_
    rw [hev]
    exact hunread.append

theorem Stepped.following (h : Stepped config s a s') (hwf : Wf config s)
    (hf : Following s st) : Following s' st := by
  obtain ⟨events, hev, hshown⟩ := h.shown hwf
  have hlen : s.events.length ≤ s'.events.length := by
    rw [hev, List.length_append]
    exact Nat.le_add_right _ _
  refine ⟨Nat.le_trans hf.next hlen, fun hpc x v hv => ?_⟩
  have hx := hshown x
  by_cases hnil : eventsOf x events = []
  · rw [hnil, hv] at hx
    obtain ⟨u, hu, hsame⟩ := hx.silent
    rcases hf.fresh hpc x u hu with hahead | ⟨info, hcopy, hcur⟩
    · exact .inl (hahead.append hev)
    · refine .inr ⟨info, hcopy, ?_⟩
      rcases hsame with rfl | ⟨hp, hprogress⟩
      · exact hcur
      · -- progress held back over what was current
        refine .inr ⟨hp, ?_⟩
        rcases hcur with rfl | ⟨_, hinfo⟩
        · exact hprogress
        · rw [← hprogress, ← hinfo]
  · exact .inl (.of_sent hf.next hev hnil)

theorem copyOf_changed {l : List ServerEvent} {info : TaskInfo} (hx : info.id ≠ x) :
    watchFeed.copyOf (l ++ [.changed info]) x = watchFeed.copyOf l x := by
  rw [Feed.copyOf_push]
  exact watchFeed.apply_of_not_shows rfl (if_neg hx)

/-- **A move on the stream leaves no task behind.** -/
theorem Forwards.following (h : Forwards s st st') (hwf : Wf config s) (hf : Following s st) :
    Following s st' := by
  cases h with
  | same hpc' hn hp =>
    refine ⟨hn ▸ hf.next, fun hpc x v hv => ?_⟩
    rw [WatchStream.Ahead, hpc', hn, hp]
    exact hf.fresh (hpc' ▸ hpc) x v hv
  | subscribed hpc hpc' hn hp => exact ⟨by omega, by rw [hpc']; nofun⟩
  | read hpc hpc' hn hp =>
    refine ⟨hn ▸ hf.next, fun _ x v hv => .inr ⟨v.info, ?_, .inl rfl⟩⟩
    rw [hp, Feed.copyOf_push]
    exact watchFeed.apply_of_shows ((hwf.shows_snapshot x).trans (State.task_of_view hv))
  | sent hpc hpc' hn hp =>
    refine ⟨hn ▸ hf.next, fun _ x v hv => ?_⟩
    rw [hp]
    refine (hf.fresh (by rw [hpc]; rfl) x v hv).imp_left fun hahead => .inr ?_
    rcases hahead with hat | hunread
    · rw [hpc] at hat; cases hat
    · exact hn ▸ hunread
  | @value change hpc hchange hpc' hn hp =>
    obtain ⟨hlt, _⟩ := List.getElem?_eq_some_iff.mp hchange
    refine ⟨by omega, fun _ x v hv => ?_⟩
    rw [hp]
    refine (hf.fresh (by rw [hpc]; rfl) x v hv).imp_left fun hahead => ?_
    rcases hahead with hat | hunread
    · rw [hpc] at hat; cases hat
    · rcases hunread.of_value hchange with rfl | hunread
      · exact .inl hpc'
      · exact .inr (hn ▸ hunread)
  | lagged hpc hpc' hn hp => exact ⟨hn, by rw [hpc']; nofun⟩
  | @missing y hpc htask hpc' hn hp =>
    refine ⟨hn ▸ hf.next, fun _ x v hv => ?_⟩
    rw [hp]
    refine (hf.fresh (by rw [hpc]; rfl) x v hv).imp_left fun hahead => .inr ?_
    rcases hahead with hat | hunread
    · rw [hpc] at hat
      cases hat
      rw [State.task_of_view hv] at htask
      cases htask
    · exact hn ▸ hunread
  | @found y info hpc htask hpc' hn hp =>
    refine ⟨hn ▸ hf.next, fun _ x v hv => ?_⟩
    rw [hp]
    by_cases hx : info.id = x
    · rw [hwf.id_of_task htask] at hx
      subst hx
      rw [State.task_of_view hv] at htask
      cases htask
      refine .inr ⟨v.info, ?_, .inl rfl⟩
      rw [Feed.copyOf_push]
      exact watchFeed.apply_of_shows (if_pos (hwf.id_of_task (State.task_of_view hv)))
    · rw [copyOf_changed hx]
      refine (hf.fresh (by rw [hpc]; rfl) x v hv).imp_left fun hahead => .inr ?_
      rcases hahead with hat | hunread
      · rw [hpc] at hat
        cases hat
        exact absurd (hwf.id_of_task htask) hx
      · exact hn ▸ hunread
  | readLast hpc hpc' hn hp => exact ⟨hn ▸ hf.next, by rw [hpc']; nofun⟩
  | ended hpc' hn hp =>
    refine ⟨hn ▸ hf.next, ?_⟩
    rcases hpc' with hpc' | hpc' <;> rw [hpc'] <;> nofun

/-- What holds of a watched runtime in every run. -/
structure Watched (config : Config) (w : Watch Output) : Prop where
  reaches : Reaches config anyRun w.runtime
  ok : w.stream.Ok
  following : Following w.runtime w.stream

theorem Watched.init : Watched config (Watch.init : Watch Output) where
  reaches := .refl _
  ok := .open
  following := ⟨Nat.le_refl _, nofun⟩

theorem watchStep_ok {w w' : Watch Output} {a : WatchAction Output}
    (h : watchStep config capacity w a = some w') (hok : w.stream.Ok) : w'.stream.Ok := by
  cases a with
  | runtime action =>
    obtain ⟨s', _, rfl⟩ := Option.map_eq_some_iff.mp h
    exact hok
  | close => cases h; exact hok
  | stream action =>
    obtain ⟨st', hst', rfl⟩ := Option.map_eq_some_iff.mp h
    exact hok.step hst'

theorem watchStep_reaches {w w' : Watch Output} {a : WatchAction Output}
    (h : watchStep config capacity w a = some w') (hr : Reaches config anyRun w.runtime) :
    Reaches config anyRun w'.runtime := by
  cases a with
  | runtime action =>
    obtain ⟨s', hs', rfl⟩ := Option.map_eq_some_iff.mp h
    exact .tail hr trivial hs'
  | close => cases h; exact hr
  | stream action =>
    obtain ⟨st', _, rfl⟩ := Option.map_eq_some_iff.mp h
    exact hr

theorem Watched.step {a : WatchAction Output} (hw : Watched config w)
    (h : watchStep config capacity w a = some w') : Watched config w' where
  reaches := watchStep_reaches h hw.reaches
  ok := watchStep_ok h hw.ok
  following := by
    have hwf := Reaches.wf hw.reaches
    rcases watchStep_cases h with ⟨a, hst, hsame⟩ | ⟨hsame, hforwards⟩
    · rw [hsame]
      exact hst.following hwf hw.following
    · rw [hsame]
      exact hforwards.following hwf hw.following

theorem Steps.watched {ok : Watch Output → WatchAction Output → Prop}
    (h : Steps (watchStep config capacity) ok .init w) : Watched config w :=
  h.invariant (fun _ _ _ hu _ hstep => hu.step hstep) .init

/-- Everything a drained stream produced has been applied. -/
theorem Watched.copy_of_drained (h : Watched config w) (hd : w.Drained) :
    w.stream.copy = watchFeed.copyOf w.stream.produced := by
  rw [h.ok.copy, WatchStream.produced_of_quiet (by rw [hd.pc]; rfl), h.ok.queue hd.attached,
    hd.queue, List.append_nil]

/-- **A drained stream has converged**: of every task still retained the client
holds what the runtime knows of it now, but for progress the runtime holds back,
and shows it as finished only if it is. -/
theorem drained_watch_is_current (h : Steps (watchStep config capacity) anyWatch .init w)
    (hd : w.Drained) :
    (∀ x v info, w.runtime.view x = some v → w.stream.copy x = some info → info.Current v) ∧
    (∀ x v, w.runtime.view x = some v → ∃ info, w.stream.copy x = some info) ∧
    ∀ x v info, w.runtime.view x = some v → w.stream.copy x = some info →
      info.state = v.info.state := by
  have hw : Watched config w := Steps.watched h
  have hheld : ∀ x v, w.runtime.view x = some v →
      ∃ info, w.stream.copy x = some info ∧ info.Current v := by
    intro x v hv
    rw [hw.copy_of_drained hd]
    refine (hw.following.fresh (by rw [hd.pc]; rfl) x v hv).resolve_left ?_
    rintro (hpc | hunread)
    · rw [hd.pc] at hpc; cases hpc
    · exact not_unread (Nat.le_of_eq hd.next.symm) hunread
  have hcurrent : ∀ x v info, w.runtime.view x = some v → w.stream.copy x = some info →
      info.Current v := by
    intro x v info hv hcopy
    obtain ⟨info', hcopy', hcur⟩ := hheld x v hv
    rw [hcopy] at hcopy'
    cases hcopy'
    exact hcur
  refine ⟨hcurrent, fun x v hv => ?_, fun x v info hv hcopy => ?_⟩
  · obtain ⟨info, hcopy, _⟩ := hheld x v hv
    exact ⟨info, hcopy⟩
  · rcases hcurrent x v info hv hcopy with rfl | ⟨_, hinfo⟩
    · rfl
    · rw [← hinfo]

/-- A root that runs, watched by a client that has applied the snapshot. -/
def watchedRoot (config : Config) : Watch Nat :=
  Watch.init.run config 1024
    [.runtime (.submit ⟨1⟩ ⟨⟨"list", [], .interactive⟩, []⟩ 0), .runtime (.drive ⟨1⟩),
      .runtime (.drive ⟨1⟩), .runtime (.drive ⟨1⟩), .runtime (.runReturns ⟨1⟩), .stream .forward,
      .stream .forward, .stream .forward, .stream .receive, .stream .receive]

/-- It reports progress, which is sent and forwarded. -/
def progressForwarded : Watch Nat :=
  (watchedRoot .default).run .default 1024
    [.runtime (.progress ⟨1⟩ ⟨none, .items 1 none⟩), .stream .forward, .stream .forward,
      .stream .forward, .stream .receive]

/-- It reports progress again at once, which is held back. -/
def progressHeldBack : Watch Nat :=
  progressForwarded.run .default 1024 [.runtime (.progress ⟨1⟩ ⟨none, .items 2 none⟩)]

theorem reaches_progressForwarded :
    Steps (watchStep .default 1024) anyWatch .init progressForwarded :=
  (Watch.steps_run _ _ _ _).trans (Watch.steps_run _ _ _ _)

theorem reaches_progressHeldBack :
    Steps (watchStep .default 1024) anyWatch .init progressHeldBack :=
  reaches_progressForwarded.trans (Watch.steps_run _ _ _ _)

theorem progressHeldBack_drained : progressHeldBack.Drained :=
  ⟨by decide, by decide, by decide, by decide⟩

theorem held_back_progress_is_current :
    ((progressHeldBack.stream.copy ⟨1⟩).get (by decide)).Current
      ((progressHeldBack.runtime.view ⟨1⟩).get (by decide)) :=
  (drained_watch_is_current reaches_progressHeldBack progressHeldBack_drained).1 ⟨1⟩ _ _ (by simp)
    (by simp)

/-- A policy that keeps no settled root. -/
def keepsNone : Config := { Config.default with retainedRoots := 0 }

/-- The root ends and is evicted, and then the forwarder gets to its end. -/
def evictedUnseen : Watch Nat :=
  (watchedRoot keepsNone).run keepsNone 1024
    [.runtime (.bodyEnds ⟨1⟩ (.ok 0)), .runtime (.drive ⟨1⟩), .runtime (.drive ⟨1⟩),
      .runtime (.drive ⟨1⟩), .runtime (.drive ⟨1⟩), .runtime (.drive ⟨1⟩), .stream .forward,
      .stream .forward]

theorem finished_task_left_running :
    (¬ ∀ (w : Watch Nat) (x : TaskId) (v : View) (info : TaskInfo),
      Steps (watchStep .default 1024) anyWatch .init w → w.Drained →
      w.runtime.view x = some v → w.stream.copy x = some info → info = v.info) ∧
    ¬ ∀ (w : Watch Nat) (x : TaskId) (info : TaskInfo),
      Steps (watchStep keepsNone 1024) anyWatch .init w → w.Drained →
      w.stream.copy x = some info → info.state.isTerminal = false →
      ∃ v, w.runtime.view x = some v ∧ v.info.state.isTerminal = false := by
  constructor
  · intro h
    have heq := h progressHeldBack ⟨1⟩ ((progressHeldBack.runtime.view ⟨1⟩).get (by decide))
      ((progressHeldBack.stream.copy ⟨1⟩).get (by decide)) reaches_progressHeldBack
      progressHeldBack_drained (by simp) (by simp)
    exact absurd heq (by decide)
  · intro h
    obtain ⟨v, hv, _⟩ := h evictedUnseen ⟨1⟩ ((evictedUnseen.stream.copy ⟨1⟩).get (by decide))
      ((Watch.steps_run _ _ _ _).trans (Watch.steps_run _ _ _ _))
      ⟨by decide, by decide, by decide, by decide⟩ (by simp) (by decide)
    have hgone : evictedUnseen.runtime.view ⟨1⟩ = none := by decide
    rw [hgone] at hv
    cases hv

end FilePeeker
