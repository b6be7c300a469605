import FilePeeker.Server.Converges
import FilePeeker.Task.Family

/-!
# The times a stream shows

Every message on a stream shows the registry as it was when the forwarder read
it: `Stamped` gives each its time, a place in the run, and the times only go
forward.  `Reflected` is about what happens after the first of them: a change to
a task is shown by a message read after it, or the forwarder is still to look,
or the change is progress that is held back even now.

A task's rank only grows in the runtime, so it only grows in a client's copy.
-/

namespace FilePeeker

variable {Output : Type} {config : Config} {capacity : Nat} {s s' : State Output}
  {st st' : WatchStream} {w w' u : Watch Output} {x : TaskId} {a : Action Output}
  {past hist : List (Watch Output)} {times : List Nat} {messages : List ServerEvent}
  {before : Option TaskInfo} {after : TaskInfo} {k : Nat}

/-! ### Messages and their times -/

/-- A message that shows exactly what a registry holds. -/
def ServerEvent.Exact : ServerEvent → Registry → Prop
  | .hello, _ => False
  | .snapshot tasks, reg => tasks = reg.tasks
  | .changed task, reg => reg.task task.id = some task

instance (reg : Registry) : (m : ServerEvent) → Decidable (m.Exact reg)
  | .hello => .isFalse id
  | .snapshot tasks => inferInstanceAs (Decidable (tasks = reg.tasks))
  | .changed task => inferInstanceAs (Decidable (reg.task task.id = some task))

/-- The times of a stream's messages: each shows the registry of the state the
run was in then. -/
structure Stamped (hist : List (Watch Output)) (times : List Nat) (messages : List ServerEvent) :
    Prop where
  sorted : times.Pairwise (· ≤ ·)
  bound : ∀ t ∈ times, t < hist.length
  exact : List.Forall₂ (fun t m => ∃ u, hist[t]? = some u ∧ ServerEvent.Exact m u.runtime.registry)
    times messages

theorem Stamped.grow (h : Stamped hist times messages) : Stamped (hist ++ [w]) times messages where
  sorted := h.sorted
  bound t ht := by
    rw [List.length_append]
    exact Nat.lt_add_right _ (h.bound t ht)
  exact := h.exact.imp fun t m ⟨u, hu, hm⟩ =>
    ⟨u, by rw [List.getElem?_append_left (List.getElem?_eq_some_iff.mp hu).1, hu], hm⟩

/-- A message read in the last state. -/
theorem Stamped.push {m : ServerEvent} (h : Stamped (past ++ [w]) times messages)
    (hm : m.Exact w.runtime.registry) :
    Stamped (past ++ [w]) (times ++ [past.length]) (messages ++ [m]) where
  sorted := by
    refine List.pairwise_append.mpr ⟨h.sorted, List.pairwise_singleton _ _, fun t ht b hb => ?_⟩
    have hlt := h.bound t ht
    rw [List.mem_singleton.mp hb]
    simp only [List.length_append, List.length_singleton] at hlt
    omega
  bound t ht := by
    rcases List.mem_append.mp ht with ht | ht
    · exact h.bound t ht
    · rw [List.mem_singleton.mp ht]
      simp
  exact := List.rel_append h.exact (.cons ⟨w, by simp, hm⟩ .nil)

theorem Stamped.take {messages' : List ServerEvent} (h : Stamped hist times messages)
    (hpre : messages' <+: messages) : Stamped hist (times.take messages'.length) messages' where
  sorted := h.sorted.sublist (List.take_sublist _ _)
  bound t ht := h.bound t (List.mem_of_mem_take ht)
  exact := by
    have heq : messages.take messages'.length = messages' := (List.prefix_iff_eq_take.mp hpre).symm
    have htake := List.forall₂_take messages'.length h.exact
    rwa [heq] at htake

/-! ### Changes and the messages that show them -/

/-- In the `k`-th step of a run, what the registry holds of a task changes. -/
def Changes (hist : List (Watch Output)) (k : Nat) (x : TaskId) (before : Option TaskInfo)
    (after : TaskInfo) : Prop :=
  ∃ u u', hist[k]? = some u ∧ hist[k + 1]? = some u' ∧ u.runtime.registry.task x = before ∧
    u'.runtime.registry.task x = some after ∧ before ≠ some after

/-- A message read after the `k`-th step shows the task. -/
def Mentioned (times : List Nat) (messages : List ServerEvent) (x : TaskId) (k : Nat) : Prop :=
  ∃ (i t : Nat) (m : ServerEvent), times[i]? = some t ∧ messages[i]? = some m ∧ k < t ∧
    (watchFeed.shows m x).isSome = true

/-- The change is one of progress alone, and progress of the task is held back. -/
def HeldBack (s : State Output) (x : TaskId) (before : Option TaskInfo) (after : TaskInfo) : Prop :=
  ∃ v info, s.view x = some v ∧ v.pending = true ∧ before = some info ∧
    { info with progress := after.progress } = after

theorem changes_push (h : Changes (past ++ [w] ++ [w']) k x before after) :
    Changes (past ++ [w]) k x before after ∨
      k = past.length ∧ w.runtime.registry.task x = before ∧
        w'.runtime.registry.task x = some after ∧ before ≠ some after := by
  obtain ⟨u, u', hu, hu', hb, ha, hne⟩ := h
  have hlt : k + 1 < (past ++ [w] ++ [w']).length := (List.getElem?_eq_some_iff.mp hu').1
  simp only [List.length_append, List.length_singleton] at hlt
  rcases Nat.lt_or_ge (k + 1) (past ++ [w]).length with hin | hout
  · left
    rw [List.getElem?_append_left hin] at hu'
    rw [List.getElem?_append_left (by omega)] at hu
    exact ⟨u, u', hu, hu', hb, ha, hne⟩
  · right
    rw [List.length_append, List.length_singleton] at hout
    obtain rfl : k = past.length := by omega
    rw [List.getElem?_append_left (by simp), List.getElem?_concat_length] at hu
    rw [show past.length + 1 = (past ++ [w]).length by simp, List.getElem?_concat_length] at hu'
    cases hu
    cases hu'
    exact ⟨rfl, hb, ha, hne⟩

theorem Changes.lt (h : Changes (past ++ [w]) k x before after) : k < past.length := by
  obtain ⟨_, _, _, hu', _⟩ := h
  have hlt := (List.getElem?_eq_some_iff.mp hu').1
  simp only [List.length_append, List.length_singleton] at hlt
  omega

theorem Mentioned.push {t : Nat} {m : ServerEvent} (h : Mentioned times messages x k) :
    Mentioned (times ++ [t]) (messages ++ [m]) x k := by
  obtain ⟨i, t', m', ht, hm, hlt, hx⟩ := h
  refine ⟨i, t', m', ?_, ?_, hlt, hx⟩
  · rw [List.getElem?_append_left (List.getElem?_eq_some_iff.mp ht).1, ht]
  · rw [List.getElem?_append_left (List.getElem?_eq_some_iff.mp hm).1, hm]

/-- The message just read mentions what it shows. -/
theorem Stamped.mentioned {t : Nat} {m : ServerEvent} (h : Stamped hist times messages)
    (hlt : k < t) (hx : (watchFeed.shows m x).isSome = true) :
    Mentioned (times ++ [t]) (messages ++ [m]) x k :=
  ⟨times.length, t, m, by simp, by rw [h.exact.length_eq]; simp, hlt, hx⟩

/-- Behind on changes only as far as it is still to look. -/
def ForwardPc.tracking : ForwardPc → Bool
  | snapshot => true
  | pc => pc.following

/-- Every change since the first message was read is shown, or ahead, or held
back. -/
def Reflected (hist : List (Watch Output)) (times : List Nat) (messages : List ServerEvent)
    (s : State Output) (st : WatchStream) : Prop :=
  st.pc.tracking = true → ∀ k x before after t₁, times.head? = some t₁ → t₁ ≤ k →
    Changes hist k x before after → s.registry.task x ≠ none →
    Mentioned times messages x k ∨ st.pc = .snapshot ∨ st.Ahead s x ∨ HeldBack s x before after

theorem State.view_isSome : s.registry.task x ≠ none ↔ ∃ v, s.view x = some v := by
  constructor
  · intro h
    obtain ⟨info, hinfo⟩ := Option.ne_none_iff_exists'.mp h
    obtain ⟨p, hv⟩ := State.view_of_task hinfo
    exact ⟨_, hv⟩
  · rintro ⟨v, hv⟩
    rw [State.task_of_view hv]
    nofun

/-- **A step of the runtime leaves no change out.** -/
theorem Stepped.reflected (h : Stepped config w.runtime a w'.runtime)
    (hwf : Wf config w.runtime) (hst : w'.stream = w.stream)
    (hnext : w.stream.next ≤ w.runtime.events.length)
    (hr : Reflected (past ++ [w]) times messages w.runtime w.stream) :
    Reflected (past ++ [w] ++ [w']) times messages w'.runtime w'.stream := by
  obtain ⟨events, hev, hshown⟩ := h.shown hwf
  rw [hst]
  intro hpc k x before after t₁ ht₁ hle hchange hkept
  obtain ⟨v', hv'⟩ := State.view_isSome.mp hkept
  have hx := hshown x
  rw [hv'] at hx
  by_cases hnil : eventsOf x events = []
  · rw [hnil] at hx
    obtain ⟨v, hv, hsame⟩ := hx.silent
    rcases changes_push hchange with hold | ⟨rfl, hb, ha, hne⟩
    · rcases hr hpc k x before after t₁ ht₁ hle hold (State.view_isSome.mpr ⟨v, hv⟩) with
        hm | hsnap | hahead | ⟨v₀, info, hv₀, hp, hbefore, hprogress⟩
      · exact .inl hm
      · exact .inr (.inl hsnap)
      · exact .inr (.inr (.inl (hahead.append hev)))
      · refine .inr (.inr (.inr ⟨v', info, hv', ?_, hbefore, hprogress⟩))
        rw [hv] at hv₀
        cases hv₀
        rcases hsame with rfl | ⟨hp', _⟩
        · exact hp
        · exact hp'
    · rw [State.task_of_view hv] at hb
      rw [State.task_of_view hv'] at ha
      cases ha
      rcases hsame with rfl | ⟨hp', hprogress⟩
      · exact absurd hb.symm hne
      · exact .inr (.inr (.inr ⟨v', v.info, hv', hp', hb.symm, hprogress⟩))
  · exact .inr (.inr (.inl (.of_sent hnext hev hnil)))

/-- Changes seen from a state of the same runtime one place later. -/
theorem Changes.before_stream (hs : w'.runtime = w.runtime)
    (h : Changes (past ++ [w] ++ [w']) k x before after) :
    Changes (past ++ [w]) k x before after := by
  rcases changes_push h with hold | ⟨_, hb, ha, hne⟩
  · exact hold
  · rw [hs, hb] at ha
    exact absurd ha hne

theorem prefix_tail {l l' : List ServerEvent} (h : l' <+: l) : l'.tail <+: l.tail := by
  obtain ⟨rest, rfl⟩ := h
  cases l' with
  | nil => exact List.nil_prefix
  | cons m l' => exact List.prefix_append _ _

theorem WatchStream.Ok.messages_push {m : ServerEvent} (hok : st.Ok)
    (hp : st'.produced = st.produced ++ [m]) :
    st'.produced.tail = st.produced.tail ++ [m] := by
  obtain ⟨events, hhello⟩ := hok.hello
  rw [hp, WatchStream.produced, hhello]
  rfl

/-- The messages of a stream have times, and with these leave no change out. -/
def Chronicled (hist : List (Watch Output)) (w : Watch Output) : Prop :=
  ∃ times, Stamped hist times w.stream.produced.tail ∧
    Reflected hist times w.stream.produced.tail w.runtime w.stream

/-- A move that reads nothing keeps the times.  What was ahead must stay so. -/
theorem Chronicled.quiet (h : Chronicled (past ++ [w]) w) (hs : w'.runtime = w.runtime)
    (hp : w'.stream.produced = w.stream.produced) (htrack : w.stream.pc.tracking = true)
    (hahead : ∀ x, w.runtime.registry.task x ≠ none →
      w.stream.pc = .snapshot ∨ w.stream.Ahead w.runtime x →
      w'.stream.pc = .snapshot ∨ w'.stream.Ahead w.runtime x) :
    Chronicled (past ++ [w] ++ [w']) w' := by
  obtain ⟨times, hstamp, hr⟩ := h
  refine ⟨times, hp ▸ hstamp.grow, fun _ k x before after t₁ ht₁ hle hchange hkept => ?_⟩
  rw [hs] at hkept ⊢
  rw [hp]
  rcases hr htrack k x before after t₁ ht₁ hle (hchange.before_stream hs) hkept with
    hm | hsnap | hat | hheld
  · exact .inl hm
  · exact .inr (or_assoc.mp (.inl (hahead x hkept (.inl hsnap))))
  · exact .inr (or_assoc.mp (.inl (hahead x hkept (.inr hat))))
  · exact .inr (.inr (.inr hheld))

/-- A stream that tracks nothing any more leaves nothing out. -/
theorem Chronicled.over (h : Stamped (past ++ [w]) times w'.stream.produced.tail)
    (hover : w'.stream.pc.tracking = false) : Chronicled (past ++ [w] ++ [w']) w' := by
  refine ⟨times, h.grow, fun htrack => ?_⟩
  rw [hover] at htrack
  cases htrack

/-- A snapshot shows whatever is retained. -/
theorem Chronicled.read (h : Stamped (past ++ [w]) times w.stream.produced.tail)
    (hwf : Wf config w.runtime) (hok : w.stream.Ok) (hs : w'.runtime = w.runtime)
    (hp : w'.stream.produced = w.stream.produced ++ [.snapshot w.runtime.registry.tasks]) :
    Chronicled (past ++ [w] ++ [w']) w' := by
  have hm : (ServerEvent.snapshot w.runtime.registry.tasks).Exact w.runtime.registry := rfl
  unfold Chronicled
  rw [hok.messages_push hp, hs]
  refine ⟨_, (h.push hm).grow, fun _ k x before after t₁ ht₁ hle hchange hkept => ?_⟩
  refine .inl (h.mentioned (hchange.before_stream hs).lt ?_)
  rw [hwf.shows_snapshot]
  exact Option.isSome_iff_ne_none.mpr hkept

/-- A task found is shown as it is, and is behind no more. -/
theorem Chronicled.found {y : TaskId} {info : TaskInfo} (h : Chronicled (past ++ [w]) w)
    (hwf : Wf config w.runtime) (hok : w.stream.Ok) (hs : w'.runtime = w.runtime)
    (hpc : w.stream.pc = .lookup y) (htask : w.runtime.registry.task y = some info)
    (hn : w'.stream.next = w.stream.next)
    (hp : w'.stream.produced = w.stream.produced ++ [.changed info]) :
    Chronicled (past ++ [w] ++ [w']) w' := by
  obtain ⟨times, hstamp, hr⟩ := h
  have hid := hwf.id_of_task htask
  have hm : (ServerEvent.changed info).Exact w.runtime.registry := by
    change w.runtime.registry.task info.id = some info
    rw [hid, htask]
  unfold Chronicled
  rw [hok.messages_push hp, hs]
  refine ⟨_, (hstamp.push hm).grow, fun _ k x before after t₁ ht₁ hle hchange hkept => ?_⟩
  have hold := hchange.before_stream hs
  -- the first time is an earlier one, for the change is
  have ht₁' : times.head? = some t₁ := by
    cases times with
    | nil =>
      obtain rfl : past.length = t₁ := Option.some.inj ht₁
      exact absurd hold.lt (by omega)
    | cons t times => exact ht₁
  rcases hr (by rw [hpc]; rfl) k x before after t₁ ht₁' hle hold hkept with
    hm | hsnap | hat | hheld
  · exact .inl hm.push
  · rw [hpc] at hsnap; cases hsnap
  · rcases hat with hat | hunread
    · rw [hpc] at hat
      cases hat
      refine .inl (hstamp.mentioned hold.lt ?_)
      simp [watchFeed, hid]
    · exact .inr (.inr (.inl (.inr (hn ▸ hunread))))
  · exact .inr (.inr (.inr hheld))

/-- **A move on the stream reads the present, and leaves no change out.** -/
theorem Forwards.chronicled (h : Forwards w.runtime w.stream w'.stream)
    (hs : w'.runtime = w.runtime) (hwf : Wf config w.runtime) (hok : w.stream.Ok)
    (hfresh : w.stream.pc = .subscribe → w.stream.produced.tail = [])
    (hc : Chronicled (past ++ [w]) w) : Chronicled (past ++ [w] ++ [w']) w' := by
  have ⟨times, hstamp, _⟩ := hc
  cases h with
  | same hpc' hn hp =>
    cases htrack : w.stream.pc.tracking with
    | true =>
      refine hc.quiet hs hp htrack fun x _ h => ?_
      rwa [WatchStream.Ahead, hpc', hn]
    | false => exact .over (hp ▸ hstamp) (by rw [hpc', htrack])
  | subscribed hpc hpc' hn hp =>
    have hnil := hfresh hpc
    rw [hnil] at hstamp
    refine ⟨times, ?_, fun _ k x before after t₁ ht₁ => ?_⟩
    · rw [hp, hnil]
      exact hstamp.grow
    · rw [List.forall₂_nil_right_iff.mp hstamp.exact] at ht₁
      cases ht₁
  | read hpc hpc' hn hp => exact .read hstamp hwf hok hs hp
  | sent hpc hpc' hn hp =>
    refine hc.quiet hs hp (by rw [hpc]; rfl) fun x _ h => .inr (.inr ?_)
    rcases h with h | h | h
    · rw [hpc] at h; cases h
    · rw [hpc] at h; cases h
    · exact hn ▸ h
  | value hpc hchange hpc' hn hp =>
    refine hc.quiet hs hp (by rw [hpc]; rfl) fun x _ h => .inr ?_
    rcases h with h | h | h
    · rw [hpc] at h; cases h
    · rw [hpc] at h; cases h
    · rcases h.of_value hchange with rfl | h
      · exact .inl hpc'
      · exact .inr (hn ▸ h)
  | lagged hpc hpc' hn hp => exact hc.quiet hs hp (by rw [hpc]; rfl) fun _ _ _ => .inl hpc'
  | missing hpc htask hpc' hn hp =>
    refine hc.quiet hs hp (by rw [hpc]; rfl) fun x hkept h => .inr (.inr ?_)
    rcases h with h | h | h
    · rw [hpc] at h; cases h
    · rw [hpc] at h
      cases h
      exact absurd htask hkept
    · exact hn ▸ h
  | found hpc htask hpc' hn hp => exact hc.found hwf hok hs hpc htask hn hp
  | readLast hpc hpc' hn hp =>
    have hm : (ServerEvent.snapshot w.runtime.registry.tasks).Exact w.runtime.registry := rfl
    have hstamp' := hstamp.push hm
    rw [← hok.messages_push hp] at hstamp'
    exact .over hstamp' (by rw [hpc']; rfl)
  | ended hpc' hn hp =>
    refine .over (hstamp.take (prefix_tail hp)) ?_
    rcases hpc' with hpc' | hpc' <;> rw [hpc'] <;> rfl

/-! ### Runs -/

theorem Forwards.unsubscribed (h : Forwards s st st')
    (hfresh : st.pc = .subscribe → st.produced.tail = []) (hpc : st'.pc = .subscribe) :
    st'.produced.tail = [] := by
  cases h with
  | same hpc' hn hp => rw [hp]; exact hfresh (hpc' ▸ hpc)
  | ended hpc' => rcases hpc' with hpc' | hpc' <;> rw [hpc'] at hpc <;> cases hpc
  | subscribed _ hpc' | read _ hpc' | sent _ hpc' | value _ _ hpc' | lagged _ hpc'
  | missing _ _ hpc' | found _ _ hpc' | readLast _ hpc' => rw [hpc'] at hpc; cases hpc

theorem Trace.unsubscribed (h : Trace (watchStep config capacity) anyWatch .init past w) :
    w.stream.pc = .subscribe → w.stream.produced.tail = [] := by
  induction h with
  | start => exact fun _ => rfl
  | next prior _ hstep ih =>
    rcases watchStep_cases hstep with ⟨a, _, hsame⟩ | ⟨_, hforwards⟩
    · rw [hsame]; exact ih
    · exact hforwards.unsubscribed ih

/-- **Every run gives its messages their times.** -/
theorem Trace.chronicled (h : Trace (watchStep config capacity) anyWatch .init past w) :
    Chronicled (past ++ [w]) w := by
  induction h with
  | start => exact ⟨[], ⟨.nil, nofun, .nil⟩, nofun⟩
  | @next past w w' a prior hok hstep ih =>
    have hw : Watched config w := Steps.watched prior.steps
    have hwf := Reaches.wf hw.reaches
    rcases watchStep_cases hstep with ⟨a, hst, hsame⟩ | ⟨hsame, hforwards⟩
    · obtain ⟨times, hstamp, hr⟩ := ih
      refine ⟨times, by rw [hsame]; exact hstamp.grow, ?_⟩
      have hr' := hst.reflected hwf hsame hw.following.next hr
      rwa [← hsame] at hr'
    · exact hforwards.chronicled hsame hwf hw.ok prior.unsubscribed ih

/-- What is retained of a task submitted before had no higher rank before. -/
theorem Stepped.rank_le {d : Driver Output} {v' : TaskInfo} (h : Stepped config s a s')
    (hwf : Wf config s) (hd : s.drivers x = some d) (hv' : s'.registry.task x = some v') :
    ∃ v, s.registry.task x = some v ∧ v.state.rank ≤ v'.state.rank := by
  obtain ⟨e', he', _⟩ := Option.map_eq_some_iff.mp hv'
  rcases h.entry_or_started he' with hstart | ⟨e, he, _⟩
  · cases hstart with
    | mk hfresh => rw [hd] at hfresh; cases hfresh
  · have hv : s.registry.task x = some e.info := by
      rw [Registry.task, he]
      rfl
    obtain ⟨p, hview⟩ := State.view_of_task hv
    obtain ⟨p', hview'⟩ := State.view_of_task hv'
    obtain ⟨events, _, hshown⟩ := h.shown hwf
    have hx := hshown x
    rw [hview, hview'] at hx
    exact ⟨e.info, hv, hx.rank_le⟩

/-- A task's rank only grows along a run. -/
theorem Watched.rank_le {v v' : TaskInfo} (hu : Watched config u)
    (h : Steps (watchStep config capacity) anyWatch u w)
    (hv : u.runtime.registry.task x = some v) (hv' : w.runtime.registry.task x = some v') :
    v.state.rank ≤ v'.state.rank := by
  suffices hinv : Watched config w ∧ w.runtime.drivers x ≠ none ∧
      ∀ info, w.runtime.registry.task x = some info → v.state.rank ≤ info.state.rank from
    hinv.2.2 v' hv'
  refine h.invariant (I := fun w => Watched config w ∧ w.runtime.drivers x ≠ none ∧
    ∀ info, w.runtime.registry.task x = some info → v.state.rank ≤ info.state.rank) ?_ ?_
  · rintro w a w' ⟨hw, hd, hle⟩ _ hstep
    have hwf := Reaches.wf hw.reaches
    refine ⟨hw.step hstep, ?_⟩
    rcases watchStep_cases hstep with ⟨a, hst, _⟩ | ⟨hsame, _⟩
    · obtain ⟨d, hd⟩ := Option.ne_none_iff_exists'.mp hd
      obtain ⟨d', hd', _⟩ := hst.driver_forward hd
      refine ⟨by rw [hd']; nofun, fun info hinfo => ?_⟩
      obtain ⟨info₀, hinfo₀, hle₀⟩ := hst.rank_le hwf hd hinfo
      exact Nat.le_trans (hle info₀ hinfo₀) hle₀
    · rw [hsame]
      exact ⟨hd, hle⟩
  · refine ⟨hu, ?_, fun info hinfo => ?_⟩
    · obtain ⟨e, he, _⟩ := Option.map_eq_some_iff.mp hv
      obtain ⟨d, hd, _⟩ := (Reaches.wf hu.reaches).entry x e he
      rw [hd]
      nofun
    · rw [hv] at hinfo
      cases hinfo
      exact Nat.le_refl _

theorem ServerEvent.Exact.shows {m : ServerEvent} {v : TaskInfo} (hwf : Wf config s)
    (hm : m.Exact s.registry) (hv : watchFeed.shows m x = some v) :
    s.registry.task x = some v := by
  cases m with
  | hello => cases hv
  | snapshot tasks =>
    obtain rfl : tasks = s.registry.tasks := hm
    rw [← hwf.shows_snapshot, hv]
  | changed task =>
    change (if task.id = x then some task else none) = some v at hv
    split at hv
    · rename_i hid
      cases hv
      rw [← hid]
      exact hm
    · cases hv

/-- What a stream shows of a task never goes back. -/
theorem Trace.shown_sorted (h : Trace (watchStep config capacity) anyWatch .init past w)
    (x : TaskId) :
    (w.stream.produced.filterMap fun m => watchFeed.shows m x).Pairwise
      fun a b => a.state.rank ≤ b.state.rank := by
  obtain ⟨times, hstamp, _⟩ := h.chronicled
  have hw : ∀ {t : Nat} {u}, (past ++ [w])[t]? = some u → Watched config u := by
    intro t u hu
    rcases List.mem_append.mp (List.mem_of_getElem? hu) with hmem | hmem
    · exact Steps.watched (h.steps_of_mem hmem).1
    · rw [List.mem_singleton.mp hmem]
      exact Steps.watched h.steps
  have hpair : (w.stream.produced.tail.filterMap fun m => watchFeed.shows m x).Pairwise
      fun a b => a.state.rank ≤ b.state.rank := by
    refine watchFeed.pairwise_of_times (fun v => v.state.rank)
      (fun t x => ((past ++ [w])[t]?).bind fun u => u.runtime.registry.task x)
      ?_ ?_ hstamp.exact hstamp.sorted
    · rintro t m v ⟨u, hu, hm⟩ hv
      simp only [hu, Option.bind_some]
      exact hm.shows (Reaches.wf (hw hu).reaches) hv
    · intro t t' a b hle ha hb
      obtain ⟨u, hu, ha⟩ := Option.bind_eq_some_iff.mp ha
      obtain ⟨u', hu', hb⟩ := Option.bind_eq_some_iff.mp hb
      exact (hw hu).rank_le (h.steps_between hle hu hu') ha hb
  obtain ⟨events, hhello⟩ := (Steps.watched h.steps).ok.hello
  rw [WatchStream.produced, hhello] at hpair ⊢
  exact hpair

theorem watchStep_applied {b : WatchAction Output} (h : watchStep config capacity w b = some w') :
    w.stream.applied <+: w'.stream.applied := by
  cases b with
  | runtime action =>
    obtain ⟨s', _, rfl⟩ := Option.map_eq_some_iff.mp h
    exact List.prefix_rfl
  | close => cases h; exact List.prefix_rfl
  | stream action =>
    obtain ⟨st', hst', rfl⟩ := Option.map_eq_some_iff.mp h
    exact WatchStream.step_applied hst'

/-- **The messages of a stream show the registry at times that go forward**, and
so its client's copy of a task never goes back.  Of what happens after the first
message was read, a drained stream has shown every change to a task that is
still retained, but for progress that is held back. -/
theorem watch_stream_goes_forward
    (h : Trace (watchStep config capacity) anyWatch .init past w) :
    (∃ messages times, w.stream.sent = .hello :: messages ∧
      Stamped (past ++ [w]) times messages ∧
      (w.stream.pc = .select → w.stream.next = w.runtime.events.length →
        ∀ k x before after t₁, times.head? = some t₁ → t₁ ≤ k →
          Changes (past ++ [w]) k x before after → w.runtime.registry.task x ≠ none →
          Mentioned times messages x k ∨ HeldBack w.runtime x before after)) ∧
    ∀ u ∈ past, ∀ x a b, u.stream.copy x = some a → w.stream.copy x = some b →
      a.state.rank ≤ b.state.rank := by
  have hw : Watched config w := Steps.watched h.steps
  obtain ⟨messages, hhello⟩ := hw.ok.hello
  constructor
  · obtain ⟨times, hstamp, hr⟩ := h.chronicled
    have htail : w.stream.produced.tail = messages ++ w.stream.pc.sending.toList := by
      rw [WatchStream.produced, hhello]
      rfl
    have hpre : messages <+: w.stream.produced.tail := htail ▸ List.prefix_append _ _
    refine ⟨messages, times.take messages.length, hhello, hstamp.take hpre, ?_⟩
    intro hpc hnext k x before after t₁ ht₁ hle hchange hkept
    have hall : w.stream.produced.tail = messages := by
      rw [htail, hpc]
      exact List.append_nil _
    rw [hall] at hstamp hr
    have htimes : times.take messages.length = times := by
      rw [← hstamp.exact.length_eq, List.take_length]
    rw [htimes] at ht₁ ⊢
    rcases hr (by rw [hpc]; rfl) k x before after t₁ ht₁ hle hchange hkept with
      hm | hsnap | hat | hheld
    · exact .inl hm
    · rw [hpc] at hsnap; cases hsnap
    · rcases hat with hat | hunread
      · rw [hpc] at hat; cases hat
      · exact absurd hunread (not_unread (Nat.le_of_eq hnext.symm))
    · exact .inr hheld
  · intro u hu x a b ha hb
    obtain ⟨hreach, hrun⟩ := h.steps_of_mem hu
    have hpre : u.stream.applied <+: w.stream.applied :=
      hrun.invariant (I := fun w => u.stream.applied <+: w.stream.applied)
        (fun _ _ _ hpre _ hstep => hpre.trans (watchStep_applied hstep)) List.prefix_rfl
    rw [(Steps.watched hreach).ok.copy] at ha
    rw [hw.ok.copy] at hb
    have hproduced : w.stream.applied <+: w.stream.produced :=
      hw.ok.applied.trans (List.prefix_append _ _)
    exact watchFeed.copyOf_rank_le hpre
      ((h.shown_sorted x).sublist (hproduced.sublist.filterMap _)) ha hb

theorem progress_stream_goes_forward :
    ∃ past messages times, progressHeldBack.stream.sent = .hello :: messages ∧
      Stamped (past ++ [progressHeldBack]) times messages := by
  obtain ⟨past, h⟩ := reaches_progressHeldBack.trace
  obtain ⟨messages, times, hsent, hstamp, _⟩ := (watch_stream_goes_forward h).1
  exact ⟨past, messages, times, hsent, hstamp⟩

/-- **Progress that is held back is in no message of a drained stream.** -/
theorem held_back_change_not_shown :
    ¬ ∀ (past : List (Watch Nat)) (w : Watch Nat),
      Trace (watchStep .default 1024) anyWatch .init past w → w.Drained →
      ∃ messages times, w.stream.sent = .hello :: messages ∧
        Stamped (past ++ [w]) times messages ∧
        ∀ k x before after t₁, times.head? = some t₁ → t₁ ≤ k →
          Changes (past ++ [w]) k x before after → w.runtime.registry.task x ≠ none →
          Mentioned times messages x k := by
  intro h
  obtain ⟨past, htrace⟩ := reaches_progressForwarded.trace
  have hlast : Trace (watchStep .default 1024) anyWatch .init (past ++ [progressForwarded])
      progressHeldBack :=
    htrace.next (a := .runtime (.progress ⟨1⟩ ⟨none, .items 2 none⟩)) trivial rfl
  obtain ⟨messages, times, hsent, hstamp, hall⟩ := h _ _ hlast progressHeldBack_drained
  obtain rfl : messages = progressHeldBack.stream.sent.tail := by rw [hsent]; rfl
  have hnone : ∀ m ∈ progressHeldBack.stream.sent.tail,
      ¬m.Exact progressHeldBack.runtime.registry := by decide
  -- no message was read in the last state, so none after the last step
  have hbefore : ∀ (i : Nat) t, times[i]? = some t → t ≤ past.length := by
    intro i t ht
    obtain ⟨hi, rfl⟩ := List.getElem?_eq_some_iff.mp ht
    have hi' : i < progressHeldBack.stream.sent.tail.length := hstamp.exact.length_eq ▸ hi
    obtain ⟨u, hu, hm⟩ := hstamp.exact.get hi hi'
    have hbound := hstamp.bound _ (List.getElem_mem hi)
    simp only [List.length_append, List.length_singleton] at hbound
    by_contra hgt
    have heq : times[i] = (past ++ [progressForwarded]).length := by simp; omega
    rw [List.get_eq_getElem, heq, List.getElem?_concat_length] at hu
    cases hu
    exact hnone _ (List.getElem_mem hi') hm
  have hchange : Changes (past ++ [progressForwarded] ++ [progressHeldBack]) past.length ⟨1⟩
      (progressForwarded.runtime.registry.task ⟨1⟩)
      ((progressHeldBack.runtime.registry.task ⟨1⟩).get (by decide)) :=
    ⟨progressForwarded, progressHeldBack, by simp, by simp, rfl, by simp, by decide⟩
  have hlength : times.length = 2 := hstamp.exact.length_eq.trans (by decide)
  have hhead : times.head? = some times[0] := by
    rw [List.head?_eq_getElem?]
    exact List.getElem?_eq_getElem (by omega)
  obtain ⟨i, t, _, ht, _, hlt, _⟩ := hall past.length ⟨1⟩ _ _ _ hhead
    (hbefore 0 _ (List.getElem?_eq_getElem (by omega))) hchange (by decide)
  exact absurd (hbefore i t ht) (by omega)

end FilePeeker
