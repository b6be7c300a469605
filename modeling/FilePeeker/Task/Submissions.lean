import FilePeeker.Task.Events
import FilePeeker.Task.Family

/-!
# The order of submission

A task gets its number under the lock, and the time it was submitted from the wall clock
before the lock is taken.  So the numbers are in the order of the registrations (`ids`),
which `Registry.tasks` keeps to, and the times need not be.

`Enrolled` says that the events have every task as it was submitted, and that the time of
its submission is never changed.
-/

namespace FilePeeker

variable {Output : Type} {config : Config} {s s' : State Output} {x : TaskId}
  {a : Action Output}

/-- The task that an event says was submitted. -/
def TaskEvent.submission : TaskEvent → Option TaskInfo
  | .submitted info => some info
  | .stateChanged .. | .progressed .. => none

/-- Every task submitted so far, as it was submitted. -/
def State.submissions (s : State Output) : List TaskInfo :=
  s.events.filterMap fun sent => sent.event.submission

structure Enrolled (s : State Output) : Prop where
  ids : s.submissions.map TaskInfo.id = s.ids
  entry : ∀ x e, s.registry.entry x = some e →
    ∃ info ∈ s.submissions, info.id = x ∧ info.submitted = e.info.submitted

theorem Enrolled.init : Enrolled (State.init : State Output) where
  ids := rfl
  entry x e he := by cases he

/-! ### One step -/

theorem State.submissions_of_events {events : List TaskEvent}
    (h : s'.events = s.events ++ events.map (Sent.mk s.now)) :
    s'.submissions = s.submissions ++ events.filterMap TaskEvent.submission := by
  rw [State.submissions, h, List.filterMap_append, List.filterMap_map]
  rfl

/-- A task is said to be submitted when it is first shown. -/
theorem Shown.submission {c : Cause} {v v' : Option View} {events : List TaskEvent}
    {info : TaskInfo} (h : Shown c x v events v') (hmem : .submitted info ∈ events) :
    v = none ∧ v'.isSome := by
  cases h with
  | submitted => exact ⟨rfl, rfl⟩
  | settled =>
    rcases List.mem_append.mp hmem with hmem | hmem
    · split at hmem
      · cases List.mem_singleton.mp hmem
      · cases hmem
    · cases List.mem_singleton.mp hmem
  | same | held | evicted => cases hmem
  | queued | running | cancelling | progressed | flushed => cases List.mem_singleton.mp hmem

/-- A step that starts nothing submits nothing. -/
theorem Stepped.submissions_eq (h : Stepped config s a s') (hwf : Wf config s)
    (hstart : a.StartsNothing) : s'.submissions = s.submissions := by
  obtain ⟨events, hev, hshown⟩ := h.shown hwf
  suffices hnone : events.filterMap TaskEvent.submission = [] by
    rw [State.submissions_of_events hev, hnone, List.append_nil]
  refine List.filterMap_eq_nil_iff.mpr fun event hevent => ?_
  cases event with
  | stateChanged | progressed => rfl
  | submitted info =>
    have hmem : .submitted info ∈ eventsOf info.id events :=
      List.mem_filter.mpr ⟨hevent, by simp [taskOf]⟩
    obtain ⟨hnone, hsome⟩ := (hshown info.id).submission hmem
    obtain ⟨v, hv⟩ := Option.isSome_iff_exists.mp hsome
    obtain ⟨e', he', -⟩ := Option.map_eq_some_iff.mp hv
    obtain ⟨e, he, -⟩ := h.entry_back hstart he'
    rw [State.view, he] at hnone
    cases hnone

/-- What was submitted is never taken back. -/
theorem Stepped.submissions_grow (h : Stepped config s a s') (hwf : Wf config s) :
    s.submissions <+: s'.submissions := by
  obtain ⟨events, hev, -⟩ := h.shown hwf
  exact ⟨_, (State.submissions_of_events hev).symm⟩

/-- The task that is started is the last to have been submitted. -/
theorem Started.submissions {x : TaskId} (h : Started config s a x s') :
    s'.ids = s.ids ++ [x] ∧ ∃ info, s'.submissions = s.submissions ++ [info] ∧ info.id = x ∧
      ∀ e, s'.registry.entry x = some e → info.submitted = e.info.submitted := by
  cases h with
  | @mk kind parent token submitted hfresh hsub hlin =>
    have hsent : (s.started config x kind parent token submitted).events =
        s.events ++ [.submitted (startInfo x parent kind.descriptor submitted)].map
          (Sent.mk s.now) := rfl
    refine ⟨rfl, _, State.submissions_of_events hsent, rfl, fun e he => ?_⟩
    have he' := (s.registry.start_entry config x x kind parent token submitted).symm.trans he
    rw [if_pos rfl] at he'
    cases he'
    rfl

theorem Stepped.enrolled (h : Stepped config s a s') (hwf : Wf config s) (hr : Enrolled s) :
    Enrolled s' := by
  refine ⟨?_, fun x e' he' => ?_⟩
  · rcases h.started_or_nothing with ⟨id, hstart⟩ | hstart
    · obtain ⟨hids, info, hsubmitted, hid, -⟩ := hstart.submissions
      rw [hsubmitted, List.map_append, hr.ids, List.map_singleton, hid, hids]
    · rw [h.submissions_eq hwf hstart, hr.ids, (h.ids_eq hstart).1]
  · rcases h.entry_or_started he' with hstart | ⟨e, he, hk⟩
    · obtain ⟨-, info, hsubmitted, hid, htime⟩ := hstart.submissions
      exact ⟨info, by simp [hsubmitted], hid, htime e' he'⟩
    · obtain ⟨info, hmem, hid, htime⟩ := hr.entry x e he
      exact ⟨info, (h.submissions_grow hwf).subset hmem, hid, htime.trans hk.submitted.symm⟩

theorem Reaches.enrolled {ok : State Output → Action Output → Prop} (h : Reaches config ok s) :
    Enrolled s :=
  h.invariant_from .init fun _ _ _ prior hr _ hstep =>
    (step_cases hstep).enrolled (Reaches.wf prior) hr

/-- Submissions are told apart by their identifiers. -/
theorem Enrolled.eq_of_id (hr : Enrolled s) (hwf : Wf config s) {info info' : TaskInfo}
    (h : info ∈ s.submissions) (h' : info' ∈ s.submissions) (hid : info.id = info'.id) :
    info = info' :=
  List.inj_on_of_nodup_map (hr.ids ▸ hwf.ids_nodup) h h' hid

theorem Enrolled.mem_ids (hr : Enrolled s) {info : TaskInfo} (h : info ∈ s.submissions) :
    info.id ∈ s.ids := by
  rw [← hr.ids]
  exact List.mem_map_of_mem h

/-! ### The order of the registry -/

/-- The number of a task is its place among the submissions. -/
theorem Wf.idxOf_eq (hwf : Wf config s) {x : TaskId} {d : Driver Output}
    (hd : s.drivers x = some d) : s.ids.idxOf x = d.ticket.seq := by
  obtain ⟨hlt, rfl⟩ := List.getElem?_eq_some_iff.mp (hwf.seq x d hd)
  exact hwf.ids_nodup.idxOf_getElem _ hlt

/-- The registrations are in the order of the submissions. -/
theorem Enrolled.pairwise_of_idxOf (hr : Enrolled s) (hwf : Wf config s)
    {R : TaskInfo → TaskInfo → Prop} (h : s.submissions.Pairwise R) {info info' : TaskInfo}
    (hmem : info ∈ s.submissions) (hmem' : info' ∈ s.submissions)
    (hlt : s.ids.idxOf info.id < s.ids.idxOf info'.id) : R info info' := by
  have hidx {i : Nat} (hi : i < s.submissions.length) :
      s.ids.idxOf s.submissions[i].id = i := by
    have hnodup : (s.submissions.map TaskInfo.id).Nodup := hr.ids ▸ hwf.ids_nodup
    have hlen : i < (s.submissions.map TaskInfo.id).length := by simpa using hi
    have hget := hnodup.idxOf_getElem i hlen
    rw [List.getElem_map] at hget
    exact hr.ids ▸ hget
  obtain ⟨i, hi, rfl⟩ := List.mem_iff_getElem.mp hmem
  obtain ⟨j, hj, rfl⟩ := List.mem_iff_getElem.mp hmem'
  rw [hidx hi, hidx hj] at hlt
  exact List.pairwise_iff_getElem.mp h i j hi hj hlt

theorem Wf.nodup_values (hwf : Wf config s) :
    (s.registry.entries.values.map fun e => e.info.id).Nodup := by
  have hid : s.registry.entries.entries.map (fun e => e.2.info.id) =
      s.registry.entries.entries.map Sigma.fst := by
    refine List.map_congr_left fun e he => ?_
    obtain ⟨d, -, ho⟩ := hwf.entry e.1 e.2 (AList.mem_lookup_iff.mpr he)
    exact ho.id
  rw [Table.values, List.map_map]
  exact hid ▸ s.registry.entries.nodupKeys

/-- The tasks of a registry are told apart by their identifiers. -/
theorem Wf.nodup_tasks (hwf : Wf config s) : (s.registry.tasks.map TaskInfo.id).Nodup := by
  rw [Registry.tasks, List.map_map]
  exact ((List.perm_insertionSort _ _).map _).nodup_iff.mpr hwf.nodup_values

/-- **`Runtime::tasks` is in the order of submission.** -/
theorem Wf.tasks_in_order (hwf : Wf config s) :
    s.registry.tasks.Pairwise fun a b => s.ids.idxOf a.id < s.ids.idxOf b.id := by
  have hseq {e : Entry} (he : e ∈ s.registry.entries.values.insertionSort fun a b =>
      a.seq ≤ b.seq) : ∃ d, s.drivers e.info.id = some d ∧ e.seq = d.ticket.seq := by
    obtain ⟨x, hx⟩ := Table.mem_values.mp ((List.mem_insertionSort _).mp he)
    obtain ⟨d, hd, ho⟩ := hwf.entry x e hx
    exact ⟨d, ho.id.symm ▸ hd, ho.seq⟩
  have hle := List.pairwise_insertionSort (fun a b : Entry => a.seq ≤ b.seq)
    s.registry.entries.values
  have hne := List.pairwise_map.mp (List.pairwise_map.mp hwf.nodup_tasks)
  rw [Registry.tasks, List.pairwise_map]
  refine (hle.and hne).imp_of_mem fun {e e'} he he' ⟨hle, hne⟩ => ?_
  obtain ⟨d, hd, hs⟩ := hseq he
  obtain ⟨d', hd', hs'⟩ := hseq he'
  rw [hwf.idxOf_eq hd, hwf.idxOf_eq hd', ← hs, ← hs']
  refine Nat.lt_of_le_of_ne hle fun heq => hne ?_
  exact hwf.seq_inj hd hd' (hs.symm.trans (heq.trans hs'))

end FilePeeker
