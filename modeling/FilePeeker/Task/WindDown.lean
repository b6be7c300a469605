import FilePeeker.Task.Family

/-!
# Winding the runtime down

`cancel_all` cancels every task that has not settled, and `idle` resolves once
there is none.  As long as nobody submits another root, what either leaves stays
so: a child takes its token from a parent that is cancelled too, and where no
body is under way nobody submits a child.
-/

namespace FilePeeker

variable {Output : Type} {config : Config} {s s' : State Output} {x : TaskId}
  {d d' : Driver Output} {a : Action Output}

/-- Every task that has not settled is cancelled. -/
def State.AllCancelled (s : State Output) : Prop :=
  ∀ x d, s.drivers x = some d → d.pc.settled = none → s.isCancelled d.token = true

/-- Every task has settled. -/
def State.AllSettled (s : State Output) : Prop :=
  ∀ x d, s.drivers x = some d → d.pc.settled ≠ none

/-- Somebody outside the runtime submits a root. -/
def Action.submitsRoot : Action Output → Bool
  | submit .. => true
  | _ => false

/-- What a step starts without a root being submitted is a child of a task whose
body is under way. -/
theorem Started.child_of_live (h : Started config s a x s') (hin : ChildrenInBody s a)
    (hroot : a.submitsRoot = false) (hd' : s'.drivers x = some d') :
    ∃ p dp, s.drivers p = some dp ∧ dp.bodyLive = true ∧ d'.token = dp.token.child x := by
  cases h with
  | mk hfresh hsub hlin =>
    rw [State.started_driver] at hd'
    cases hd'
    cases hlin with
    | root => cases hsub; cases hroot
    | child hp hcalled => exact ⟨_, _, hp, hin.bodyLive hsub hp, rfl⟩

theorem Stepped.allCancelled (h : Stepped config s a s') (hwf : Wf config s)
    (hin : ChildrenInBody s a) (hroot : a.submitsRoot = false) (hall : s.AllCancelled) :
    s'.AllCancelled := by
  intro x d' hd' hlive
  rcases h.driver hd' with ⟨_, hstart⟩ | ⟨d, hd, hm⟩
  · obtain ⟨p, dp, hdp, hbody, htoken⟩ := hstart.child_of_live hin hroot hd'
    rw [htoken]
    refine CancelToken.isCancelled_child (h.isCancelled ?_) x
    exact hall p dp hdp (Driver.before_wait_of_bodyLive (hwf.ok p dp hdp) hbody).2.1
  · rw [hm.sameStart.token]
    refine h.isCancelled (hall x d hd ?_)
    cases ho : d.pc.settled with
    | none => rfl
    | some o => rw [hm.settled ho] at hlive; cases hlive

theorem Stepped.allSettled (h : Stepped config s a s') (hwf : Wf config s)
    (hin : ChildrenInBody s a) (hroot : a.submitsRoot = false) (hall : s.AllSettled) :
    s'.AllSettled := by
  intro x d' hd'
  rcases h.driver hd' with ⟨_, hstart⟩ | ⟨d, hd, hm⟩
  · obtain ⟨p, dp, hdp, hbody, _⟩ := hstart.child_of_live hin hroot hd'
    exact absurd (Driver.before_wait_of_bodyLive (hwf.ok p dp hdp) hbody).2.1 (hall p dp hdp)
  · obtain ⟨o, ho⟩ := Option.ne_none_iff_exists'.mp (hall x d hd)
    rw [hm.settled ho]
    nofun

/-- **`cancel_all` leaves no unsettled task uncancelled.** -/
theorem Family.allCancelled (hfam : Family s) (hwf : Wf config s)
    (h : step config s .cancelAll = some s') : s'.AllCancelled := by
  cases h
  intro x d hd hlive
  obtain ⟨e, he⟩ := hfam.retained x d hd hlive
  have ho := hwf.entryOf he hd
  refine CancelToken.isCancelled_of_mem (List.mem_append_right _ ?_)
  refine List.mem_map.mpr ⟨e, List.mem_filter.mpr ⟨Table.mem_values.mpr ⟨x, he⟩, ?_⟩, ?_⟩
  · rw [ho.live, hlive]
    rfl
  · rw [ho.token]

/-- **`idle` resolves when every task has settled.** -/
theorem Family.allSettled (hfam : Family s) (hwf : Wf config s)
    (h : s.registry.busy = false) : s.AllSettled := by
  intro x d hd hlive
  obtain ⟨e, he⟩ := hfam.retained x d hd hlive
  have hl : e.live = true := by rw [(hwf.entryOf he hd).live, hlive]; rfl
  exact List.any_eq_false.mp h e (Table.mem_values.mpr ⟨x, he⟩) hl

/-- The one move that ends an `idle` is its check, where it finds nothing busy. -/
theorem Idler.not_busy_of_done {i i' : Idler} {reg : Registry} (h : i.step reg = some i')
    (hdone : i'.pc = .done) : reg.busy = false := by
  unfold Idler.step at h
  split at h
  · cases h
    cases hdone
  · split at h
    · cases h
      cases hdone
    · rename_i hbusy
      exact Bool.eq_false_iff.mpr hbusy
  · split at h
    · cases h
      cases hdone
    · cases h
  · cases h

/-- Where every task has settled, every retained one shows how it ended. -/
theorem State.AllSettled.task_terminal (hall : s.AllSettled) (hwf : Wf config s)
    {info : TaskInfo} (h : s.registry.task x = some info) : info.state.isTerminal = true := by
  obtain ⟨e, he, rfl⟩ := Option.map_eq_some_iff.mp h
  obtain ⟨d, hd, ho⟩ := hwf.entry x e he
  rw [Pc.shows_isTerminal ho.shows]
  exact Option.isSome_iff_ne_none.mpr (hall x d hd)

end FilePeeker
