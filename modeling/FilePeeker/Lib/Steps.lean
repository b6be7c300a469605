import Mathlib.Data.List.Induction
import Mathlib.Logic.Relation

/-!
# Runs of a partial step function

A system is a step function `step : σ → α → Option σ`: `step s a` is what the
action `a` does in the state `s`, and `none` where `a` cannot happen there.  A
predicate `ok` on states and actions selects the runs a statement is about;
`fun _ _ => True` selects all of them.

* `Steps step ok s t`: some run of `ok` steps leads from `s` to `t`.
* `Trace step ok s₀ past s`: the same, with the states it passed through.
* `Steps.invariant` and `Steps.invariant_from` are the rules every result about
  runs goes through: what one step preserves, a run preserves.
* `Rests step ok s`: every run from `s` is finite; `Rests.of_measure` is the
  rule for that.
-/

namespace FilePeeker

variable {σ α : Type*} {step : σ → α → Option σ} {ok ok' : σ → α → Prop}

/-- Some run of `ok` steps leads from one state to the other. -/
inductive Steps (step : σ → α → Option σ) (ok : σ → α → Prop) : σ → σ → Prop
  | refl (s : σ) : Steps step ok s s
  | tail {s t u : σ} {a : α} (prior : Steps step ok s t) (hok : ok t a)
      (hstep : step t a = some u) : Steps step ok s u

namespace Steps

theorem single {s t : σ} {a : α} (hok : ok s a) (h : step s a = some t) : Steps step ok s t :=
  .tail (.refl s) hok h

theorem trans {s t u : σ} (h : Steps step ok s t) (g : Steps step ok t u) :
    Steps step ok s u := by
  induction g with
  | refl => exact h
  | tail _ hok hstep ih => exact .tail ih hok hstep

/-- A run of `ok` steps is a run of `ok'` steps when `ok` is the stronger. -/
theorem mono (hle : ∀ s a, ok s a → ok' s a) {s t : σ} (h : Steps step ok s t) :
    Steps step ok' s t := by
  induction h with
  | refl => exact .refl _
  | tail _ hok hstep ih => exact .tail ih (hle _ _ hok) hstep

/-- **The invariant rule.**  What every step preserves, a run preserves. -/
theorem invariant {I : σ → Prop}
    (hinv : ∀ s a t, I s → ok s a → step s a = some t → I t)
    {s t : σ} (h : Steps step ok s t) (hs : I s) : I t := by
  induction h with
  | refl => exact hs
  | tail _ hok hstep ih => exact hinv _ _ _ ih hok hstep

/-- The invariant rule, where a step may use what is known of every state the
run has come to. -/
theorem invariant_from {I : σ → Prop} {s t : σ} (h : Steps step ok s t) (hs : I s)
    (hinv : ∀ u a v, Steps step ok s u → I u → ok u a → step u a = some v → I v) : I t := by
  induction h with
  | refl => exact hs
  | tail prior hok hstep ih => exact hinv _ _ _ prior ih hok hstep

end Steps

/-! ### Traces -/

/-- A run with its history: `past` is the list of the states it went through
before it came to its last one, oldest first. -/
inductive Trace (step : σ → α → Option σ) (ok : σ → α → Prop) (s₀ : σ) : List σ → σ → Prop
  | start : Trace step ok s₀ [] s₀
  | next {past : List σ} {s t : σ} {a : α} (prior : Trace step ok s₀ past s) (hok : ok s a)
      (hstep : step s a = some t) : Trace step ok s₀ (past ++ [s]) t

namespace Trace

theorem steps {s₀ s : σ} {past : List σ} (h : Trace step ok s₀ past s) :
    Steps step ok s₀ s := by
  induction h with
  | start => exact .refl _
  | next _ hok hstep ih => exact .tail ih hok hstep

/-- Every state a run went through is the end of an earlier run, and the start
of a later one. -/
theorem steps_of_mem {s₀ s t : σ} {past : List σ} (h : Trace step ok s₀ past s)
    (ht : t ∈ past) : Steps step ok s₀ t ∧ Steps step ok t s := by
  induction h with
  | start => simp at ht
  | next prior hok hstep ih =>
    rcases List.mem_append.mp ht with ht | ht
    · exact ⟨(ih ht).1, .tail (ih ht).2 hok hstep⟩
    · obtain rfl := List.mem_singleton.mp ht
      exact ⟨prior.steps, .single hok hstep⟩

/-- Of two states of a run, the later one is reached from the earlier. -/
theorem steps_between {s₀ s t u : σ} {past : List σ} {i j : Nat} (h : Trace step ok s₀ past s)
    (hij : i ≤ j) (hi : (past ++ [s])[i]? = some t) (hj : (past ++ [s])[j]? = some u) :
    Steps step ok t u := by
  induction h generalizing u j with
  | start =>
    obtain ⟨hj0, hju⟩ := List.getElem?_eq_some_iff.mp hj
    have hjz : j = 0 := by simpa using hj0
    subst hjz
    obtain rfl : i = 0 := by omega
    rw [hi] at hj
    cases hj
    exact .refl _
  | @next past s s' a prior hok hstep ih =>
    obtain ⟨hjlt, _⟩ := List.getElem?_eq_some_iff.mp hj
    have hlen : j ≤ (past ++ [s]).length := by
      rw [List.length_append] at hjlt
      exact Nat.le_of_lt_succ hjlt
    rcases Nat.lt_or_eq_of_le hlen with hlt | rfl
    · rw [List.getElem?_append_left hlt] at hj
      rw [List.getElem?_append_left (by omega)] at hi
      exact ih hij hi hj
    · rw [List.getElem?_concat_length] at hj
      cases hj
      rcases Nat.lt_or_eq_of_le hij with hlt | rfl
      · rw [List.getElem?_append_left hlt] at hi
        have hlast : (past ++ [s])[(past ++ [s]).length - 1]? = some s := by simp
        exact .tail (ih (by omega) hi hlast) hok hstep
      · rw [List.getElem?_concat_length] at hi
        cases hi
        exact .refl _

end Trace

theorem Steps.trace {s t : σ} (h : Steps step ok s t) : ∃ past, Trace step ok s past t := by
  induction h with
  | refl => exact ⟨[], .start⟩
  | tail _ hok hstep ih =>
    obtain ⟨past, htrace⟩ := ih
    exact ⟨_, htrace.next hok hstep⟩

/-! ### Coming to rest -/

/-- No run of `ok` steps from here goes on for ever. -/
def Rests (step : σ → α → Option σ) (ok : σ → α → Prop) : σ → Prop :=
  Acc fun t s => ∃ a, ok s a ∧ step s a = some t

/-- **The rule for coming to rest**: every step does some of a finite work, or
brings a loop nearer to its end. -/
theorem Rests.of_measure {I : σ → Prop} (work loops : σ → Nat)
    (hinv : ∀ s a t, I s → ok s a → step s a = some t → I t)
    (hdec : ∀ s a t, I s → ok s a → step s a = some t →
      work t < work s ∨ work t ≤ work s ∧ loops t < loops s)
    {s : σ} (hs : I s) : Rests step ok s := by
  have hwf : WellFounded (Prod.Lex (· < · : Nat → Nat → Prop) (· < · : Nat → Nat → Prop)) :=
    (Prod.lex Nat.lt_wfRel Nat.lt_wfRel).wf
  induction hp : (work s, loops s) using hwf.induction generalizing s with
  | h p ih =>
    subst hp
    refine ⟨s, fun t ⟨a, hok, hstep⟩ => ih _ ?_ (hinv s a t hs hok hstep) rfl⟩
    rcases hdec s a t hs hok hstep with hlt | ⟨hle, hlt⟩
    · exact .left _ _ hlt
    · rcases Nat.lt_or_eq_of_le hle with hlt' | heq
      · exact .left _ _ hlt'
      · rw [heq]
        exact .right _ hlt

/-- Where every run is finite, some run comes to a state without a step. -/
theorem Rests.exists_rest {s : σ} (h : Rests step ok s) :
    ∃ t, Steps step ok s t ∧ ∀ a, ok t a → step t a = none := by
  induction h with
  | intro s _ ih =>
    by_cases hrest : ∀ a, ok s a → step s a = none
    · exact ⟨s, .refl s, hrest⟩
    · obtain ⟨a, hna⟩ := Classical.not_forall.mp hrest
      obtain ⟨hok, hne⟩ := Classical.not_imp.mp hna
      obtain ⟨t, ht⟩ := Option.ne_none_iff_exists'.mp hne
      obtain ⟨u, hsteps, hu⟩ := ih t ⟨a, hok, ht⟩
      exact ⟨u, (Steps.single hok ht).trans hsteps, hu⟩

/-! ### Running a list of actions -/

/-- The state a list of actions leads to, if every one of them can happen. -/
def exec (step : σ → α → Option σ) : σ → List α → Option σ
  | s, [] => some s
  | s, a :: as => (step s a).bind fun t => exec step t as

theorem steps_of_exec : ∀ (as : List α) {s t : σ}, exec step s as = some t →
    Steps step (fun _ _ => True) s t := by
  intro as
  induction as with
  | nil =>
    intro s t h
    simp only [exec, Option.some.injEq] at h
    subst h
    exact .refl _
  | cons a as ih =>
    intro s t h
    simp only [exec, Option.bind_eq_some_iff] at h
    obtain ⟨u, hu, ht⟩ := h
    exact (Steps.single trivial hu).trans (ih ht)

theorem exec_append (as bs : List α) (s : σ) :
    exec step s (as ++ bs) = (exec step s as).bind fun t => exec step t bs := by
  induction as generalizing s with
  | nil => rfl
  | cons a as ih => simp only [List.cons_append, exec, ih, Option.bind_assoc]

theorem exec_concat_eq_some {as : List α} {a : α} {s u : σ} :
    exec step s (as ++ [a]) = some u ↔ ∃ t, exec step s as = some t ∧ step t a = some u := by
  simp only [exec_append, exec, Option.bind_eq_some_iff, Option.bind_fun_some]

/-- What somebody sees of a run who sees `look s a` of the action `a` in the state `s`. -/
def shown {β : Type*} (step : σ → α → Option σ) (look : σ → α → Option β) : σ → List α → List β
  | _, [] => []
  | s, a :: as =>
    match step s a with
    | some t => (look s a).toList ++ shown step look t as
    | none => []

theorem shown_concat {β : Type*} {look : σ → α → Option β} {as : List α} {a : α} {s t u : σ}
    (hrun : exec step s as = some t) (hstep : step t a = some u) :
    shown step look s (as ++ [a]) = shown step look s as ++ (look t a).toList := by
  induction as generalizing s with
  | nil =>
    cases hrun
    simp only [List.nil_append, shown, hstep, List.append_nil]
  | cons b as ih =>
    obtain ⟨v, hv, hrest⟩ := Option.bind_eq_some_iff.mp hrun
    simp only [List.cons_append, shown, hv, ih hrest, List.append_assoc]

theorem isSome_of_longer {as bs : List α} {s : σ} (hpre : as <+: bs)
    (hrun : (exec step s bs).isSome) : (exec step s as).isSome := by
  obtain ⟨rest, rfl⟩ := hpre
  rw [exec_append] at hrun
  exact Option.isSome_of_isSome_bind hrun

/-- **What holds all along a run**: where a step keeps `P` exactly if it is not one of `B`, `P`
holds in every state of the run exactly if no step of it is. -/
theorem exec_forall_iff {P : σ → Prop} {B : σ → α → Prop} {s : σ} {as : List α} (hs : P s)
    (hkeeps : ∀ earlier t a u, earlier ++ [a] <+: as → exec step s earlier = some t →
      step t a = some u → P t → (P u ↔ ¬ B t a))
    (hrun : (exec step s as).isSome) :
    (∀ earlier t, earlier <+: as → exec step s earlier = some t → P t) ↔
      ∀ earlier t a, earlier ++ [a] <+: as → exec step s earlier = some t → ¬ B t a := by
  constructor
  · intro hall earlier t a hpre ht
    obtain ⟨u, hu⟩ := Option.isSome_iff_exists.mp (isSome_of_longer hpre hrun)
    obtain ⟨t', ht', hta⟩ := exec_concat_eq_some.mp hu
    obtain rfl : t' = t := Option.some.inj (ht'.symm.trans ht)
    have hP := hall earlier t' ((List.prefix_append _ _).trans hpre) ht
    exact (hkeeps earlier t' a u hpre ht hta hP).mp (hall _ u hpre hu)
  · intro hall earlier
    induction earlier using List.reverseRecOn with
    | nil =>
      intro t _ ht
      obtain rfl : s = t := Option.some.inj ht
      exact hs
    | append_singleton earlier a ih =>
      intro u hpre hu
      obtain ⟨t, ht, hta⟩ := exec_concat_eq_some.mp hu
      have hP := ih t ((List.prefix_append _ _).trans hpre) ht
      exact (hkeeps earlier t a u hpre ht hta hP).mpr (hall earlier t a hpre ht)

/-- A step function held to the `ok` steps. -/
def guarded (step : σ → α → Option σ) (ok : σ → α → Prop) [∀ s a, Decidable (ok s a)] :
    σ → α → Option σ :=
  fun s a => if ok s a then step s a else none

theorem steps_of_guarded [∀ s a, Decidable (ok s a)] {s t : σ}
    (h : Steps (guarded step ok) (fun _ _ => True) s t) : Steps step ok s t := by
  induction h with
  | refl => exact .refl _
  | tail _ _ hstep ih =>
    unfold guarded at hstep
    split at hstep
    · exact .tail ih ‹_› hstep
    · cases hstep

/-- The state a list of `ok` actions leads to, where all of them can happen. -/
def runs (step : σ → α → Option σ) (ok : σ → α → Prop) [∀ s a, Decidable (ok s a)] (s : σ)
    (as : List α) : σ :=
  (exec (guarded step ok) s as).getD s

theorem steps_runs [∀ s a, Decidable (ok s a)] (s : σ) (as : List α) :
    Steps step ok s (runs step ok s as) := by
  unfold runs
  cases h : exec (guarded step ok) s as with
  | none => exact .refl _
  | some t => exact steps_of_guarded (steps_of_exec as h)

end FilePeeker
