import Mathlib.Logic.Basic

/-!
# Steps that can fail

What a computation in `Except` that went well says of its steps: each of them went well,
and the next one was given what came out of it.
-/

namespace FilePeeker

variable {ε δ α β : Type} {x : Except ε α}

@[simp] theorem mapError_ok (f : ε → δ) (a : α) : (Except.ok a).mapError f = .ok a := rfl

@[simp] theorem mapError_error (f : ε → δ) (error : ε) :
    (Except.error error : Except ε α).mapError f = .error (f error) := rfl

/-- An error is not made a result by what is done to it. -/
theorem mapError_eq_ok {f : ε → δ} {a : α} : x.mapError f = .ok a ↔ x = .ok a := by
  cases x with
  | error error => exact iff_of_false (fun h => by cases h) (fun h => by cases h)
  | ok value => rw [mapError_ok, Except.ok.injEq, Except.ok.injEq]

theorem bind_eq_ok {f : α → Except ε β} {b : β} (h : (x >>= f) = .ok b) :
    ∃ a, x = .ok a ∧ f a = .ok b := by
  cases x with
  | error error => cases h
  | ok a => exact ⟨a, rfl, h⟩

/-- All of a list goes well where each of its elements does. -/
theorem mapM_eq_ok {f : α → Except ε β} {as : List α} {bs : List β} :
    as.mapM f = .ok bs ↔ as.map f = bs.map .ok := by
  induction as generalizing bs with
  | nil =>
    cases bs with
    | nil => exact iff_of_true rfl rfl
    | cons b bs => exact iff_of_false (fun h => by cases h) (fun h => by cases h)
  | cons a as ih =>
    rw [List.mapM_cons, List.map_cons]
    cases ha : f a with
    | error error => cases bs <;> exact iff_of_false (fun h => by cases h) (fun h => by cases h)
    | ok b =>
      constructor
      · intro h
        obtain ⟨b', hb, h⟩ := bind_eq_ok h
        obtain ⟨rest, hrest, h⟩ := bind_eq_ok h
        cases hb
        cases h
        rw [ih.mp hrest, List.map_cons]
      · intro h
        cases bs with
        | nil => cases h
        | cons b' bs =>
          rw [List.map_cons, List.cons.injEq] at h
          cases h.1
          rw [ih.mpr h.2]
          rfl

end FilePeeker
