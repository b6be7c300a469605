import Mathlib.Data.List.Basic

/-!
# A stream unfolded from a state

`stream::unfold` takes a function of a state that is done, or gives an item and what to go on
from, which may be nothing.  Where the states do not get smaller by themselves, whether such
a stream ends is a property of the state: `Yields next s items` says that it does, with
these items.  A stream has one list of items at most (`Yields.unique`), and to know the
items of a state it is enough to know those of one with the same next step
(`Yields.congr`).

A stream of results that is over with its first error gives what its items would be without
that rule, up to the error (`upToError`).
-/

namespace FilePeeker

variable {α ε σ : Type*} {next : σ → Option (α × Option σ)} {s t : σ} {as bs : List α}

/-- The stream from here ends, and these are its items. -/
inductive Yields (next : σ → Option (α × Option σ)) : Option σ → List α → Prop
  | ended : Yields next none []
  | done {s : σ} (h : next s = none) : Yields next (some s) []
  | item {s : σ} {rest : Option σ} {a : α} {as : List α} (h : next s = some (a, rest))
      (hrest : Yields next rest as) : Yields next (some s) (a :: as)

namespace Yields

theorem unique {s : Option σ} (h : Yields next s as) (h' : Yields next s bs) : as = bs := by
  induction h generalizing bs with
  | ended =>
    cases h'
    rfl
  | done hdone =>
    cases h' with
    | done _ => rfl
    | item hitem _ => rw [hdone] at hitem; cases hitem
  | item hitem _ ih =>
    cases h' with
    | done hdone => rw [hdone] at hitem; cases hitem
    | item hitem' hrest' =>
      rw [hitem] at hitem'
      cases hitem'
      rw [ih hrest']

theorem congr (heq : next s = next t) (h : Yields next (some t) as) : Yields next (some s) as := by
  cases h with
  | done hdone => exact .done (heq.trans hdone)
  | item hitem hrest => exact .item (heq.trans hitem) hrest

end Yields

/-- Up to the first error, and with it. -/
def upToError : List (Except ε α) → List (Except ε α)
  | [] => []
  | .ok a :: items => .ok a :: upToError items
  | .error error :: _ => [.error error]

@[simp] theorem upToError_nil : upToError ([] : List (Except ε α)) = [] := rfl

@[simp] theorem upToError_ok (a : α) (items : List (Except ε α)) :
    upToError (.ok a :: items) = .ok a :: upToError items := rfl

theorem mem_of_mem_upToError {item : Except ε α} {items : List (Except ε α)}
    (h : item ∈ upToError items) : item ∈ items := by
  induction items with
  | nil => exact h
  | cons first items ih =>
    cases first with
    | error error => exact List.mem_cons.mpr (.inl (List.mem_singleton.mp h))
    | ok a =>
      obtain rfl | hrest := List.mem_cons.mp h
      · exact List.mem_cons_self
      · exact List.mem_cons_of_mem _ (ih hrest)

end FilePeeker
