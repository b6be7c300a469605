import Mathlib.Data.List.Basic

/-!
# A bounded broadcast channel

A channel keeps the last `capacity` of the values sent on it.  A receiver is a
position in the list of all of them: `recv` reads the next value, or, where that
is no longer kept, says that the receiver lagged and takes it to the oldest
value there is.  `Unread log next p` says that a value with `p` is still ahead
of a receiver.
-/

namespace FilePeeker

variable {α : Type*} {log more : List α} {capacity next : Nat} {p : α → Prop} {a : α}

/-- What a receiver is given. -/
inductive Received (α : Type*)
  | value (a : α)
  | lagged (missed : Nat)

/-- What the next `recv` of a receiver gives, and where it takes it; `none`
while nothing new was sent. -/
def recv (log : List α) (capacity next : Nat) : Option (Received α × Nat) :=
  if next + capacity < log.length then
    some (.lagged (log.length - capacity - next), log.length - capacity)
  else (log[next]?).map fun a => (.value a, next + 1)

theorem recv_value {next' : Nat} (h : recv log capacity next = some (.value a, next')) :
    log[next]? = some a ∧ next' = next + 1 := by
  unfold recv at h
  split at h
  · cases h
  · obtain ⟨b, hb, heq⟩ := Option.map_eq_some_iff.mp h
    cases heq
    exact ⟨hb, rfl⟩

theorem recv_lagged {missed next' : Nat}
    (h : recv log capacity next = some (.lagged missed, next')) : next' ≤ log.length := by
  unfold recv at h
  split at h
  · cases h
    exact Nat.sub_le _ _
  · obtain ⟨b, _, heq⟩ := Option.map_eq_some_iff.mp h
    cases heq

/-- A value with `p` was sent, and the receiver has not passed it. -/
def Unread (log : List α) (next : Nat) (p : α → Prop) : Prop :=
  ∃ i a, next ≤ i ∧ log[i]? = some a ∧ p a

theorem Unread.append (h : Unread log next p) : Unread (log ++ more) next p := by
  obtain ⟨i, a, hi, ha, hp⟩ := h
  obtain ⟨hlt, _⟩ := List.getElem?_eq_some_iff.mp ha
  exact ⟨i, a, hi, by rw [List.getElem?_append_left hlt, ha], hp⟩

/-- What is sent is unread by every receiver. -/
theorem Unread.of_mem (hnext : next ≤ log.length) (ha : a ∈ more) (hp : p a) :
    Unread (log ++ more) next p := by
  obtain ⟨j, hj, hja⟩ := List.mem_iff_getElem.mp ha
  refine ⟨log.length + j, a, by omega, ?_, hp⟩
  rw [List.getElem?_append_right (by omega), Nat.add_sub_cancel_left, List.getElem?_eq_getElem hj,
    hja]

/-- A receiver that reads a value passes only that one. -/
theorem Unread.of_value (h : Unread log next p) (ha : log[next]? = some a) :
    p a ∨ Unread log (next + 1) p := by
  obtain ⟨i, b, hi, hb, hp⟩ := h
  rcases Nat.lt_or_eq_of_le hi with hlt | heq
  · exact .inr ⟨i, b, hlt, hb, hp⟩
  · subst heq
    rw [ha] at hb
    cases hb
    exact .inl hp

/-- A receiver that read everything has nothing unread. -/
theorem not_unread (h : log.length ≤ next) : ¬Unread log next p := by
  rintro ⟨i, a, hi, ha, _⟩
  obtain ⟨hlt, _⟩ := List.getElem?_eq_some_iff.mp ha
  omega

end FilePeeker
