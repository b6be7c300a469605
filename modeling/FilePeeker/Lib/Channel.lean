import Mathlib.Data.List.Basic

/-!
# A bounded channel with one receiver

Values go through a queue of bounded room, in order.  A send is accepted where there is room
and somebody receives; `accepted` and `received` are history, and the fields say of every
channel that can be built what a run keeps: what was received is the beginning of what was
accepted, and while somebody receives the queue is the rest of it.

`recv` gives nothing, for ever, once the queue is empty and nobody can send
(`recv_none`, `push_of_silent`).
-/

namespace FilePeeker

structure Channel (α : Type*) where
  capacity : Nat
  queue : List α
  /-- A sender is left. -/
  sending : Bool
  /-- The receiver is left. -/
  receiving : Bool
  accepted : List α
  received : List α
  room : queue.length ≤ capacity
  kept : receiving = true → accepted = received ++ queue
  inOrder : received <+: accepted

namespace Channel

variable {α : Type*} {c c' : Channel α} {a : α}

def opened (capacity : Nat) : Channel α where
  capacity := capacity
  queue := []
  sending := true
  receiving := true
  accepted := []
  received := []
  room := Nat.zero_le _
  kept := fun _ => rfl
  inOrder := List.prefix_rfl

theorem push_kept (c : Channel α) (a : α) (h : c.receiving = true) :
    c.accepted ++ [a] = c.received ++ (c.queue ++ [a]) := by
  rw [c.kept h, List.append_assoc]

theorem push_inOrder (c : Channel α) (a : α) : c.received <+: c.accepted ++ [a] :=
  c.inOrder.trans (List.prefix_append _ _)

theorem push_room (c : Channel α) (a : α) (h : c.queue.length < c.capacity) :
    (c.queue ++ [a]).length ≤ c.capacity := by
  rw [List.length_append]
  exact h

/-- A send that found room. -/
def push (c : Channel α) (a : α) : Option (Channel α) :=
  if h : c.sending = true ∧ c.receiving = true ∧ c.queue.length < c.capacity then
    some { c with
      queue := c.queue ++ [a]
      accepted := c.accepted ++ [a]
      room := c.push_room a h.2.2
      kept := fun _ => c.push_kept a h.2.1
      inOrder := c.push_inOrder a }
  else none

theorem take_kept {queue rest : List α} (hq : queue = a :: rest) (c : Channel α)
    (h : c.accepted = c.received ++ queue) : c.accepted = (c.received ++ [a]) ++ rest := by
  rw [h, hq, List.append_assoc]
  rfl

theorem take_inOrder {rest : List α} (hq : c.queue = a :: rest) (h : c.receiving = true) :
    c.received ++ [a] <+: c.accepted :=
  ⟨rest, (take_kept hq c (c.kept h)).symm⟩

theorem take_room {rest : List α} (hq : c.queue = a :: rest) : rest.length ≤ c.capacity := by
  have hroom := c.room
  rw [hq, List.length_cons] at hroom
  omega

/-- One `recv`: what it gives, or `none` while it waits. -/
def recv (c : Channel α) : Option (Option α × Channel α) :=
  if h : c.receiving = true then
    match hq : c.queue with
    | a :: rest =>
      some (some a, { c with
        queue := rest
        received := c.received ++ [a]
        room := take_room hq
        kept := fun h => take_kept hq c (c.kept h)
        inOrder := take_inOrder hq h })
    | [] => if c.sending then none else some (none, c)
  else none

/-- The last sender is dropped. -/
def hangUp (c : Channel α) : Channel α := { c with sending := false }

/-- The receiver is dropped, and what it has not received with it. -/
def close (c : Channel α) : Channel α where
  capacity := c.capacity
  queue := []
  sending := c.sending
  receiving := false
  accepted := c.accepted
  received := c.received
  room := Nat.zero_le _
  kept h := absurd h Bool.false_ne_true
  inOrder := c.inOrder

@[simp] theorem hangUp_accepted (c : Channel α) : c.hangUp.accepted = c.accepted := rfl
@[simp] theorem hangUp_capacity (c : Channel α) : c.hangUp.capacity = c.capacity := rfl
@[simp] theorem hangUp_received (c : Channel α) : c.hangUp.received = c.received := rfl
@[simp] theorem hangUp_sending (c : Channel α) : c.hangUp.sending = false := rfl
@[simp] theorem hangUp_receiving (c : Channel α) : c.hangUp.receiving = c.receiving := rfl
@[simp] theorem close_accepted (c : Channel α) : c.close.accepted = c.accepted := rfl
@[simp] theorem close_capacity (c : Channel α) : c.close.capacity = c.capacity := rfl
@[simp] theorem close_received (c : Channel α) : c.close.received = c.received := rfl
@[simp] theorem close_sending (c : Channel α) : c.close.sending = c.sending := rfl
@[simp] theorem close_receiving (c : Channel α) : c.close.receiving = false := rfl

/-- What an accepted send does. -/
theorem push_eq_some (h : c.push a = some c') :
    c.sending = true ∧ c.receiving = true ∧ c.queue.length < c.capacity ∧
      c'.accepted = c.accepted ++ [a] ∧ c'.received = c.received ∧
      c'.sending = c.sending ∧ c'.receiving = c.receiving ∧ c'.capacity = c.capacity := by
  unfold push at h
  split at h
  · rename_i hcan
    cases h
    exact ⟨hcan.1, hcan.2.1, hcan.2.2, rfl, rfl, rfl, rfl, rfl⟩
  · cases h

/-- What a `recv` that returns does. -/
theorem recv_eq_some {got : Option α} (h : c.recv = some (got, c')) :
    c'.accepted = c.accepted ∧ c'.received = c.received ++ got.toList ∧
      c'.sending = c.sending ∧ c'.receiving = c.receiving ∧ c'.capacity = c.capacity := by
  unfold recv at h
  split at h
  · split at h
    · cases h
      exact ⟨rfl, rfl, rfl, rfl, rfl⟩
    · split at h
      · cases h
      · cases h
        exact ⟨rfl, by simp, rfl, rfl, rfl⟩
  · cases h

/-- **Only at the end does `recv` give nothing**: all that was accepted has been received. -/
theorem recv_none (h : c.recv = some (none, c')) :
    c.sending = false ∧ c' = c ∧ c.received = c.accepted := by
  unfold recv at h
  split at h
  · rename_i hr
    split at h
    · cases h
    · rename_i hq
      split at h
      · cases h
      · rename_i hs
        cases h
        exact ⟨by simpa using hs, rfl, by rw [c.kept hr, hq, List.append_nil]⟩
  · cases h

/-- What is left of what was accepted does not wait. -/
theorem recv_of_left (hr : c.receiving = true) (hleft : c.received ≠ c.accepted) :
    ∃ a c', c.recv = some (some a, c') := by
  unfold recv
  rw [dif_pos hr]
  split
  · exact ⟨_, _, rfl⟩
  · next hq => exact absurd (by rw [c.kept hr, hq, List.append_nil]) hleft

/-- Where all that was accepted has been received, `recv` gives no more. -/
theorem received_of_all {got : Option α} (h : c.recv = some (got, c'))
    (hall : c.received = c.accepted) : c'.received = c'.accepted := by
  obtain ⟨ha, hr, -⟩ := recv_eq_some h
  have hle := c'.inOrder.length_le
  rw [ha, hr, hall, List.length_append] at hle
  have hgot : got.toList = [] := List.eq_nil_of_length_eq_zero (by omega)
  rw [hr, ha, hgot, List.append_nil, hall]

/-- Without a sender nothing is accepted. -/
theorem push_of_silent (h : c.sending = false) : c.push a = none := by
  unfold push
  rw [dif_neg (by simp [h])]

/-- **Backpressure**: a channel is never further ahead of its reader than its room. -/
theorem accepted_length_le (h : c.receiving = true) :
    c.accepted.length ≤ c.received.length + c.capacity := by
  rw [c.kept h, List.length_append]
  exact Nat.add_le_add_left c.room _

end Channel

end FilePeeker
