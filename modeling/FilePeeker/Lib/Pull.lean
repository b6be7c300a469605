import Mathlib.Data.List.Basic

/-!
# A stream pulled from a state

What `stream::unfold` makes of a step function: `next s` is one pull in the state `s`,
which gives an item and the state to go on from, or says that the stream is over.  The
states get smaller from pull to pull, so `drain` comes to an end; it gives the items
and the state that the last pull leaves.

`drain_induction` is the rule for what holds of a stream from every state: of the
states where the next pull is the last, and of a state if of the one it goes on from.
-/

namespace FilePeeker

inductive Pull (β σ : Type*)
  | item (b : β) (rest : σ)
  | done (last : σ)

variable {β σ : Type*}

/-- A step function whose states get smaller. -/
structure Source (β σ : Type*) where
  next : σ → Pull β σ
  size : σ → Nat
  smaller : ∀ s b t, next s = .item b t → size t < size s

namespace Source

variable (source : Source β σ) {s t : σ} {b : β}

/-- The items of a stream, and the state left at its end. -/
def drain (s : σ) : List β × σ :=
  match _h : source.next s with
  | .done last => ([], last)
  | .item b t => (b :: (drain t).1, (drain t).2)
termination_by source.size s
decreasing_by all_goals exact source.smaller s b t _h

def items (s : σ) : List β := (source.drain s).1

theorem drain_done (h : source.next s = .done t) : source.drain s = ([], t) := by
  rw [drain]
  split
  · next heq => rw [h, Pull.done.injEq] at heq; rw [heq]
  · next heq => rw [h] at heq; cases heq

theorem drain_item (h : source.next s = .item b t) :
    source.drain s = (b :: (source.drain t).1, (source.drain t).2) := by
  rw [drain]
  split
  · next heq => rw [h] at heq; cases heq
  · next heq =>
    rw [h, Pull.item.injEq] at heq
    rw [heq.1, heq.2]

theorem items_done (h : source.next s = .done t) : source.items s = [] := by
  rw [items, source.drain_done h]

theorem items_item (h : source.next s = .item b t) : source.items s = b :: source.items t := by
  rw [items, source.drain_item h]
  rfl

theorem drain_induction {P : σ → Prop} (done : ∀ s t, source.next s = .done t → P s)
    (item : ∀ s b t, source.next s = .item b t → P t → P s) (s : σ) : P s := by
  induction hn : source.size s using Nat.strongRecOn generalizing s with
  | ind n ih =>
    cases h : source.next s with
    | done t => exact done s t h
    | item b t =>
      refine item s b t h (ih _ ?_ t rfl)
      rw [← hn]
      exact source.smaller s b t h

end Source

end FilePeeker
