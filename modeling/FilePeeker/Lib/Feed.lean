import Mathlib.Data.List.Forall2
import Mathlib.Data.List.Induction

/-!
# Following a store through its updates

A follower holds a copy of a store and applies the messages it is sent, in
order.  A message shows some keys, each with its value, and may replace the
whole copy.  `Feed.copyOf` is the copy after a list of messages: of every key it
holds what the last message to show the key said (`copyOf_last`).

Where every message shows the store as it was at some time, and the times only
go forward, so does each key of the copy, by any rank that only grows in the
store (`pairwise_of_times`, `copyOf_rank_le`).
-/

namespace FilePeeker

variable {M κ ν : Type*}

/-- What a message says: the keys it shows, and whether they are all there are. -/
structure Feed (M κ ν : Type*) where
  shows : M → κ → Option ν
  replaces : M → Bool

namespace Feed

variable (f : Feed M κ ν) {l l' : List M} {x : κ} {a b v : ν} {rank : ν → Nat}

/-- A copy after a message. -/
def apply (copy : κ → Option ν) (m : M) : κ → Option ν :=
  fun x => if f.replaces m then f.shows m x else (f.shows m x).or (copy x)

/-- The copy of a follower that began with nothing. -/
def copyOf (l : List M) : κ → Option ν := l.foldl f.apply fun _ => none

@[simp] theorem copyOf_push (l : List M) (m : M) :
    f.copyOf (l ++ [m]) = f.apply (f.copyOf l) m := by
  simp [copyOf]

theorem apply_of_shows {copy : κ → Option ν} {m : M} (h : f.shows m x = some v) :
    f.apply copy m x = some v := by
  simp [apply, h]

theorem apply_of_not_shows {copy : κ → Option ν} {m : M} (hr : f.replaces m = false)
    (h : f.shows m x = none) : f.apply copy m x = copy x := by
  simp [apply, hr, h]

/-- **A copy holds what was shown last.** -/
theorem copyOf_last (h : f.copyOf l x = some v) :
    (l.filterMap fun m => f.shows m x).getLast? = some v := by
  induction l using List.reverseRecOn generalizing v with
  | nil => cases h
  | append_singleton l m ih =>
    rw [copyOf_push] at h
    rw [List.filterMap_append, List.getLast?_append]
    cases hm : f.shows m x with
    | some w =>
      rw [f.apply_of_shows hm] at h
      simp [hm, h]
    | none =>
      cases hr : f.replaces m with
      | true => simp [apply, hr, hm] at h
      | false =>
        rw [f.apply_of_not_shows hr hm] at h
        simp [hm, ih h]

/-- Of two copies, the later one holds no key with a lower rank, where the
messages show it in the order of its ranks. -/
theorem copyOf_rank_le (hpre : l' <+: l)
    (hsorted : (l.filterMap fun m => f.shows m x).Pairwise fun a b => rank a ≤ rank b)
    (ha : f.copyOf l' x = some a) (hb : f.copyOf l x = some b) : rank a ≤ rank b := by
  have hmem : a ∈ l.filterMap fun m => f.shows m x := by
    obtain ⟨m, hm, hshow⟩ := List.mem_filterMap.mp (List.mem_of_getLast? (f.copyOf_last ha))
    exact List.mem_filterMap.mpr ⟨m, hpre.subset hm, hshow⟩
  obtain ⟨init, hinit⟩ := List.getLast?_eq_some_iff.mp (f.copyOf_last hb)
  rw [hinit] at hmem hsorted
  rcases List.mem_append.mp hmem with hin | hin
  · exact (List.pairwise_append.mp hsorted).2.2 a hin b (List.mem_singleton_self b)
  · exact Nat.le_of_eq (congrArg rank (List.mem_singleton.mp hin))

/-- **Messages that show a store as it was, at times that go forward, show each
key in the order of its ranks.** -/
theorem pairwise_of_times (rank : ν → Nat) (store : Nat → κ → Option ν) {times : List Nat}
    {R : Nat → M → Prop}
    (hshow : ∀ t m v, R t m → f.shows m x = some v → store t x = some v)
    (hrank : ∀ t t' a b, t ≤ t' → store t x = some a → store t' x = some b → rank a ≤ rank b)
    (hstamp : List.Forall₂ R times l) (htimes : times.Pairwise (· ≤ ·)) :
    (l.filterMap fun m => f.shows m x).Pairwise fun a b => rank a ≤ rank b := by
  induction hstamp with
  | nil => exact .nil
  | @cons t m times l hm hrest ih =>
    obtain ⟨hle, htail⟩ := List.pairwise_cons.mp htimes
    rw [List.filterMap_cons]
    cases hv : f.shows m x with
    | none => exact ih htail
    | some v =>
      refine List.pairwise_cons.mpr ⟨fun b hb => ?_, ih htail⟩
      obtain ⟨m', hm', hb'⟩ := List.mem_filterMap.mp hb
      obtain ⟨i, hi, heq⟩ := List.mem_iff_getElem.mp hm'
      have hi' : i < times.length := hrest.length_eq ▸ hi
      have hR : R times[i] l[i] := hrest.get hi' hi
      rw [heq] at hR
      exact hrank t times[i] v b (hle _ (List.getElem_mem hi')) (hshow t m v hm hv)
        (hshow _ m' b hR hb')

end Feed

end FilePeeker
