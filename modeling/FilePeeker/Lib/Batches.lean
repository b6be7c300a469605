import FilePeeker.Lib.Unfold
import Mathlib.Algebra.GroupWithZero.Nat

/-!
# A stream in bounded batches

A stream of items is cut into chunks of so many (`chunks`), and each chunk into batches
whose sizes add up to no more than a limit (`split`).  An item that cannot be read, or that
is too large by itself, ends its chunk with an error; what is already collected goes out
before it.

What comes up to the first error is known from the items alone (`batches_spec`): all that
is accepted before the first that is not (`leading`), in order, in batches that are not
empty, and then the error of that one (`failure`).
-/

namespace FilePeeker.Batches

variable {α β ε : Type*}

/-! ### Up to the first error -/

section Leading

variable {items rest : List (Except ε β)}

/-- The values before the first error. -/
def leading : List (Except ε β) → List β
  | .ok b :: items => b :: leading items
  | [] | .error _ :: _ => []

/-- The first error. -/
def failure : List (Except ε β) → Option ε
  | [] => none
  | .ok _ :: items => failure items
  | .error error :: _ => some error

theorem upToError_append_ok (bs : List β) (items : List (Except ε β)) :
    upToError (bs.map .ok ++ items) = bs.map .ok ++ upToError items := by
  induction bs with
  | nil => rfl
  | cons b bs ih => rw [List.map_cons, List.cons_append, upToError_ok, ih, List.cons_append]

theorem leading_append_of_none (h : failure items = none) (rest : List (Except ε β)) :
    leading (items ++ rest) = leading items ++ leading rest ∧
      failure (items ++ rest) = failure rest := by
  induction items with
  | nil => exact ⟨rfl, rfl⟩
  | cons item items ih =>
    cases item with
    | ok b =>
      obtain ⟨hleading, hfailure⟩ := ih h
      exact ⟨congrArg (b :: ·) hleading, hfailure⟩
    | error error => cases h

theorem leading_append_of_some {error : ε} (h : failure items = some error)
    (rest : List (Except ε β)) :
    leading (items ++ rest) = leading items ∧ failure (items ++ rest) = some error := by
  induction items with
  | nil => cases h
  | cons item items ih =>
    cases item with
    | ok b =>
      obtain ⟨hleading, hfailure⟩ := ih h
      exact ⟨congrArg (b :: ·) hleading, hfailure⟩
    | error error' => exact ⟨rfl, h⟩

/-- What of a stream comes before the first error, and where that is. -/
theorem exists_leading (f : α → Except ε β) (as : List α) : ∃ before rest,
    as = before ++ rest ∧ before.map f = (leading (as.map f)).map .ok ∧
      (rest = [] ∧ failure (as.map f) = none ∨ ∃ a tail error, rest = a :: tail ∧
        f a = .error error ∧ failure (as.map f) = some error) := by
  induction as with
  | nil => exact ⟨[], [], rfl, rfl, .inl ⟨rfl, rfl⟩⟩
  | cons a as ih =>
    obtain ⟨before, rest, hcut, hbefore, hrest⟩ := ih
    rw [List.map_cons]
    cases ha : f a with
    | ok b =>
      refine ⟨a :: before, rest, congrArg (a :: ·) hcut, ?_, hrest⟩
      rw [List.map_cons, ha, hbefore]
      rfl
    | error error => exact ⟨[], a :: as, rfl, rfl, .inr ⟨a, as, error, rfl, ha, rfl⟩⟩

/-- There is an error exactly where an item is one. -/
theorem failure_isSome {f : α → Except ε β} {as : List α} :
    (failure (as.map f)).isSome ↔ ∃ a ∈ as, ∃ error, f a = .error error := by
  induction as with
  | nil => simp [failure]
  | cons a as ih =>
    rw [List.map_cons]
    cases ha : f a with
    | ok b => simp [failure, ih, ha]
    | error error => simp [failure, ha]

theorem length_leading_le : ∀ items : List (Except ε β), (leading items).length ≤ items.length
  | [] => Nat.le_refl 0
  | .ok _ :: items => Nat.succ_le_succ (length_leading_le items)
  | .error _ :: _ => Nat.zero_le _

end Leading

/-! ### Chunks -/

/-- `chunks`, with what is buffered. -/
def chunksFrom (cap : Nat) : List α → List α → List (List α)
  | buffer, [] => if buffer.isEmpty then [] else [buffer]
  | buffer, a :: as =>
    if cap ≤ (buffer ++ [a]).length then (buffer ++ [a]) :: chunksFrom cap [] as
    else chunksFrom cap (buffer ++ [a]) as

def chunks (cap : Nat) (as : List α) : List (List α) := chunksFrom cap [] as

theorem flatten_chunksFrom (cap : Nat) (as buffer : List α) :
    (chunksFrom cap buffer as).flatten = buffer ++ as := by
  induction as generalizing buffer with
  | nil =>
    rw [chunksFrom, List.append_nil]
    split
    · next hempty => rw [List.isEmpty_iff.mp hempty, List.flatten_nil]
    · rw [List.flatten_singleton]
  | cons a as ih =>
    rw [chunksFrom]
    split
    · rw [List.flatten_cons, ih, List.nil_append, List.append_assoc, List.singleton_append]
    · rw [ih, List.append_assoc, List.singleton_append]

theorem flatten_chunks (cap : Nat) (as : List α) : (chunks cap as).flatten = as :=
  flatten_chunksFrom cap as []

theorem length_chunksFrom {cap : Nat} {as buffer chunk : List α} (hbuffer : buffer.length < cap)
    (h : chunk ∈ chunksFrom cap buffer as) : chunk.length ≤ cap := by
  induction as generalizing buffer with
  | nil =>
    rw [chunksFrom] at h
    split at h
    · cases h
    · rw [List.mem_singleton.mp h]
      exact Nat.le_of_lt hbuffer
  | cons a as ih =>
    have hlength : (buffer ++ [a]).length = buffer.length + 1 := by simp
    rw [chunksFrom] at h
    split at h
    · rcases List.mem_cons.mp h with rfl | h
      · omega
      · exact ih (show ([] : List α).length < cap from Nat.zero_lt_of_lt hbuffer) h
    · exact ih (by omega) h

theorem length_chunk_le {cap : Nat} {as chunk : List α} (hcap : 0 < cap)
    (h : chunk ∈ chunks cap as) : chunk.length ≤ cap :=
  length_chunksFrom (show ([] : List α).length < cap from hcap) h

/-! ### Batches of a chunk -/

section Split

variable (read : α → Except ε β) (size : β → Nat) (limit : Nat) (tooLarge : ε)

/-- What is collected goes out, if anything is. -/
def flush (batch : List β) : List (Except ε (List β)) :=
  if batch.isEmpty then [] else [.ok batch]

/-- The batches of a chunk, with what is collected and its size. -/
def splitFrom (batch : List β) (bytes : Nat) : List α → List (Except ε (List β))
  | [] => flush batch
  | a :: as =>
    match read a with
    | .error error => flush batch ++ [.error error]
    | .ok b =>
      if limit < size b then flush batch ++ [.error tooLarge]
      else if batch ≠ [] ∧ limit < bytes + size b then .ok batch :: splitFrom [b] (size b) as
      else splitFrom (batch ++ [b]) (bytes + size b) as

def split (as : List α) : List (Except ε (List β)) := splitFrom read size limit tooLarge [] 0 as

/-- All batches of a stream. -/
def batches (cap : Nat) (as : List α) : List (Except ε (List β)) :=
  (chunks cap as).flatMap (split read size limit tooLarge)

/-- An item that can be read and is not too large is accepted. -/
def accept (a : α) : Except ε β :=
  match read a with
  | .error error => .error error
  | .ok b => if limit < size b then .error tooLarge else .ok b

variable {read size limit tooLarge}

/-- A batch that is not empty, and within the limit. -/
def Within (size : β → Nat) (limit : Nat) (batch : List β) : Prop :=
  batch ≠ [] ∧ (batch.map size).sum ≤ limit

theorem flush_spec {batch : List β} (hle : (batch.map size).sum ≤ limit) :
    ∃ bs : List (List β), (flush batch : List (Except ε (List β))) = bs.map .ok ∧
      bs.flatten = batch ∧ ∀ b ∈ bs, Within size limit b := by
  unfold flush
  split
  · next hempty => exact ⟨[], rfl, (List.isEmpty_iff.mp hempty).symm, fun b hb => by cases hb⟩
  · next hne =>
    refine ⟨[batch], rfl, List.flatten_singleton, fun b hb => ?_⟩
    obtain rfl := List.mem_singleton.mp hb
    exact ⟨fun hnil => hne (List.isEmpty_iff.mpr hnil), hle⟩

/-- What goes out before an error is what is collected. -/
theorem flush_error {batch : List β} (hle : (batch.map size).sum ≤ limit) (error : ε) :
    ∃ bs : List (List β), flush batch ++ [.error error] = bs.map .ok ++ [.error error] ∧
      bs.flatten = batch ∧ ∀ b ∈ bs, Within size limit b := by
  obtain ⟨bs, hflush, hflatten, hwithin⟩ := flush_spec (ε := ε) hle
  exact ⟨bs, by rw [hflush], hflatten, hwithin⟩

theorem splitFrom_spec (as : List α) {batch : List β} (hle : (batch.map size).sum ≤ limit) :
    ∃ bs : List (List β), splitFrom read size limit tooLarge batch (batch.map size).sum as =
        bs.map .ok ++ (failure (as.map (accept read size limit tooLarge))).toList.map .error ∧
      bs.flatten = batch ++ leading (as.map (accept read size limit tooLarge)) ∧
      ∀ b ∈ bs, Within size limit b := by
  induction as generalizing batch with
  | nil =>
    obtain ⟨bs, hflush, hflatten, hwithin⟩ := flush_spec (ε := ε) hle
    refine ⟨bs, ?_, ?_, hwithin⟩
    · rw [splitFrom, hflush]
      exact (List.append_nil _).symm
    · rw [hflatten]
      exact (List.append_nil _).symm
  | cons a as ih =>
    rw [splitFrom, List.map_cons, accept]
    cases hread : read a with
    | error error =>
      obtain ⟨bs, hout, hflatten, hwithin⟩ := flush_error hle error
      exact ⟨bs, hout, hflatten.trans (List.append_nil _).symm, hwithin⟩
    | ok b =>
      dsimp only
      by_cases hlarge : limit < size b
      · rw [if_pos hlarge, if_pos hlarge]
        obtain ⟨bs, hout, hflatten, hwithin⟩ := flush_error hle tooLarge
        exact ⟨bs, hout, hflatten.trans (List.append_nil _).symm, hwithin⟩
      · rw [if_neg hlarge, if_neg hlarge]
        by_cases hfull : batch ≠ [] ∧ limit < (batch.map size).sum + size b
        · -- The batch is full, and the item begins the next.
          have hsum : (([b] : List β).map size).sum = size b := by simp
          obtain ⟨bs, hout, hflatten, hwithin⟩ := ih (hsum ▸ Nat.le_of_not_lt hlarge)
          rw [hsum] at hout
          refine ⟨batch :: bs, ?_, ?_, fun c hc => ?_⟩
          · rw [if_pos hfull, hout]
            rfl
          · rw [List.flatten_cons, hflatten]
            rfl
          · rcases List.mem_cons.mp hc with rfl | hc
            · exact ⟨hfull.1, hle⟩
            · exact hwithin c hc
        · have hsum : ((batch ++ [b]).map size).sum = (batch.map size).sum + size b := by simp
          have hnext : ((batch ++ [b]).map size).sum ≤ limit := by
            by_cases hempty : batch = []
            · rw [hempty]
              simpa using Nat.le_of_not_lt hlarge
            · rw [hsum]
              exact Nat.le_of_not_lt fun hlt => hfull ⟨hempty, hlt⟩
          obtain ⟨bs, hout, hflatten, hwithin⟩ := ih hnext
          refine ⟨bs, ?_, ?_, hwithin⟩
          · rw [if_neg hfull, ← hsum, hout]
            rfl
          · rw [hflatten, List.append_assoc]
            rfl

variable (read size limit tooLarge)

/-- **The batches of a chunk** hold what is accepted of it. -/
theorem split_spec (as : List α) : ∃ bs : List (List β),
    split read size limit tooLarge as =
        bs.map .ok ++ (failure (as.map (accept read size limit tooLarge))).toList.map .error ∧
      bs.flatten = leading (as.map (accept read size limit tooLarge)) ∧
      ∀ b ∈ bs, Within size limit b :=
  splitFrom_spec as (show (([] : List β).map size).sum ≤ limit from Nat.zero_le limit)

theorem length_le_of_mem {bs : List (List β)} {b : List β} (h : b ∈ bs) :
    b.length ≤ bs.flatten.length :=
  (List.sublist_flatten_of_mem h).length_le

/-- **Up to the first error, the batches of a stream** hold what is accepted of it, and no
more than a chunk each. -/
theorem flatMap_split_spec {cap : Nat} (cs : List (List α)) (hcs : ∀ c ∈ cs, c.length ≤ cap) :
    ∃ bs : List (List β), upToError (cs.flatMap (split read size limit tooLarge)) =
        bs.map .ok ++
          (failure (cs.flatten.map (accept read size limit tooLarge))).toList.map .error ∧
      bs.flatten = leading (cs.flatten.map (accept read size limit tooLarge)) ∧
      ∀ b ∈ bs, Within size limit b ∧ b.length ≤ cap := by
  induction cs with
  | nil => exact ⟨[], rfl, rfl, fun b hb => by cases hb⟩
  | cons c cs ih =>
    obtain ⟨bs, hout, hflatten, hwithin⟩ := ih fun c' hc' => hcs c' (List.mem_cons_of_mem _ hc')
    obtain ⟨bs', hout', hflatten', hwithin'⟩ := split_spec read size limit tooLarge c
    have hcap : ∀ b ∈ bs', b.length ≤ cap := by
      intro b hb
      calc b.length ≤ bs'.flatten.length := length_le_of_mem hb
        _ ≤ (c.map (accept read size limit tooLarge)).length := by
          rw [hflatten']
          exact length_leading_le _
        _ ≤ cap := by
          rw [List.length_map]
          exact hcs c List.mem_cons_self
    rw [List.flatMap_cons, hout', List.flatten_cons, List.map_append]
    cases hfailure : failure (c.map (accept read size limit tooLarge)) with
    | none =>
      obtain ⟨hleading, hnext⟩ := leading_append_of_none hfailure
        (cs.flatten.map (accept read size limit tooLarge))
      refine ⟨bs' ++ bs, ?_, ?_, fun b hb => ?_⟩
      · rw [hnext, Option.toList_none, List.map_nil, List.append_nil, upToError_append_ok, hout,
          List.map_append, List.append_assoc]
      · rw [List.flatten_append, hflatten', hflatten, hleading]
      · rcases List.mem_append.mp hb with hb | hb
        · exact ⟨hwithin' b hb, hcap b hb⟩
        · exact hwithin b hb
    | some error =>
      obtain ⟨hleading, hnext⟩ := leading_append_of_some hfailure
        (cs.flatten.map (accept read size limit tooLarge))
      refine ⟨bs', ?_, ?_, fun b hb => ⟨hwithin' b hb, hcap b hb⟩⟩
      · rw [hnext, List.append_assoc, upToError_append_ok]
        rfl
      · rw [hflatten', hleading]

/-- **The batches of a stream.** -/
theorem batches_spec {cap : Nat} (hcap : 0 < cap) (as : List α) : ∃ bs : List (List β),
    upToError (batches read size limit tooLarge cap as) =
        bs.map .ok ++ (failure (as.map (accept read size limit tooLarge))).toList.map .error ∧
      bs.flatten = leading (as.map (accept read size limit tooLarge)) ∧
      ∀ b ∈ bs, Within size limit b ∧ b.length ≤ cap := by
  have h := flatMap_split_spec read size limit tooLarge (chunks cap as) fun c hc =>
    length_chunk_le hcap hc
  rw [flatten_chunks] at h
  exact h

end Split

end FilePeeker.Batches
