import Mathlib.Data.List.Nodup

/-!
# A fair lock for readers and writers

Any number of readers share the lock, a writer has it alone (`exclusive`), and who has to
wait waits in one line, so that a reader that comes after a writer does not go before it
(`enter_isSome_iff`).  What the lock says of one party is its `place`; each operation changes
the place of the party that does it and no other.
-/

namespace FilePeeker

/-- What a lock is asked for. -/
inductive Access
  | read
  | write
deriving DecidableEq, Repr

/-- Where a party stands with a lock. -/
inductive LockPlace
  | waits (access : Access)
  | holds (access : Access)
deriving DecidableEq, Repr

/-- A lock: who reads, who writes, and who waits for what, the first in line first. -/
structure RwLock (κ : Type*) where
  readers : List κ
  writer : Option κ
  queue : List (κ × Access)
  exclusive : writer ≠ none → readers = []
  /-- A party is there once. -/
  once : (readers ++ writer.toList ++ queue.map Prod.fst).Nodup

namespace RwLock

variable {κ : Type*} [DecidableEq κ] {l l' : RwLock κ} {k k' : κ} {a : Access}

/-- A lock nobody has asked for. -/
def free : RwLock κ where
  readers := []
  writer := none
  queue := []
  exclusive := fun _ => rfl
  once := .nil

def place (l : RwLock κ) (k : κ) : Option LockPlace :=
  if k ∈ l.readers then some (.holds .read)
  else if l.writer = some k then some (.holds .write)
  else (l.queue.lookup k).map .waits

theorem lookup_cons_ne (q : List (κ × Access)) (hk : k' ≠ k) :
    List.lookup k' ((k, a) :: q) = q.lookup k' := by
  rw [List.lookup_cons, beq_false_of_ne hk]

theorem lookup_eq_none {q : List (κ × Access)} : q.lookup k = none ↔ k ∉ q.map Prod.fst := by
  induction q with
  | nil => simp
  | cons x q ih =>
    obtain ⟨y, a⟩ := x
    rw [List.map_cons, List.mem_cons, not_or]
    by_cases hk : k = y
    · simp [hk]
    · rw [lookup_cons_ne _ hk, ih]
      simp [hk]

theorem place_eq_none :
    l.place k = none ↔ k ∉ l.readers ++ l.writer.toList ++ l.queue.map Prod.fst := by
  unfold place
  by_cases hr : k ∈ l.readers
  · simp [hr]
  by_cases hw : l.writer = some k
  · simp [hr, hw]
  · have hw' : k ∉ l.writer.toList := by simpa [eq_comm] using hw
    simp only [hr, if_false, hw, Option.map_eq_none_iff, lookup_eq_none, List.mem_append, hw',
      false_or]

theorem once_ask (h : l.place k = none) (a : Access) :
    (l.readers ++ l.writer.toList ++ (l.queue ++ [(k, a)]).map Prod.fst).Nodup := by
  rw [List.map_append, ← List.append_assoc]
  refine List.nodup_append'.mpr ⟨l.once, List.nodup_singleton _, ?_⟩
  intro x hx hxk
  obtain rfl : x = k := by simpa using hxk
  exact place_eq_none.mp h hx

/-- To ask for the lock is to stand in line for it, once. -/
def ask (l : RwLock κ) (k : κ) (a : Access) : RwLock κ :=
  if h : l.place k = none then
    { l with queue := l.queue ++ [(k, a)], once := once_ask h a }
  else l

omit [DecidableEq κ] in
theorem once_enter_read {rest : List (κ × Access)} (hq : l.queue = (k, .read) :: rest) :
    (k :: l.readers ++ l.writer.toList ++ rest.map Prod.fst).Nodup := by
  have h := l.once
  rw [hq, List.map_cons] at h
  simpa [List.append_assoc] using (List.nodup_middle.mp h)

omit [DecidableEq κ] in
theorem once_enter_write {rest : List (κ × Access)} (hq : l.queue = (k, .write) :: rest) :
    ([] ++ (some k).toList ++ rest.map Prod.fst).Nodup := by
  have h := (List.nodup_append'.mp l.once).2.1
  rw [hq, List.map_cons] at h
  simpa using h

/-- The first in line gets the lock, where it can share it with who has it. -/
def enter (l : RwLock κ) (k : κ) : Option (RwLock κ) :=
  match hq : l.queue with
  | [] => none
  | (k', .read) :: rest =>
    if h : k' = k ∧ l.writer = none then
      some
        { readers := k' :: l.readers, writer := l.writer, queue := rest
          exclusive := fun hne => absurd h.2 hne
          once := once_enter_read hq }
    else none
  | (k', .write) :: rest =>
    if k' = k ∧ l.writer = none ∧ l.readers = [] then
      some
        { readers := [], writer := some k', queue := rest
          exclusive := fun _ => rfl
          once := once_enter_write hq }
    else none

omit [DecidableEq κ] in
theorem once_sub {readers : List κ} {writer : Option κ} {queue : List (κ × Access)}
    (hr : readers.Sublist l.readers) (hw : writer.toList.Sublist l.writer.toList)
    (hq : queue.Sublist l.queue) :
    (readers ++ writer.toList ++ queue.map Prod.fst).Nodup :=
  l.once.sublist ((hr.append hw).append (hq.map _))

theorem exclusive_release (l : RwLock κ) (k : κ) :
    l.writer.filter (· != k) ≠ none → l.readers.filter (· != k) = [] := by
  intro h
  rw [l.exclusive fun hn => h (by rw [hn]; rfl), List.filter_nil]

theorem sublist_filter (w : Option κ) (k : κ) :
    (w.filter (· != k)).toList.Sublist w.toList := by
  cases w with
  | none => simp
  | some x =>
    by_cases h : x = k
    · simp [h]
    · simp [h]

/-- To let the lock go, or to leave the line. -/
def leave (l : RwLock κ) (k : κ) : RwLock κ where
  readers := l.readers.filter (· != k)
  writer := l.writer.filter (· != k)
  queue := l.queue.filter (·.1 != k)
  exclusive := exclusive_release l k
  once := once_sub List.filter_sublist (sublist_filter _ _) List.filter_sublist

/-- To write and let the lock go at once. -/
def pass (l : RwLock κ) (k : κ) : Option (RwLock κ) := (l.enter k).map (·.leave k)

/-! ### What an operation does to the places -/

@[simp] theorem place_free : (free : RwLock κ).place k = none := rfl

theorem ask_of_none (h : l.place k = none) :
    l.ask k a = { l with queue := l.queue ++ [(k, a)], once := once_ask h a } :=
  dif_pos h

theorem lookup_append (q q' : List (κ × Access)) :
    (q ++ q').lookup k = (q.lookup k).or (q'.lookup k) :=
  List.lookup_append

theorem place_ask (h : l.place k = none) :
    (l.ask k a).place k' = if k' = k then some (.waits a) else l.place k' := by
  rw [ask_of_none h]
  have hnone := place_eq_none.mp h
  simp only [List.mem_append, not_or] at hnone
  obtain ⟨⟨hr, hw⟩, hq⟩ := hnone
  have hw' : l.writer ≠ some k := fun he => hw (by simp [he])
  by_cases hk : k' = k
  · subst hk
    simp only [place, hr, if_false, hw', lookup_append, lookup_eq_none.mpr hq, Option.none_or,
      List.lookup_cons_self, if_true, Option.map_some]
  · simp only [place, lookup_append, if_neg hk]
    rw [lookup_cons_ne _ hk, List.lookup_nil, Option.or_none]

theorem enter_eq_some (h : l.enter k = some l') :
    ∃ a rest, l.queue = (k, a) :: rest ∧ l.writer = none ∧ (a = .write → l.readers = []) ∧
      l'.queue = rest ∧ (a = .read → l'.readers = k :: l.readers ∧ l'.writer = none) ∧
      (a = .write → l'.readers = [] ∧ l'.writer = some k) := by
  unfold enter at h
  split at h
  · cases h
  · rename_i k' rest hq
    split at h
    · rename_i hk
      obtain ⟨rfl, hw⟩ := hk
      cases h
      exact ⟨.read, rest, hq, hw, nofun, rfl, fun _ => ⟨rfl, hw⟩, nofun⟩
    · cases h
  · rename_i k' rest hq
    split at h
    · rename_i hk
      obtain ⟨rfl, hw, hr⟩ := hk
      cases h
      exact ⟨.write, rest, hq, hw, fun _ => hr, rfl, nofun, fun _ => ⟨rfl, rfl⟩⟩
    · cases h

/-- **Who gets in**: the first in line, a reader where nobody writes, a writer where nobody is
in at all. -/
theorem enter_isSome_iff :
    (l.enter k).isSome ↔ ∃ a rest, l.queue = (k, a) :: rest ∧ l.writer = none ∧
      (a = .write → l.readers = []) := by
  constructor
  · intro h
    obtain ⟨l', hl'⟩ := Option.isSome_iff_exists.mp h
    obtain ⟨a, rest, hq, hw, hr, _⟩ := enter_eq_some hl'
    exact ⟨a, rest, hq, hw, hr⟩
  · rintro ⟨a, rest, hq, hw, hr⟩
    unfold enter
    split
    · rename_i hnil
      rw [hq] at hnil
      cases hnil
    · rename_i hcons
      rw [hq] at hcons
      cases hcons
      simp [hw]
    · rename_i hcons
      rw [hq] at hcons
      cases hcons
      simp [hw, hr rfl]

theorem place_head {rest : List (κ × Access)} (hq : l.queue = (k, a) :: rest) :
    l.place k = some (.waits a) := by
  have h := l.once
  rw [hq, List.map_cons] at h
  obtain ⟨_, _, hd⟩ := List.nodup_append'.mp h
  have hk : k ∉ l.readers ++ l.writer.toList := fun hk => hd hk (by simp)
  simp only [List.mem_append, not_or] at hk
  have hw : l.writer ≠ some k := fun he => hk.2 (by simp [he])
  simp [place, hk.1, hw, hq]

theorem place_enter (h : l.enter k = some l') :
    ∃ a, l.place k = some (.waits a) ∧
      ∀ k', l'.place k' = if k' = k then some (.holds a) else l.place k' := by
  obtain ⟨a, rest, hq, hw, hr, hq', hread, hwrite⟩ := enter_eq_some h
  refine ⟨a, place_head hq, fun k' => ?_⟩
  have hlook : k' ≠ k → l.queue.lookup k' = rest.lookup k' := by
    intro hk
    rw [hq, lookup_cons_ne _ hk]
  cases a with
  | read =>
    obtain ⟨hr', hw'⟩ := hread rfl
    by_cases hk : k' = k
    · simp [place, hr', hk]
    · simp [place, hr', hw', hw, hk, hq', hlook hk]
  | write =>
    obtain ⟨hr', hw'⟩ := hwrite rfl
    by_cases hk : k' = k
    · simp [place, hr', hw', hk]
    · simp [place, hr', hr rfl, hw', hw, hk, Ne.symm hk, hq', hlook hk]

theorem lookup_filter (q : List (κ × Access)) :
    (q.filter (·.1 != k)).lookup k' = if k' = k then none else q.lookup k' := by
  induction q with
  | nil => simp
  | cons x q ih =>
    obtain ⟨y, b⟩ := x
    by_cases hy : y = k
    · subst hy
      rw [List.filter_cons_of_neg (by simp), ih]
      split
      · rfl
      · exact (lookup_cons_ne _ ‹_›).symm
    · rw [List.filter_cons_of_pos (by simpa using hy)]
      by_cases hk' : k' = y
      · subst hk'
        rw [List.lookup_cons_self, List.lookup_cons_self, if_neg hy]
      · rw [lookup_cons_ne _ hk', lookup_cons_ne _ hk', ih]

theorem filter_eq_some {w : Option κ} :
    w.filter (· != k) = some k' ↔ w = some k' ∧ k' ≠ k := by
  cases w with
  | none => simp
  | some x =>
    rw [Option.filter_eq_some_iff]
    simp

theorem place_leave : (l.leave k).place k' = if k' = k then none else l.place k' := by
  unfold place leave
  simp only [List.mem_filter, bne_iff_ne, filter_eq_some, lookup_filter]
  by_cases hk : k' = k
  · simp [hk]
  · simp [hk]

theorem place_pass (h : l.pass k = some l') :
    ∃ a, l.place k = some (.waits a) ∧
      ∀ k', l'.place k' = if k' = k then none else l.place k' := by
  obtain ⟨m, hm, rfl⟩ := Option.map_eq_some_iff.mp h
  obtain ⟨a, ha, hall⟩ := place_enter hm
  refine ⟨a, ha, fun k' => ?_⟩
  rw [place_leave, hall]
  split <;> rfl

theorem reader_iff : k ∈ l.readers ↔ l.place k = some (.holds .read) := by
  unfold place
  split
  · simp [*]
  · rename_i hr
    simp only [hr, false_iff]
    split
    · simp
    · cases l.queue.lookup k <;> simp

/-- Nobody holds a lock that a writer passes. -/
theorem no_reader_of_pass (h : l.pass k = some l') (hk : l.place k = some (.waits .write)) :
    ∀ k', l.place k' ≠ some (.holds .read) := by
  obtain ⟨m, hm, -⟩ := Option.map_eq_some_iff.mp h
  obtain ⟨a, rest, hq, _, hr, _⟩ := enter_eq_some hm
  obtain rfl : a = .write := by
    have := (place_head hq).symm.trans hk
    simpa using this
  intro k' hk'
  have := reader_iff.mpr hk'
  rw [hr rfl] at this
  cases this

/-- Where somebody waits and nobody has the lock, the first in line gets in. -/
theorem exists_enter (hq : l.queue ≠ []) (hw : l.writer = none) (hr : l.readers = []) :
    ∃ k, (l.enter k).isSome := by
  obtain ⟨⟨k, a⟩, rest, hcons⟩ := List.exists_cons_of_ne_nil hq
  exact ⟨k, enter_isSome_iff.mpr ⟨a, rest, hcons, hw, fun _ => hr⟩⟩

end RwLock

end FilePeeker
