import Mathlib.Data.List.Basic

/-!
# Bytes read as UTF-8

`front` says what stands at the front of some bytes: a whole character, a
sequence that breaks off at a byte that cannot follow, or one the input is too
short for.  `fromUtf8` validates by it, and reports how far the bytes are valid
and how long the bad sequence after that is.  `chunks` cuts any bytes at all into
characters and junk the same way.

UTF-8 resynchronises: no sequence, whole or broken, goes on past a byte that is
not a continuation byte.  So cutting `a ++ b` cuts `a` and then `b` whenever `b`
does not begin with one (`chunks_append`), and a character that occurs anywhere
in some bytes is a chunk of them (`chunks_around`).
-/

namespace FilePeeker

abbrev Bytes := List UInt8

namespace Utf8

variable {bs run rest a b t : Bytes} {c d lo hi : UInt8} {n m k : Nat}

/-! ### The table -/

/-- How many continuation bytes a first byte from `0x80` on asks for, and the
range of the first of them. -/
def lead (c : UInt8) : Option (Nat × UInt8 × UInt8) :=
  if 0xC2 ≤ c ∧ c ≤ 0xDF then some (1, 0x80, 0xBF)
  else if c = 0xE0 then some (2, 0xA0, 0xBF)
  else if 0xE1 ≤ c ∧ c ≤ 0xEC then some (2, 0x80, 0xBF)
  else if c = 0xED then some (2, 0x80, 0x9F)
  else if 0xEE ≤ c ∧ c ≤ 0xEF then some (2, 0x80, 0xBF)
  else if c = 0xF0 then some (3, 0x90, 0xBF)
  else if 0xF1 ≤ c ∧ c ≤ 0xF3 then some (3, 0x80, 0xBF)
  else if c = 0xF4 then some (3, 0x80, 0x8F)
  else none

/-- A byte that goes on with a character and starts none. -/
def IsCont (c : UInt8) : Prop := 0x80 ≤ c ∧ c ≤ 0xBF

instance : DecidablePred IsCont := fun _ => inferInstanceAs (Decidable (_ ∧ _))

/-- What the first bytes are, with its length where the input holds all of it. -/
inductive Front
  | whole (n : Nat)
  | broken (n : Nat)
  | cut
deriving DecidableEq, Repr

/-- Reads `n` continuation bytes after the first `k` bytes of a sequence, the
first of them between `lo` and `hi`. -/
def follow (k : Nat) : Nat → UInt8 → UInt8 → Bytes → Front
  | 0, _, _, _ => .whole k
  | _ + 1, _, _, [] => .cut
  | n + 1, lo, hi, c :: t =>
    if lo ≤ c ∧ c ≤ hi then follow (k + 1) n 0x80 0xBF t else .broken k

def front : Bytes → Front
  | [] => .cut
  | c :: t =>
    if c < 0x80 then .whole 1
    else match lead c with
      | none => .broken 1
      | some (n, lo, hi) => follow 1 n lo hi t

/-- The bytes of one character, and nothing else. -/
def IsChar (run : Bytes) : Prop := front run = .whole run.length

instance : DecidablePred IsChar := fun _ => inferInstanceAs (Decidable (_ = _))

theorem lead_of_lt (h : c < 0xC2) : lead c = none := by
  unfold lead
  split_ifs
  all_goals first | rfl | grind

theorem lead_of_isCont (h : IsCont c) : lead c = none :=
  lead_of_lt (UInt8.lt_of_le_of_lt h.2 (by decide))

theorem lead_range (h : lead c = some (n, lo, hi)) : 0x80 ≤ lo ∧ hi ≤ 0xBF := by
  unfold lead at h
  split_ifs at h
  all_goals simp only [Option.some.injEq, Prod.mk.injEq] at h
  all_goals
    obtain ⟨-, rfl, rfl⟩ := h
    exact ⟨by decide, by decide⟩

/-! ### A sequence and what follows it -/

/-- What a sequence reads: how long it is, and that it went over continuation
bytes only. -/
theorem follow_spec : ∀ {n : Nat} {lo hi : UInt8} {t : Bytes} {k : Nat},
    0x80 ≤ lo → hi ≤ 0xBF →
    match follow k n lo hi t with
    | .whole m => m = k + n ∧ n ≤ t.length ∧ ∀ c ∈ t.take n, IsCont c
    | .broken m => k ≤ m ∧ m - k < n ∧ m - k < t.length ∧ ∀ c ∈ t.take (m - k), IsCont c
    | .cut => t.length < n ∧ ∀ c ∈ t, IsCont c := by
  intro n
  induction n with
  | zero => intro lo hi t k _ _; simp [follow]
  | succ n ih =>
    intro lo hi t k hlo hhi
    cases t with
    | nil => simp [follow]
    | cons c t =>
      rw [follow]
      by_cases hc : lo ≤ c ∧ c ≤ hi
      · have hcont : IsCont c := ⟨UInt8.le_trans hlo hc.1, UInt8.le_trans hc.2 hhi⟩
        have := @ih 0x80 0xBF t (k + 1) (by decide) (by decide)
        rw [if_pos hc]
        cases hf : follow (k + 1) n 0x80 0xBF t with
        | whole m =>
          rw [hf] at this
          obtain ⟨hm, hn, hall⟩ := this
          refine ⟨by omega, by simp only [List.length_cons]; omega, ?_⟩
          simpa [hcont] using hall
        | broken m =>
          rw [hf] at this
          obtain ⟨hm, hn, hl, hall⟩ := this
          have he : m - k = (m - (k + 1)) + 1 := by omega
          refine ⟨by omega, by omega, by simp only [List.length_cons]; omega, ?_⟩
          rw [he, List.take_succ_cons]
          simpa [hcont] using hall
        | cut =>
          rw [hf] at this
          refine ⟨by simp only [List.length_cons]; omega, ?_⟩
          simpa [hcont] using this.2
      · rw [if_neg hc]
        simp

/-- More input changes nothing of a sequence that was read to its end. -/
theorem follow_append : ∀ {n : Nat} {lo hi : UInt8} {t : Bytes} {k : Nat} (b : Bytes),
    follow k n lo hi t ≠ .cut → follow k n lo hi (t ++ b) = follow k n lo hi t := by
  intro n
  induction n with
  | zero => intro lo hi t k b _; simp [follow]
  | succ n ih =>
    intro lo hi t k b h
    cases t with
    | nil => simp [follow] at h
    | cons c t =>
      rw [List.cons_append, follow, follow]
      by_cases hc : lo ≤ c ∧ c ≤ hi
      · rw [if_pos hc, if_pos hc]
        rw [follow, if_pos hc] at h
        exact ih b h
      · rw [if_neg hc, if_neg hc]

theorem follow_take : ∀ {n : Nat} {lo hi : UInt8} {t : Bytes} {k m : Nat},
    follow k n lo hi t = .whole m → follow k n lo hi (t.take n) = .whole m := by
  intro n
  induction n with
  | zero => intro lo hi t k m h; simpa [follow] using h
  | succ n ih =>
    intro lo hi t k m h
    cases t with
    | nil => simp [follow] at h
    | cons c t =>
      rw [follow] at h
      rw [List.take_succ_cons, follow]
      by_cases hc : lo ≤ c ∧ c ≤ hi
      · rw [if_pos hc] at h ⊢
        exact ih h
      · rw [if_neg hc] at h
        simp at h

/-- A sequence the input was too short for breaks off at a byte that does not
go on with it. -/
theorem follow_cut_append : ∀ {n : Nat} {lo hi : UInt8} {t : Bytes} {k : Nat},
    0x80 ≤ lo → hi ≤ 0xBF → ¬ IsCont c → follow k n lo hi t = .cut →
    follow k n lo hi (t ++ c :: b) = .broken (k + t.length) := by
  intro n
  induction n with
  | zero => intro lo hi t k _ _ _ h; simp [follow] at h
  | succ n ih =>
    intro lo hi t k hlo hhi hcont h
    cases t with
    | nil =>
      have hc : ¬ (lo ≤ c ∧ c ≤ hi) := fun h =>
        hcont ⟨UInt8.le_trans hlo h.1, UInt8.le_trans h.2 hhi⟩
      simp [follow, hc]
    | cons d t =>
      rw [follow] at h
      rw [List.cons_append, follow]
      by_cases hd : lo ≤ d ∧ d ≤ hi
      · rw [if_pos hd] at h ⊢
        rw [ih (by decide) (by decide) hcont h, List.length_cons]
        congr 1
        omega
      · rw [if_neg hd] at h
        simp at h

/-! ### The front of some bytes -/

/-- How many bytes the front takes. -/
def Front.len (bs : Bytes) : Front → Nat
  | .whole n => n
  | .broken n => n
  | .cut => bs.length

theorem front_cons (c : UInt8) (t : Bytes) :
    front (c :: t) = if c < 0x80 then .whole 1
      else match lead c with
        | none => .broken 1
        | some (n, lo, hi) => follow 1 n lo hi t := rfl

theorem front_ascii (h : c < 0x80) : front (c :: t) = .whole 1 := if_pos h

/-- The front is not empty, and all of it but its first byte are continuation
bytes. -/
theorem front_len (c : UInt8) (t : Bytes) :
    ∃ n, (front (c :: t)).len (c :: t) = n + 1 ∧ n ≤ t.length ∧ ∀ d ∈ t.take n, IsCont d := by
  rw [front_cons]
  by_cases hc : c < 0x80
  · rw [if_pos hc]
    exact ⟨0, rfl, by omega, by simp⟩
  · rw [if_neg hc]
    cases hl : lead c with
    | none => exact ⟨0, rfl, by omega, by simp⟩
    | some r =>
      obtain ⟨n, lo, hi⟩ := r
      obtain ⟨hlo, hhi⟩ := lead_range hl
      have h := follow_spec (n := n) (t := t) (k := 1) hlo hhi
      show ∃ n', (follow 1 n lo hi t).len (c :: t) = n' + 1 ∧ _
      cases hf : follow 1 n lo hi t with
      | whole m =>
        rw [hf] at h
        obtain ⟨rfl, hn, hall⟩ := h
        exact ⟨n, by simp only [Front.len]; omega, hn, hall⟩
      | broken m =>
        rw [hf] at h
        obtain ⟨hm, -, hl, hall⟩ := h
        exact ⟨m - 1, by simp only [Front.len]; omega, by omega, hall⟩
      | cut =>
        rw [hf] at h
        exact ⟨t.length, rfl, Nat.le_refl _, by simpa using h.2⟩

theorem front_whole_le (h : front bs = .whole n) : 1 ≤ n ∧ n ≤ bs.length := by
  cases bs with
  | nil => simp [front] at h
  | cons c t =>
    obtain ⟨m, hm, hle, -⟩ := front_len c t
    rw [h] at hm
    simp only [Front.len] at hm
    simp only [List.length_cons]
    omega

theorem front_broken_le (h : front bs = .broken n) : 1 ≤ n ∧ n ≤ bs.length := by
  cases bs with
  | nil => simp [front] at h
  | cons c t =>
    obtain ⟨m, hm, hle, -⟩ := front_len c t
    rw [h] at hm
    simp only [Front.len] at hm
    simp only [List.length_cons]
    omega

/-- A character is the same whatever follows it. -/
theorem isChar_append (h : IsChar run) (rest : Bytes) :
    front (run ++ rest) = .whole run.length := by
  cases run with
  | nil => simp [IsChar, front] at h
  | cons c t =>
    rw [IsChar, front_cons] at h
    rw [List.cons_append, front_cons]
    by_cases hc : c < 0x80
    · rw [if_pos hc] at h ⊢
      exact h
    · rw [if_neg hc] at h ⊢
      cases hl : lead c with
      | none => rw [hl] at h; simp at h
      | some r =>
        obtain ⟨n, lo, hi⟩ := r
        rw [hl] at h
        simp only at h ⊢
        rw [follow_append rest (by rw [h]; simp), h]

theorem isChar_take (h : front bs = .whole n) : IsChar (bs.take n) := by
  obtain ⟨h1, hle⟩ := front_whole_le h
  rw [IsChar, List.length_take, Nat.min_eq_left hle]
  cases bs with
  | nil => simp [front] at h
  | cons c t =>
    obtain ⟨n, rfl⟩ : ∃ m, n = m + 1 := ⟨n - 1, by omega⟩
    rw [front_cons] at h
    rw [List.take_succ_cons, front_cons]
    by_cases hc : c < 0x80
    · rw [if_pos hc] at h ⊢
      exact h
    · rw [if_neg hc] at h ⊢
      cases hl : lead c with
      | none => rw [hl] at h; simp at h
      | some r =>
        obtain ⟨m, lo, hi⟩ := r
        rw [hl] at h
        simp only at h ⊢
        have hspec := follow_spec (n := m) (t := t) (k := 1) (lead_range hl).1 (lead_range hl).2
        rw [h] at hspec
        have hm : n = m := by omega
        subst hm
        exact follow_take h

/-- A character begins with no continuation byte, and goes on with nothing
else. -/
theorem isChar_cons (h : IsChar (c :: t)) : ¬ IsCont c ∧ ∀ d ∈ t, IsCont d := by
  refine ⟨fun hc => ?_, fun d hd => ?_⟩
  · rw [IsChar, front_cons, if_neg (UInt8.not_lt.mpr hc.1), lead_of_isCont hc] at h
    simp at h
  · obtain ⟨n, hn, -, hall⟩ := front_len c t
    rw [IsChar] at h
    rw [h] at hn
    simp only [Front.len, List.length_cons] at hn
    have : n = t.length := by omega
    subst this
    exact hall d (by simpa using hd)

/-- More input changes nothing of a front that was read to its end. -/
theorem front_append (b : Bytes) (h : front bs ≠ .cut) : front (bs ++ b) = front bs := by
  cases bs with
  | nil => exact absurd rfl h
  | cons c t =>
    rw [front_cons] at h
    rw [List.cons_append, front_cons, front_cons]
    by_cases hc : c < 0x80
    · rw [if_pos hc, if_pos hc]
    · rw [if_neg hc] at h
      rw [if_neg hc, if_neg hc]
      cases hl : lead c with
      | none => rfl
      | some r =>
        obtain ⟨n, lo, hi⟩ := r
        rw [hl] at h
        exact follow_append b h

/-- A sequence the input was too short for breaks off where it ended. -/
theorem front_cut_append (hd : ¬ IsCont d) (h : front (c :: t) = .cut) :
    front (c :: t ++ d :: b) = .broken (t.length + 1) := by
  rw [front_cons] at h
  rw [List.cons_append, front_cons]
  by_cases hc : c < 0x80
  · rw [if_pos hc] at h
    simp at h
  · rw [if_neg hc] at h ⊢
    cases hl : lead c with
    | none => rw [hl] at h; simp at h
    | some r =>
      obtain ⟨n, lo, hi⟩ := r
      rw [hl] at h
      show follow 1 n lo hi (t ++ d :: b) = _
      rw [follow_cut_append (lead_range hl).1 (lead_range hl).2 hd h, Nat.add_comm]

theorem IsChar.ne_nil (h : IsChar run) : run ≠ [] := by
  rintro rfl
  simp [IsChar, front] at h

/-- What is junk at the front has no ASCII byte. -/
theorem front_junk (h : ∀ n, front (c :: t) ≠ .whole n) : 0x80 ≤ c := by
  rw [← UInt8.not_lt]
  intro hc
  exact h 1 (front_ascii hc)

/-- A character of more than one byte has no ASCII byte. -/
theorem IsChar.high (h : IsChar (c :: t)) (hc : 0x80 ≤ c) : ∀ d ∈ c :: t, 0x80 ≤ d := by
  intro d hd
  rcases List.mem_cons.mp hd with rfl | hd
  · exact hc
  · exact ((isChar_cons h).2 d hd).1

theorem isChar_singleton (hc : c < 0x80) : IsChar [c] := front_ascii hc

theorem IsChar.ascii (h : IsChar (c :: t)) (hc : c < 0x80) : t = [] := by
  rw [IsChar, front_ascii hc] at h
  simp only [Front.whole.injEq, List.length_cons] at h
  exact List.length_eq_zero_iff.mp (by omega)

/-! ### Validating -/

/-- `core::str::Utf8Error`: how far the bytes are valid, and how long the bad
sequence there is, if the input holds all of it. -/
structure Utf8Error where
  validUpTo : Nat
  errorLen : Option Nat
deriving DecidableEq, Repr

def fromUtf8At (validUpTo : Nat) (bs : Bytes) : Except Utf8Error Unit :=
  if bs = [] then .ok ()
  else match _h : front bs with
    | .whole n => fromUtf8At (validUpTo + n) (bs.drop n)
    | .broken n => .error ⟨validUpTo, some n⟩
    | .cut => .error ⟨validUpTo, none⟩
termination_by bs.length
decreasing_by
  have := front_whole_le _h
  rw [List.length_drop]
  omega

theorem fromUtf8At_nil (k : Nat) : fromUtf8At k [] = .ok () := by rw [fromUtf8At, if_pos rfl]

theorem fromUtf8At_whole (h : front bs = .whole n) (k : Nat) :
    fromUtf8At k bs = fromUtf8At (k + n) (bs.drop n) := by
  have hne : bs ≠ [] := by rintro rfl; simp [front] at h
  rw [fromUtf8At, if_neg hne]
  split
  · next m h' => rw [h, Front.whole.injEq] at h'; rw [h']
  · next m h' => rw [h] at h'; simp at h'
  · next h' => rw [h] at h'; simp at h'

theorem fromUtf8At_broken (h : front bs = .broken n) (k : Nat) :
    fromUtf8At k bs = .error ⟨k, some n⟩ := by
  have hne : bs ≠ [] := by rintro rfl; simp [front] at h
  rw [fromUtf8At, if_neg hne]
  split
  · next m h' => rw [h] at h'; simp at h'
  · next m h' => rw [h, Front.broken.injEq] at h'; rw [h']
  · next h' => rw [h] at h'; simp at h'

theorem fromUtf8At_cut (hne : bs ≠ []) (h : front bs = .cut) (k : Nat) :
    fromUtf8At k bs = .error ⟨k, none⟩ := by
  rw [fromUtf8At, if_neg hne]
  split
  · next m h' => rw [h] at h'; simp at h'
  · next m h' => rw [h] at h'; simp at h'
  · rfl

/-- `str::from_utf8`, without the text it returns: that is the bytes. -/
def fromUtf8 (bs : Bytes) : Except Utf8Error Unit := fromUtf8At 0 bs

/-- Bytes that are characters one after the other. -/
inductive Valid : Bytes → Prop
  | nil : Valid []
  | char {run rest : Bytes} (h : IsChar run) (hrest : Valid rest) : Valid (run ++ rest)

theorem Valid.append (ha : Valid a) (hb : Valid b) : Valid (a ++ b) := by
  induction ha with
  | nil => exact hb
  | char h _ ih => rw [List.append_assoc]; exact .char h ih

theorem Valid.singleton (hc : c < 0x80) : Valid [c] := Valid.char (isChar_singleton hc) .nil

theorem Valid.ofAscii (h : bs.all (· < 0x80) = true) : Valid bs := by
  induction bs with
  | nil => exact .nil
  | cons c bs ih =>
    rw [List.all_cons, Bool.and_eq_true, decide_eq_true_iff] at h
    exact (Valid.singleton h.1).append (ih h.2)

/-- Valid bytes begin with a whole character, and go on valid after it. -/
theorem Valid.cons_inv (h : Valid (c :: t)) : ∃ run rest, c :: t = run ++ rest ∧ IsChar run ∧
    front (c :: t) = .whole run.length ∧ Valid rest := by
  generalize hbs : c :: t = bs at h
  cases h with
  | nil => simp at hbs
  | char hrun hrest => exact ⟨_, _, rfl, hrun, isChar_append hrun _, hrest⟩

theorem Valid.ascii_inv (h : Valid (c :: t)) (hc : c < 0x80) : Valid t := by
  obtain ⟨run, rest, heq, hrun, -, hrest⟩ := h.cons_inv
  cases run with
  | nil => exact absurd rfl hrun.ne_nil
  | cons d run =>
    rw [List.cons_append, List.cons.injEq] at heq
    obtain ⟨rfl, rfl⟩ := heq
    rw [hrun.ascii hc]
    exact hrest

/-- An ASCII byte cuts valid text into valid halves. -/
theorem Valid.around_ascii (h : Valid bs) (hc : c < 0x80) :
    ∀ {a b : Bytes}, bs = a ++ c :: b → Valid a ∧ Valid b := by
  induction h with
  | nil => intro a b heq; simp at heq
  | @char run rest hrun hrest ih =>
    intro a b heq
    rcases List.append_eq_append_iff.mp heq with ⟨a', rfl, hrest'⟩ | ⟨run', hrun', heq'⟩
    · obtain ⟨ha, hb⟩ := ih hrest'
      exact ⟨.char hrun ha, hb⟩
    · cases run' with
      | nil =>
        rw [List.append_nil] at hrun'
        obtain ⟨-, hb⟩ := ih (a := []) heq'.symm
        rw [← hrun', ← List.append_nil run]
        exact ⟨.char hrun .nil, hb⟩
      | cons d run' =>
        -- The byte is inside a character, so it is the whole of it.
        rw [List.cons_append, List.cons.injEq] at heq'
        obtain ⟨rfl, rfl⟩ := heq'
        cases a with
        | nil =>
          rw [List.nil_append] at hrun'
          subst hrun'
          rw [hrun.ascii hc]
          exact ⟨.nil, hrest⟩
        | cons e a =>
          rw [List.cons_append] at hrun'
          subst hrun'
          have hcont := (isChar_cons hrun).2 c (by simp)
          exact absurd hcont.1 (UInt8.not_le.mpr hc)

theorem Valid.not_cont (h : Valid (c :: t)) : ¬ IsCont c := by
  obtain ⟨run, rest, heq, hrun, -, -⟩ := h.cons_inv
  cases run with
  | nil => exact absurd rfl hrun.ne_nil
  | cons d run =>
    rw [List.cons_append, List.cons.injEq] at heq
    rw [heq.1]
    exact (isChar_cons hrun).1

/-- What `fromUtf8` reports: the bytes are valid, or valid up to where a bad
sequence of the reported length stands. -/
theorem fromUtf8At_spec : ∀ (bs : Bytes) (k : Nat),
    match fromUtf8At k bs with
    | .ok () => Valid bs
    | .error e => ∃ n, e.validUpTo = k + n ∧ n < bs.length ∧ Valid (bs.take n) ∧
        match e.errorLen with
        | some m => front (bs.drop n) = .broken m
        | none => front (bs.drop n) = .cut := by
  intro bs
  induction hn : bs.length using Nat.strongRecOn generalizing bs with
  | ind len ih =>
    intro k
    by_cases hbs : bs = []
    · subst hbs
      rw [fromUtf8At_nil]
      exact .nil
    · have hlen : 0 < bs.length := List.length_pos_iff.mpr hbs
      cases hf : front bs with
      | whole n =>
        obtain ⟨h1, hle⟩ := front_whole_le hf
        have := ih (bs.drop n).length (by rw [List.length_drop]; omega) _ rfl (k + n)
        have hchar := isChar_take hf
        rw [fromUtf8At_whole hf]
        cases hr : fromUtf8At (k + n) (bs.drop n) with
        | ok u =>
          rw [hr] at this
          show Valid bs
          rw [← List.take_append_drop n bs]
          exact .char hchar this
        | error e =>
          rw [hr] at this
          obtain ⟨m, hm, hlt, hv, he⟩ := this
          rw [List.length_drop] at hlt
          refine ⟨n + m, by omega, by omega, ?_, ?_⟩
          · rw [List.take_add]
            exact .char hchar hv
          · rwa [List.drop_drop] at he
      | broken n =>
        rw [fromUtf8At_broken hf]
        exact ⟨0, rfl, hn ▸ hlen, .nil, hf⟩
      | cut =>
        rw [fromUtf8At_cut hbs hf]
        exact ⟨0, rfl, hn ▸ hlen, .nil, hf⟩

theorem fromUtf8_iff : fromUtf8 bs = .ok () ↔ Valid bs := by
  constructor
  · intro h
    have := fromUtf8At_spec bs 0
    rw [← fromUtf8, h] at this
    exact this
  · intro h
    suffices ∀ k, fromUtf8At k bs = .ok () from this 0
    induction h with
    | nil => exact fromUtf8At_nil
    | char hrun _ ih =>
      intro k
      rw [fromUtf8At_whole (isChar_append hrun _), List.drop_left]
      exact ih _

instance : DecidablePred Valid := fun _ => decidable_of_iff _ fromUtf8_iff

/-! ### Cutting any bytes into characters and junk -/

inductive Chunk
  | char (run : Bytes)
  /-- A sequence that breaks off, or that the input is too short for. -/
  | junk (run : Bytes)
deriving DecidableEq, Repr

def Chunk.bytes : Chunk → Bytes
  | .char run => run
  | .junk run => run

def chunks (bs : Bytes) : List Chunk :=
  if bs = [] then []
  else match _h : front bs with
    | .whole n => .char (bs.take n) :: chunks (bs.drop n)
    | .broken n => .junk (bs.take n) :: chunks (bs.drop n)
    | .cut => [.junk bs]
termination_by bs.length
decreasing_by
  · have := front_whole_le _h
    rw [List.length_drop]
    omega
  · have := front_broken_le _h
    rw [List.length_drop]
    omega

@[simp] theorem chunks_nil : chunks [] = [] := by rw [chunks, if_pos rfl]

theorem chunks_whole (h : front bs = .whole n) :
    chunks bs = .char (bs.take n) :: chunks (bs.drop n) := by
  have hne : bs ≠ [] := by rintro rfl; simp [front] at h
  rw [chunks, if_neg hne]
  split
  · next m h' => rw [h, Front.whole.injEq] at h'; rw [h']
  · next m h' => rw [h] at h'; simp at h'
  · next h' => rw [h] at h'; simp at h'

theorem chunks_broken (h : front bs = .broken n) :
    chunks bs = .junk (bs.take n) :: chunks (bs.drop n) := by
  have hne : bs ≠ [] := by rintro rfl; simp [front] at h
  rw [chunks, if_neg hne]
  split
  · next m h' => rw [h] at h'; simp at h'
  · next m h' => rw [h, Front.broken.injEq] at h'; rw [h']
  · next h' => rw [h] at h'; simp at h'

theorem chunks_cut (hne : bs ≠ []) (h : front bs = .cut) : chunks bs = [.junk bs] := by
  rw [chunks, if_neg hne]
  split
  · next m h' => rw [h] at h'; simp at h'
  · next m h' => rw [h] at h'; simp at h'
  · rfl

/-- Bytes are nothing, or a character and more, or junk and more. -/
theorem chunks_induction {P : Bytes → Prop} (nil : P [])
    (char : ∀ run rest, IsChar run → front (run ++ rest) = .whole run.length →
      chunks (run ++ rest) = .char run :: chunks rest → P rest → P (run ++ rest))
    (junk : ∀ c run rest, (∀ n, front (c :: run ++ rest) ≠ .whole n) → (∀ d ∈ run, IsCont d) →
      front (c :: run ++ rest) = .broken (run.length + 1) ∨
        front (c :: run ++ rest) = .cut ∧ rest = [] →
      chunks (c :: run ++ rest) = .junk (c :: run) :: chunks rest → P rest → P (c :: run ++ rest)) :
    ∀ bs, P bs := by
  intro bs
  induction hn : bs.length using Nat.strongRecOn generalizing bs with
  | ind len ih =>
    cases bs with
    | nil => exact nil
    | cons c t =>
      obtain ⟨m, hm, hle, hcont⟩ := front_len c t
      have hP : P ((c :: t).drop (m + 1)) := by
        refine ih _ ?_ _ rfl
        rw [← hn, List.length_drop, List.length_cons]
        omega
      have hsplit : c :: t = (c :: t.take m) ++ t.drop m := by
        rw [List.cons_append, List.take_append_drop]
      have hlen : (c :: t.take m).length = m + 1 := by
        rw [List.length_cons, List.length_take, Nat.min_eq_left hle]
      cases hf : front (c :: t) with
      | whole n =>
        rw [hf] at hm
        obtain rfl : n = m + 1 := hm
        have hchar := isChar_take hf
        have hc := chunks_whole hf
        rw [List.take_succ_cons] at hchar hc
        rw [List.drop_succ_cons] at hc
        rw [hsplit] at hc hf ⊢
        exact char _ _ hchar (by rw [hlen]; exact hf) hc hP
      | broken n =>
        rw [hf] at hm
        obtain rfl : n = m + 1 := hm
        have hc := chunks_broken hf
        rw [List.take_succ_cons, List.drop_succ_cons] at hc
        rw [hsplit] at hc hf ⊢
        exact junk _ _ _ (by rw [hf]; simp) hcont
          (.inl (by rw [hf, List.length_take, Nat.min_eq_left hle])) hc hP
      | cut =>
        rw [hf] at hm
        have htm : t.length = m := by simpa [Front.len] using hm
        have ht : t.take m = t := List.take_of_length_le (by omega)
        have hd : t.drop m = [] := List.drop_of_length_le (by omega)
        have hc := chunks_cut (by simp) hf
        rw [ht] at hcont
        have := junk c t [] (by rw [List.append_nil, hf]; simp) hcont
          (.inr ⟨by rw [List.append_nil, hf], rfl⟩) (by rw [List.append_nil, hc, chunks_nil]) nil
        rwa [List.append_nil] at this

/-- Nothing is lost. -/
theorem chunks_bytes (bs : Bytes) : (chunks bs).flatMap Chunk.bytes = bs := by
  induction bs using chunks_induction with
  | nil => rw [chunks_nil, List.flatMap_nil]
  | char run rest _ _ hc ih => rw [hc, List.flatMap_cons, ih]; rfl
  | junk c run rest _ _ _ hc ih => rw [hc, List.flatMap_cons, ih]; rfl

/-- A character wherever it stands first is a chunk. -/
theorem chunks_of_isChar (h : IsChar run) (rest : Bytes) :
    chunks (run ++ rest) = .char run :: chunks rest := by
  rw [chunks_whole (isChar_append h rest), List.take_left, List.drop_left]

theorem chunks_of_valid (h : Valid bs) (rest : Bytes) :
    ∃ runs : List Bytes, (∀ run ∈ runs, IsChar run) ∧ runs.flatten = bs ∧
      chunks (bs ++ rest) = runs.map Chunk.char ++ chunks rest := by
  induction h with
  | nil => exact ⟨[], by simp, rfl, rfl⟩
  | char hrun _ ih =>
    rename_i run more _
    obtain ⟨runs, hruns, hflat, hc⟩ := ih
    refine ⟨run :: runs, ?_, by rw [List.flatten_cons, hflat], ?_⟩
    · intro r hr
      rcases List.mem_cons.mp hr with rfl | hr
      · exact hrun
      · exact hruns r hr
    · rw [List.append_assoc, chunks_of_isChar hrun, hc, List.map_cons, List.cons_append]

/-- Cutting begins afresh at a byte that is no continuation byte. -/
theorem chunks_append (hb : ∀ c ∈ b.head?, ¬ IsCont c) :
    chunks (a ++ b) = chunks a ++ chunks b := by
  induction a using chunks_induction with
  | nil => rw [chunks_nil, List.nil_append, List.nil_append]
  | char run rest hrun _ hc ih =>
    rw [hc, List.append_assoc, chunks_of_isChar hrun, ih, List.cons_append]
  | junk c run rest hf _ hend hc ih =>
    have hlen : (c :: run).length = run.length + 1 := rfl
    have hbroken : front (c :: run ++ (rest ++ b)) = .broken (run.length + 1) →
        chunks (c :: run ++ rest ++ b) = chunks (c :: run ++ rest) ++ chunks b := by
      intro h
      rw [List.append_assoc, chunks_broken h, ← hlen, List.take_left, List.drop_left, ih, hc,
        List.cons_append]
    rcases hend with hend | ⟨hend, rfl⟩
    · apply hbroken
      rw [← List.append_assoc, front_append b (by rw [hend]; simp), hend]
    · cases b with
      | nil => rw [List.append_nil, List.append_nil, chunks_nil, List.append_nil]
      | cons d b =>
        apply hbroken
        rw [List.append_nil] at hend
        exact front_cut_append (hb d rfl) hend

/-- Where a character occurs in some bytes, it is a chunk of them. -/
theorem chunks_around (h : IsChar run) :
    chunks (a ++ (run ++ b)) = chunks a ++ .char run :: chunks b := by
  rw [chunks_append, chunks_of_isChar h]
  intro c hc
  cases run with
  | nil => exact absurd rfl h.ne_nil
  | cons d run =>
    obtain rfl : d = c := by simpa using hc
    exact (isChar_cons h).1

end Utf8

end FilePeeker
