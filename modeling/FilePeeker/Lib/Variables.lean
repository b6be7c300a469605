import FilePeeker.Lib.Code
import FilePeeker.Lib.ShellWords

/-!
# Variables in a text

`$NAME` and `$` with the name in braces stand for the value of a variable
(`substituted`).  A text that holds no reference (`hasReference`) stands for itself; one
in which every `$` begins a reference has no `$` left once the values are put in, where
the values have none (`dollar_notMem_of_substituted`).

What else a `$` may mean differs: a second `$`, a default in the braces, a name beyond
ASCII.  Such a `$` is counted as a reference, and is not `Plain`.
-/

namespace FilePeeker.Variables

open Utf8 Shell

def openBrace : UInt8 := 0x7B
def closeBrace : UInt8 := 0x7D

/-- A byte that may go on a name. -/
def inName (c : UInt8) : Bool := isNameByte c || 0x80 ≤ c

/-- A name in ASCII that no digit begins. -/
def isName (name : Bytes) : Bool :=
  name.all isNameByte && (match name with
    | [] => false
    | c :: _ => !isDigit c)

/-- What is behind a `$` makes a reference of it. -/
def beginsReference : Bytes → Bool
  | [] => false
  | c :: rest => inName c || c = dollar || (c = openBrace && rest.contains closeBrace)

/-- A `$` of the text begins a reference. -/
def hasReference : Bytes → Bool
  | [] => false
  | c :: rest => (c = dollar && beginsReference rest) || hasReference rest

/-- A name that the text begins with, and what is behind it. -/
def named (text : Bytes) : Option (Bytes × Bytes) :=
  let name := text.takeWhile inName
  if isName name then some (name, text.dropWhile inName) else none

def closed : Bytes × Bytes → Option (Bytes × Bytes)
  | (_, []) => none
  | (name, c :: rest) => if c = closeBrace then some (name, rest) else none

/-- The name that follows a `$`, and what is behind the reference. -/
def reference : Bytes → Option (Bytes × Bytes)
  | [] => none
  | c :: text => if c = openBrace then (named text).bind closed else named (c :: text)

/-- What the text comes to from the first of its references on. -/
def substitutedFrom (var : Bytes → Option Bytes) : List Bytes → Option Bytes
  | [] => some []
  | behind :: more => do
    let (name, rest) ← reference behind
    let value ← var name
    let text ← substitutedFrom var more
    return value ++ rest ++ text

/-- The text with the values in the places of the references; none where a variable has no
value. -/
def substituted (var : Bytes → Option Bytes) (text : Bytes) : Option Bytes :=
  match text.splitOn dollar with
  | [] => some []
  | first :: more => (substitutedFrom var more).map (first ++ ·)

/-- Every `$` begins a reference. -/
def Plain (text : Bytes) : Prop := ∀ behind ∈ (text.splitOn dollar).tail, (reference behind).isSome

instance : DecidablePred Plain :=
  fun text => inferInstanceAs (Decidable (∀ behind ∈ (text.splitOn dollar).tail, _))

variable {var : Bytes → Option Bytes} {text out first behind rest name a b : Bytes}
  {more : List Bytes}

/-! ### References -/

theorem hasReference_append (h : beginsReference b) (a : Bytes) :
    hasReference (a ++ dollar :: b) := by
  induction a with
  | nil => simp [hasReference, h]
  | cons c a ih => simp [hasReference, ih]

theorem not_hasReference_of_notMem (h : dollar ∉ text) : hasReference text = false := by
  induction text with
  | nil => rfl
  | cons c rest ih =>
    obtain ⟨hc, hrest⟩ := not_or.mp (List.mem_cons.not.mp h)
    rw [hasReference, ih hrest, Bool.or_false, Bool.and_eq_false_iff]
    exact .inl (decide_eq_false (Ne.symm hc))

theorem named_eq_some (h : named text = some (name, rest)) :
    isName name ∧ text = name ++ rest := by
  unfold named at h
  simp only at h
  split at h
  · next hname =>
    obtain ⟨rfl, rfl⟩ := Prod.mk.inj (Option.some.inj h)
    exact ⟨hname, List.takeWhile_append_dropWhile.symm⟩
  · cases h

/-- The two ways to write a reference. -/
theorem reference_eq_some (h : reference behind = some (name, rest)) : isName name ∧
    (behind = name ++ rest ∨ behind = openBrace :: (name ++ closeBrace :: rest)) := by
  cases behind with
  | nil => cases h
  | cons c text =>
    rw [reference] at h
    split at h
    · next hopen =>
      obtain ⟨⟨name', text'⟩, hnamed, hclosed⟩ := Option.bind_eq_some_iff.mp h
      obtain ⟨hname, rfl⟩ := named_eq_some hnamed
      cases text' with
      | nil => cases hclosed
      | cons d text' =>
        rw [closed] at hclosed
        split at hclosed
        · next hclose =>
          obtain ⟨rfl, rfl⟩ := Prod.mk.inj (Option.some.inj hclosed)
          exact ⟨hname, .inr (by rw [hopen, hclose])⟩
        · cases hclosed
    · obtain ⟨hname, htext⟩ := named_eq_some h
      exact ⟨hname, .inl htext⟩

/-- A name begins what follows the `$`, or a brace that is closed. -/
theorem beginsReference_of_reference (h : (reference behind).isSome) (b : Bytes) :
    beginsReference (behind ++ b) := by
  obtain ⟨⟨name, rest⟩, h⟩ := Option.isSome_iff_exists.mp h
  obtain ⟨hname, rfl | rfl⟩ := reference_eq_some h
  · cases name with
    | nil => cases hname
    | cons c name =>
      have hc : isNameByte c := (Bool.and_eq_true_iff.mp (Bool.and_eq_true_iff.mp hname).1).1
      simp [beginsReference, inName, hc]
  · simp [beginsReference]

theorem hasReference_of_plain (h : Plain text) (hmem : dollar ∈ text) : hasReference text := by
  obtain ⟨a, b, rfl, ha⟩ := List.eq_append_cons_of_mem hmem
  apply hasReference_append
  rw [Plain, List.splitOn_append_cons_self, List.splitOn_eq_singleton ha,
    List.singleton_append, List.tail_cons] at h
  by_cases hb : dollar ∈ b
  · obtain ⟨first, rest, rfl, hfirst⟩ := List.eq_append_cons_of_mem hb
    rw [List.splitOn_append_cons_self, List.splitOn_eq_singleton hfirst] at h
    exact beginsReference_of_reference (h first List.mem_cons_self) _
  · rw [List.splitOn_eq_singleton hb] at h
    have hb := beginsReference_of_reference (h b List.mem_cons_self) []
    rwa [List.append_nil] at hb

/-! ### Substitution -/

theorem dollar_notMem_of_substitutedFrom (hvar : ∀ name value, var name = some value →
    dollar ∉ value) : ∀ {more : List Bytes} {out : Bytes}, (∀ behind ∈ more, dollar ∉ behind) →
    substitutedFrom var more = some out → dollar ∉ out := by
  intro more
  induction more with
  | nil =>
    intro out _ h
    obtain rfl := Option.some.inj h
    exact List.not_mem_nil
  | cons behind more ih =>
    intro out hmore h
    obtain ⟨hbehind, hmore⟩ := List.forall_mem_cons.mp hmore
    obtain ⟨⟨name, rest⟩, href, h⟩ := Option.bind_eq_some_iff.mp h
    obtain ⟨value, hvalue, h⟩ := Option.bind_eq_some_iff.mp h
    obtain ⟨text, htext, h⟩ := Option.bind_eq_some_iff.mp h
    obtain rfl := Option.some.inj h
    have hrest : dollar ∉ rest := by
      intro hmem
      apply hbehind
      obtain ⟨-, rfl | rfl⟩ := reference_eq_some href <;> simp [hmem]
    simp [hvar name value hvalue, hrest, ih hmore htext]

/-- No `$` is left, where the values have none. -/
theorem dollar_notMem_of_substituted (hvar : ∀ name value, var name = some value →
    dollar ∉ value) (h : substituted var text = some out) : dollar ∉ out := by
  have hparts (part : Bytes) : part ∈ text.splitOn dollar → dollar ∉ part :=
    notMem_of_mem_splitOn
  unfold substituted at h
  split at h
  · obtain rfl := Option.some.inj h
    exact List.not_mem_nil
  · next first more hsplit =>
    rw [hsplit] at hparts
    obtain ⟨text', htext, rfl⟩ := Option.map_eq_some_iff.mp h
    have hmore := dollar_notMem_of_substitutedFrom hvar
      (fun behind hbehind => hparts behind (List.mem_cons_of_mem _ hbehind)) htext
    simp [hparts first List.mem_cons_self, hmore]

/-- A text without a `$` stands for itself. -/
theorem substituted_of_notMem (h : dollar ∉ text) : substituted var text = some text := by
  rw [substituted, List.splitOn_eq_singleton h]
  exact congrArg some (List.append_nil text)

/-- What comes before the first `$` is kept. -/
theorem head?_of_substituted {c : UInt8} (hc : c ≠ dollar)
    (h : substituted var (c :: text) = some out) : out.head? = some c := by
  by_cases hmem : dollar ∈ text
  · obtain ⟨a, b, rfl, ha⟩ := List.eq_append_cons_of_mem hmem
    have hfirst : dollar ∉ c :: a := by simp [hc.symm, ha]
    rw [substituted, ← List.cons_append, List.splitOn_append_cons_self,
      List.splitOn_eq_singleton hfirst] at h
    obtain ⟨text', -, rfl⟩ := Option.map_eq_some_iff.mp h
    rfl
  · rw [substituted_of_notMem (by simp [hc.symm, hmem])] at h
    obtain rfl := Option.some.inj h
    rfl

end FilePeeker.Variables
