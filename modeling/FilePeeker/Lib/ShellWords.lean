import FilePeeker.Lib.Shell

/-!
# What a shell reads as one command's words

A POSIX shell cuts its input into words at blanks, where they are not quoted, and then
expands the words and takes the quotes out.  `Reader` is what it has read so far, and
`Reader.next` takes one byte more.  Whatever else a byte would have the shell do, to
expand something, to match file names, to end the command, is an `Effect` and ends the
reading; so what is read to the end (`arguments`) is a command's words, byte for byte.

A shell takes no NUL, and what `$` would do depends on what is behind it: here each of
them is an effect.
-/

namespace FilePeeker.Shell

open Utf8

/-- What a shell does with its input but to read words. -/
inductive Effect
  | expansion
  | substitution
  | pattern
  | tilde
  | comment
  | operator
  | assignment
  | reserved
  | unterminated
  | nul
deriving DecidableEq, Repr

/-- How the next byte is quoted. -/
inductive Mode
  | plain
  | escaped
  | single
  | double
  | doubleEscaped
deriving DecidableEq, Repr

/-- The words read, and the one that is being read, of bytes with whether they were
quoted. -/
structure Reader where
  words : List (List (UInt8 × Bool))
  word : Option (List (UInt8 × Bool))
  mode : Mode
deriving DecidableEq

def space : UInt8 := 0x20
def tab : UInt8 := 0x09
def hash : UInt8 := 0x23
def singleQuote : UInt8 := 0x27
def doubleQuote : UInt8 := 0x22
def backslash : UInt8 := 0x5C
def dollar : UInt8 := 0x24
def backquote : UInt8 := 0x60
def tilde : UInt8 := 0x7E
def equals : UInt8 := 0x3D

/-- `&`, `|`, `;`, `<`, `>`, `(` and `)`. -/
def operators : Bytes := [0x26, 0x7C, 0x3B, 0x3C, 0x3E, 0x28, 0x29]

/-- `*`, `?` and `[`. -/
def patterns : Bytes := [0x2A, 0x3F, 0x5B]

/-- What a backslash quotes between double quotes. -/
def escapedInDouble : Bytes := [dollar, backquote, doubleQuote, backslash]

namespace Reader

def init : Reader := ⟨[], none, .plain⟩

/-- One more byte of the word. -/
def put (r : Reader) (c : UInt8) (quoted : Bool) (mode : Mode) : Reader :=
  { r with word := some (r.word.getD [] ++ [(c, quoted)]), mode }

/-- The word is there, though it may have no byte. -/
def enter (r : Reader) (mode : Mode) : Reader := { r with word := some (r.word.getD []), mode }

/-- More bytes of the word. -/
def extend (r : Reader) (w : List (UInt8 × Bool)) : Reader :=
  { r with word := some (r.word.getD [] ++ w) }

/-- The end of a word, where there is one. -/
def delimit (r : Reader) : Reader :=
  match r.word with
  | none => r
  | some word => { r with words := r.words ++ [word], word := none }

/-- One byte that no quote stands before. -/
def nextPlain (r : Reader) (c : UInt8) : Except Effect Reader :=
  if c = space ∨ c = tab then .ok r.delimit
  else if c = newline ∨ c ∈ operators then .error .operator
  else if c = hash ∧ r.word = none then .error .comment
  else if c = singleQuote then .ok (r.enter .single)
  else if c = doubleQuote then .ok (r.enter .double)
  else if c = backslash then .ok { r with mode := .escaped }
  else if c = dollar then .error .expansion
  else if c = backquote then .error .substitution
  else if c ∈ patterns then .error .pattern
  else if c = tilde then .error .tilde
  else .ok (r.put c false .plain)

def next (r : Reader) (c : UInt8) : Except Effect Reader :=
  if c = 0 then .error .nul
  else match r.mode with
    | .plain => r.nextPlain c
    -- A backslash and a newline are nothing.
    | .escaped => .ok (if c = newline then { r with mode := .plain } else r.put c true .plain)
    | .single => .ok (if c = singleQuote then { r with mode := .plain } else r.put c true .single)
    | .double =>
      if c = doubleQuote then .ok { r with mode := .plain }
      else if c = backslash then .ok { r with mode := .doubleEscaped }
      else if c = dollar then .error .expansion
      else if c = backquote then .error .substitution
      else .ok (r.put c true .double)
    | .doubleEscaped => .ok (
      if c = newline then { r with mode := .double }
      else if c ∈ escapedInDouble then r.put c true .double
      else (r.put backslash true .double).put c true .double)

def read (r : Reader) (text : Bytes) : Except Effect Reader := text.foldlM next r

end Reader

/-! ### The command -/

def isDigit (c : UInt8) : Bool := 0x30 ≤ c ∧ c ≤ 0x39

def isAlphanumeric (c : UInt8) : Bool :=
  isDigit c ∨ (0x41 ≤ c ∧ c ≤ 0x5A) ∨ (0x61 ≤ c ∧ c ≤ 0x7A)

/-- A byte of a variable's name. -/
def isNameByte (c : UInt8) : Bool := isAlphanumeric c ∨ c = 0x5F

/-- `name=value`. -/
def isAssignment (word : List (UInt8 × Bool)) : Bool :=
  let name := word.takeWhile fun c => !c.2 && isNameByte c.1
  match name, word.drop name.length with
  | first :: _, (c, quoted) :: _ => !isDigit first.1 && c = equals && !quoted
  | _, _ => false

/-- The words that mean something else where a command can begin. -/
def reservedWords : List Bytes :=
  ["!", "\x7b", "\x7d", "case", "do", "done", "elif", "else", "esac", "fi", "for", "if", "in",
    "then", "until", "while"].map fun word => word.toList.map fun c => c.toNat.toUInt8

def isReserved (word : List (UInt8 × Bool)) : Bool :=
  word.all (fun c => !c.2) && reservedWords.contains (word.map Prod.fst)

/-- Taking the quotes out. -/
def unquoted (word : List (UInt8 × Bool)) : Bytes := word.map Prod.fst

/-- The words of what was read, where it is the words of one command. -/
def Reader.finish (r : Reader) : Except Effect (List Bytes) :=
  if r.mode ≠ .plain then .error .unterminated
  else match r.delimit.words with
    | [] => .ok []
    | command :: rest =>
      if isAssignment command then .error .assignment
      else if isReserved command then .error .reserved
      else .ok ((command :: rest).map unquoted)

/-- The command and the arguments that a shell reads off a line. -/
def arguments (line : Bytes) : Except Effect (List Bytes) := do
  let r ← Reader.init.read line
  r.finish

/-! ### Reading on -/

namespace Reader

variable {r r' : Reader} {a b text : Bytes} {c : UInt8} {w v : List (UInt8 × Bool)}

@[simp] theorem read_nil (r : Reader) : r.read [] = .ok r := rfl

theorem read_append (r : Reader) (a b : Bytes) :
    r.read (a ++ b) = r.read a >>= fun r' => r'.read b := List.foldlM_append

theorem read_cons (r : Reader) (c : UInt8) (text : Bytes) :
    r.read (c :: text) = r.next c >>= fun r' => r'.read text := List.foldlM_cons

theorem read_cons_of_next (h : r.next c = .ok r') (text : Bytes) :
    r.read (c :: text) = r'.read text := by
  rw [read_cons, h]
  rfl

theorem read_append_of_read (h : r.read a = .ok r') (b : Bytes) : r.read (a ++ b) = r'.read b := by
  rw [read_append, h]
  rfl

@[simp] theorem delimit_mode (r : Reader) : r.delimit.mode = r.mode := by
  unfold delimit
  split <;> rfl

@[simp] theorem delimit_word (r : Reader) : r.delimit.word = none := by
  unfold delimit
  split
  · assumption
  · rfl

theorem delimit_of_word (h : r.word = none) : r.delimit = r := by rw [delimit, h]

theorem next_space (h : r.mode = .plain) : r.next space = .ok r.delimit := by
  rw [next, h]
  rfl

theorem extend_extend (r : Reader) (w v : List (UInt8 × Bool)) :
    (r.extend w).extend v = r.extend (w ++ v) := by simp [extend]

theorem put_eq_extend (hmode : r.mode = .plain) (c : UInt8) :
    r.put c false .plain = r.extend [(c, false)] := by rw [put, extend, ← hmode]

/-- Between single quotes every byte but a NUL and the quote is the word's. -/
theorem next_single (hmode : r.mode = .single) (hzero : c ≠ 0) (hquote : c ≠ singleQuote) :
    r.next c = .ok (r.put c true .single) := by
  rw [next, if_neg hzero, hmode]
  exact congrArg Except.ok (if_neg hquote)

/-- A single quote opens a word, or goes on with it. -/
theorem next_open (hmode : r.mode = .plain) : r.next singleQuote = .ok (r.enter .single) := by
  rw [next, hmode]
  rfl

theorem next_close (hmode : r.mode = .single) :
    r.next singleQuote = .ok { r with mode := .plain } := by
  rw [next, hmode]
  rfl

end Reader

/-! ### Words -/

/-- Where nothing is quoted, the text goes on with these bytes of a word. -/
def ReadsAs (text : Bytes) (w : List (UInt8 × Bool)) : Prop :=
  ∀ r : Reader, r.mode = .plain → r.read text = .ok (r.extend w)

/-- A byte that means nothing but itself. -/
def isOrdinary (c : UInt8) : Bool :=
  c ≠ 0 ∧ c ∉ [space, tab, newline, hash, singleQuote, doubleQuote, backslash, dollar, backquote,
    tilde] ∧ c ∉ operators ∧ c ∉ patterns

variable {r : Reader} {text a b : Bytes} {c : UInt8} {w v : List (UInt8 × Bool)}

theorem ReadsAs.append (h : ReadsAs a w) (h' : ReadsAs b v) : ReadsAs (a ++ b) (w ++ v) := by
  intro r hmode
  rw [Reader.read_append_of_read (h r hmode), h' (r.extend w) hmode, Reader.extend_extend]

theorem Reader.next_ordinary (h : r.mode = .plain) (hc : isOrdinary c) :
    r.next c = .ok (r.put c false .plain) := by
  have hc := of_decide_eq_true hc
  simp only [List.mem_cons, List.not_mem_nil, or_false, not_or] at hc
  obtain ⟨hzero, ⟨hspace, htab, hnewline, hhash, hsingle, hdouble, hbackslash, hdollar, hback,
    htilde⟩, hop, hpat⟩ := hc
  simp [next, h, nextPlain, hzero, hspace, htab, hnewline, hhash, hsingle, hdouble, hbackslash,
    hdollar, hback, htilde, hop, hpat]

theorem readsAs_byte (hc : isOrdinary c) : ReadsAs [c] [(c, false)] := by
  intro r hmode
  rw [Reader.read_cons_of_next (Reader.next_ordinary hmode hc), Reader.put_eq_extend hmode,
    Reader.read_nil]

/-- Bytes that mean nothing but themselves are a word. -/
theorem readsAs_ordinary (hne : text ≠ []) (htext : ∀ c ∈ text, isOrdinary c) :
    ReadsAs text (text.map fun c => (c, false)) := by
  induction text with
  | nil => exact absurd rfl hne
  | cons c text ih =>
    obtain ⟨hc, hrest⟩ := List.forall_mem_cons.mp htext
    by_cases htext : text = []
    · subst htext
      exact readsAs_byte hc
    · exact (readsAs_byte hc).append (ih htext hrest)

/-! ### A line of words -/

/-- Words with a blank between them are read one after the other. -/
theorem read_words {texts : List Bytes} {ws : List (List (UInt8 × Bool))}
    (h : List.Forall₂ ReadsAs texts ws) : ∀ r : Reader, r.mode = .plain → r.word = none →
      ∃ r', r.read ([space].intercalate texts) = .ok r' ∧ r'.mode = .plain ∧
        r'.delimit.words = r.words ++ ws := by
  induction h with
  | nil =>
    intro r hmode hword
    exact ⟨r, rfl, hmode, by rw [Reader.delimit_of_word hword, List.append_nil]⟩
  | @cons text w texts ws htext hrest ih =>
    intro r hmode hword
    have hread := htext r hmode
    have hmode' : (r.extend w).mode = .plain := hmode
    have hdelimit : (r.extend w).delimit.words = r.words ++ [w] := by
      simp [Reader.extend, Reader.delimit, hword]
    cases hrest with
    | nil => exact ⟨r.extend w, by rw [List.intercalate_singleton]; exact hread, hmode', hdelimit⟩
    | @cons text' w' texts ws htext' hrest =>
      obtain ⟨r', hr', hplain, hwords⟩ := ih (r.extend w).delimit
        (by rw [Reader.delimit_mode]; exact hmode') (Reader.delimit_word _)
      refine ⟨r', ?_, hplain, ?_⟩
      · rw [List.intercalate_cons_cons, List.append_assoc, Reader.read_append_of_read hread,
          List.singleton_append, Reader.read_cons_of_next (Reader.next_space hmode'), hr']
      · rw [hwords, hdelimit, List.append_assoc, List.singleton_append]

/-- Words behind a command are its arguments. -/
theorem finish_words {words : List Bytes} {texts : List Bytes}
    {ws : List (List (UInt8 × Bool))} (hfinish : r.finish = .ok words) (hne : words ≠ [])
    (h : List.Forall₂ ReadsAs texts ws) :
    (r.read (space :: [space].intercalate texts) >>= Reader.finish) =
      .ok (words ++ ws.map unquoted) := by
  have hmode : r.mode = .plain := by
    by_contra hmode
    rw [Reader.finish, if_pos hmode] at hfinish
    cases hfinish
  obtain ⟨r', hr', hmode', hwords⟩ := read_words h r.delimit (by rwa [Reader.delimit_mode])
    (Reader.delimit_word _)
  rw [Reader.read_cons_of_next (Reader.next_space hmode), hr']
  show r'.finish = _
  rw [Reader.finish, if_neg (not_not_intro hmode)] at hfinish
  rw [Reader.finish, if_neg (not_not_intro hmode'), hwords]
  cases hcommand : r.delimit.words with
  | nil =>
    rw [hcommand] at hfinish
    cases hfinish
    exact absurd rfl hne
  | cons command rest =>
    rw [hcommand] at hfinish
    dsimp only [List.cons_append] at hfinish ⊢
    split at hfinish
    · cases hfinish
    · split at hfinish
      · cases hfinish
      · next hassign hreserved =>
        rw [if_neg hassign, if_neg hreserved]
        cases hfinish
        simp

/-- A command that is read as one word, and words behind it. -/
theorem arguments_words {line : Bytes} {words : List Bytes} {texts : List Bytes}
    {ws : List (List (UInt8 × Bool))} (hline : arguments line = .ok words) (hne : words ≠ [])
    (h : List.Forall₂ ReadsAs texts ws) :
    arguments (line ++ space :: [space].intercalate texts) = .ok (words ++ ws.map unquoted) := by
  unfold arguments at hline
  cases hread : Reader.init.read line with
  | error effect => rw [hread] at hline; cases hline
  | ok r =>
    rw [hread] at hline
    rw [arguments, Reader.read_append_of_read hread]
    exact finish_words hline hne h

end FilePeeker.Shell
