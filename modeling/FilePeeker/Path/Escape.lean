import FilePeeker.Lib.Code
import FilePeeker.Lib.Utf8
import Mathlib.Data.List.Basic

/-!
# Escaping a path

`escape` turns any bytes into text, and `unescape` turns text back into bytes,
as `path_string.rs` computes them.  Text is the bytes of it, with the proof that
they are valid UTF-8 (`Str`).

`escape` runs `str::from_utf8` again and again over what is left.  `escape_bytes`
says what comes of it: the bytes are cut into characters and junk once, and each
chunk is spelt by itself.
-/

namespace FilePeeker

open Utf8

variable {bytes bs run rest before after x : Bytes} {c high low : UInt8}

/-- A Rust string: bytes that are valid UTF-8. -/
structure Str where
  bytes : Bytes
  valid : Valid bytes
deriving DecidableEq

theorem Str.ext_bytes {s t : Str} (h : s.bytes = t.bytes) : s = t := by
  cases s
  cases t
  simpa using h

/-- `MARKER`, which is `%`. -/
def marker : UInt8 := 0x25

/-- `HEX_DIGITS`, which are `0123456789ABCDEF`. -/
def hexDigits : Bytes :=
  [0x30, 0x31, 0x32, 0x33, 0x34, 0x35, 0x36, 0x37, 0x38, 0x39, 0x41, 0x42, 0x43, 0x44, 0x45, 0x46]

/-- `LOWEST_ESCAPABLE_BYTE`. -/
def lowestEscapableByte : UInt8 := 0x80

inductive EscapeError
  | truncated
  | notUppercaseHex
  | notEscapable (byte : UInt8)
deriving DecidableEq, Repr

/-! ### Escaping -/

def hexDigit (n : UInt8) : UInt8 := hexDigits.getD n.toNat 0

/-- One escape: the marker and two hexadecimal digits. -/
def escapeByte (byte : UInt8) : Bytes :=
  [marker, hexDigit (byte >>> 4), hexDigit (byte &&& 0x0f)]

/-- Copies a decodable run through, doubling every marker in it. -/
def pushValid (escaped valid : Bytes) : Bytes :=
  match valid.splitOn marker with
  | [] => escaped
  | first :: runs => escaped ++ first ++ runs.flatMap fun run => marker :: marker :: run

/-- Where `from_utf8` fails, something is left, and there is a bad byte. -/
theorem fromUtf8_progress {e : Utf8Error} (h : fromUtf8 rest = .error e) :
    ((rest.drop e.validUpTo).drop
      (e.errorLen.getD (rest.drop e.validUpTo).length)).length < rest.length := by
  have hspec := fromUtf8At_spec rest 0
  rw [← fromUtf8, h] at hspec
  obtain ⟨n, hn, hlt, -, he⟩ := hspec
  simp only [List.length_drop]
  cases hl : e.errorLen with
  | none => simp only [Option.getD_none]; omega
  | some m =>
    rw [hl] at he
    have := front_broken_le he
    simp only [Option.getD_some]
    omega

/-- `str::from_utf8(..).unwrap_or_default()`. -/
def decodedOrDefault (bs : Bytes) : Bytes :=
  match fromUtf8 bs with
  | .ok () => bs
  | .error _ => []

theorem decodedOrDefault_of_valid (h : Valid bs) : decodedOrDefault bs = bs := by
  rw [decodedOrDefault, fromUtf8_iff.mpr h]

/-- The loop of `escape`, with what is left and what it has written. -/
def escapeLoop (rest escaped : Bytes) : Bytes :=
  match _h : fromUtf8 rest with
  | .ok () => pushValid escaped rest
  | .error error =>
    let valid := rest.take error.validUpTo
    let invalid := rest.drop error.validUpTo
    -- `None`: everything left is the beginning of one sequence.
    let invalidLen := error.errorLen.getD invalid.length
    escapeLoop (invalid.drop invalidLen)
      (pushValid escaped (decodedOrDefault valid) ++ (invalid.take invalidLen).flatMap escapeByte)
termination_by rest.length
decreasing_by exact fromUtf8_progress _h

/-- What one byte of a character becomes. -/
def doubled (c : UInt8) : Bytes := if c = marker then [marker, marker] else [c]

/-- What one chunk becomes. -/
def Utf8.Chunk.escape : Chunk → Bytes
  | .char run => run.flatMap doubled
  | .junk run => run.flatMap escapeByte

theorem pushValid_eq (escaped valid : Bytes) :
    pushValid escaped valid = escaped ++ valid.flatMap doubled := by
  suffices h : ∃ first runs, valid.splitOn marker = first :: runs ∧
      valid.flatMap doubled = first ++ runs.flatMap fun run => marker :: marker :: run by
    obtain ⟨first, runs, hs, hf⟩ := h
    rw [pushValid, hs, hf, ← List.append_assoc]
  induction valid with
  | nil => exact ⟨[], [], List.splitOn_nil _, rfl⟩
  | cons c t ih =>
    obtain ⟨first, runs, hs, hf⟩ := ih
    rw [List.splitOn_cons_eq_if_modifyHead, hs, List.flatMap_cons, hf]
    by_cases hc : c = marker
    · refine ⟨[], first :: runs, ?_, ?_⟩
      · rw [if_pos (beq_iff_eq.mpr hc)]
      · simp [doubled, hc]
    · refine ⟨c :: first, runs, ?_, ?_⟩
      · rw [if_neg (by simpa using hc)]
        rfl
      · simp [doubled, hc]

/-- A run of characters goes through chunk by chunk. -/
theorem flatMap_doubled (runs : List Bytes) :
    runs.flatten.flatMap doubled = (runs.map Chunk.char).flatMap Chunk.escape := by
  induction runs with
  | nil => rfl
  | cons run runs ih =>
    rw [List.flatten_cons, List.flatMap_append, ih, List.map_cons, List.flatMap_cons]
    rfl

theorem flatMap_doubled_chunks (h : Valid bs) (more : Bytes) :
    (chunks (bs ++ more)).flatMap Chunk.escape =
      bs.flatMap doubled ++ (chunks more).flatMap Chunk.escape := by
  obtain ⟨runs, -, hflat, hc⟩ := chunks_of_valid h more
  rw [hc, List.flatMap_append, ← flatMap_doubled, hflat]

theorem escapeLoop_eq : ∀ (rest escaped : Bytes),
    escapeLoop rest escaped = escaped ++ (chunks rest).flatMap Chunk.escape := by
  intro rest
  induction hn : rest.length using Nat.strongRecOn generalizing rest with
  | ind len ih =>
    intro escaped
    have hspec := fromUtf8At_spec rest 0
    rw [← fromUtf8] at hspec
    rw [escapeLoop]
    split
    · next h =>
      rw [h] at hspec
      have := flatMap_doubled_chunks hspec []
      rw [List.append_nil, chunks_nil, List.flatMap_nil, List.append_nil] at this
      rw [pushValid_eq, this]
    · next e h =>
      rw [h] at hspec
      obtain ⟨n, hn', hlt, hv, he⟩ := hspec
      have hstep := ih _ (hn ▸ fromUtf8_progress h) _ rfl
      rw [Nat.zero_add] at hn'
      rw [hn'] at hstep ⊢
      have hsplit := flatMap_doubled_chunks hv (rest.drop n)
      rw [List.take_append_drop] at hsplit
      rw [hstep, hsplit, decodedOrDefault_of_valid hv, pushValid_eq, List.append_assoc,
        List.append_assoc]
      congr 2
      cases hl : e.errorLen with
      | some m =>
        rw [hl] at he
        rw [chunks_broken he, List.flatMap_cons, Option.getD_some]
        rfl
      | none =>
        rw [hl] at he
        have hne : rest.drop n ≠ [] := List.ne_nil_of_length_pos (by rw [List.length_drop]; omega)
        rw [chunks_cut hne he, Option.getD_none, List.take_length, List.drop_length, chunks_nil]
        rfl

/-! ### Unescaping -/

/-- Uppercase only. -/
def hexValue (digit : UInt8) : Option UInt8 :=
  if 0x30 ≤ digit ∧ digit ≤ 0x39 then some (digit - 0x30)
  else if 0x41 ≤ digit ∧ digit ≤ 0x46 then some (digit - 0x41 + 10)
  else none

/-- The loop of `unescape` from some index on. -/
def unescapeFrom : Bytes → Except EscapeError Bytes
  | [] => .ok []
  | byte :: rest =>
    if byte ≠ marker then (byte :: ·) <$> unescapeFrom rest
    else match rest with
      | [] => .error .truncated
      | next :: rest =>
        if next = marker then (marker :: ·) <$> unescapeFrom rest
        else match rest with
          | [] => .error .truncated
          | digit :: rest =>
            match hexValue next, hexValue digit with
            | some high, some low =>
              let byte := (high <<< 4) ||| low
              if byte < lowestEscapableByte then .error (.notEscapable byte)
              else (byte :: ·) <$> unescapeFrom rest
            | _, _ => .error .notUppercaseHex

def unescape (escaped : Str) : Except EscapeError Bytes := unescapeFrom escaped.bytes

/-! ### Hexadecimal digits -/

theorem forall_byte {P : UInt8 → Prop} (h : ∀ n : Fin 256, P (UInt8.ofNat n)) (c : UInt8) :
    P c := by
  have := h ⟨c.toNat, c.toNat_lt⟩
  simpa using this

theorem hexValue_hexDigit : ∀ c : UInt8, hexValue (hexDigit (c >>> 4)) = some (c >>> 4) ∧
    hexValue (hexDigit (c &&& 0x0f)) = some (c &&& 0x0f) ∧
    ((c >>> 4) <<< 4) ||| (c &&& 0x0f) = c ∧ hexDigit (c >>> 4) ≠ marker :=
  forall_byte (by decide +kernel)

theorem hexDigit_ascii : ∀ c : UInt8,
    hexDigit (c >>> 4) < 0x80 ∧ hexDigit (c &&& 0x0f) < 0x80 :=
  forall_byte (by decide +kernel)

theorem hexDigit_of_hexValue (h : hexValue c = some low) : low < 16 ∧ hexDigit low = c := by
  have hall := forall_byte
    (P := fun c => (hexValue c).all fun low => low < 16 ∧ hexDigit low = c) (by decide +kernel) c
  rw [h] at hall
  simpa using hall

theorem nibbles (hh : high < 16) (hl : low < 16) :
    ((high <<< 4) ||| low) >>> 4 = high ∧ ((high <<< 4) ||| low) &&& 0x0f = low := by
  have h : ∀ h l : Fin 16, let high := UInt8.ofNat h; let low := UInt8.ofNat l
      ((high <<< 4) ||| low) >>> 4 = high ∧ ((high <<< 4) ||| low) &&& 0x0f = low := by
    decide +kernel
  have := h ⟨high.toNat, UInt8.lt_iff_toNat_lt.mp hh⟩ ⟨low.toNat, UInt8.lt_iff_toNat_lt.mp hl⟩
  simpa using this

/-! ### Text as a row of pieces -/

/-- What an escaped text is made of. -/
inductive Piece
  | text (c : UInt8)
  /-- `%%`. -/
  | marker
  /-- `%XX`. -/
  | escape (c : UInt8)
deriving DecidableEq, Repr

namespace Piece

def spelt : Piece → Bytes
  | text c => [c]
  | marker => [FilePeeker.marker, FilePeeker.marker]
  | escape c => escapeByte c

def byte : Piece → UInt8
  | text c => c
  | marker => FilePeeker.marker
  | escape c => c

/-- What `unescape` takes. -/
def Ok : Piece → Prop
  | text c => c ≠ FilePeeker.marker
  | marker => True
  | escape c => lowestEscapableByte ≤ c

end Piece

/-- The text of some pieces. -/
def spell (ps : List Piece) : Bytes := ps.flatMap Piece.spelt

variable {p q : Piece} {ps qs : List Piece}

@[simp] theorem spell_nil : spell [] = [] := rfl

@[simp] theorem spell_cons : spell (p :: ps) = p.spelt ++ spell ps := rfl

theorem spell_append : spell (ps ++ qs) = spell ps ++ spell qs := List.flatMap_append

theorem unescapeFrom_piece (h : p.Ok) (rest : Bytes) :
    unescapeFrom (p.spelt ++ rest) = (p.byte :: ·) <$> unescapeFrom rest := by
  cases p with
  | text c =>
    have hc : c ≠ marker := h
    show unescapeFrom (c :: rest) = _
    rw [unescapeFrom.eq_def]
    simp only [ne_eq, hc, not_false_eq_true, if_true]
    rfl
  | marker =>
    show unescapeFrom (marker :: marker :: rest) = _
    rw [unescapeFrom.eq_def]
    rfl
  | escape c =>
    have hc : ¬ c < lowestEscapableByte := UInt8.not_lt.mpr h
    obtain ⟨hhigh, hlow, hjoin, hne⟩ := hexValue_hexDigit c
    show unescapeFrom (marker :: hexDigit (c >>> 4) :: hexDigit (c &&& 0x0f) :: rest) = _
    rw [unescapeFrom.eq_def]
    simp only [ne_eq, not_true_eq_false, if_false, if_neg hne, hhigh, hlow, hjoin, if_neg hc]
    rfl

theorem unescapeFrom_spell (h : ∀ p ∈ ps, p.Ok) (rest : Bytes) :
    unescapeFrom (spell ps ++ rest) = (ps.map Piece.byte ++ ·) <$> unescapeFrom rest := by
  induction ps with
  | nil =>
    rw [spell_nil, List.nil_append]
    cases unescapeFrom rest <;> rfl
  | cons p ps ih =>
    rw [spell_cons, List.append_assoc, unescapeFrom_piece (h p (by simp)),
      ih fun q hq => h q (by simp [hq])]
    cases unescapeFrom rest <;> rfl

/-- What decodes is a row of pieces. -/
theorem exists_pieces : ∀ {s bs : Bytes}, unescapeFrom s = .ok bs →
    ∃ ps : List Piece, (∀ p ∈ ps, p.Ok) ∧ s = spell ps ∧ bs = ps.map Piece.byte := by
  intro s
  have more {p : Piece} {t : Bytes} (hp : p.Ok) (ih : ∀ {bs : Bytes}, unescapeFrom t = .ok bs →
      ∃ ps : List Piece, (∀ p ∈ ps, p.Ok) ∧ t = spell ps ∧ bs = ps.map Piece.byte) {bs : Bytes}
      (h : (p.byte :: ·) <$> unescapeFrom t = .ok bs) :
      ∃ ps : List Piece, (∀ p ∈ ps, p.Ok) ∧ p.spelt ++ t = spell ps ∧ bs = ps.map Piece.byte := by
    cases ht : unescapeFrom t with
    | error e => rw [ht] at h; simp [Functor.map, Except.map] at h
    | ok bs' =>
      obtain ⟨ps, hok, hs, hb⟩ := ih ht
      rw [ht] at h
      refine ⟨p :: ps, ?_, by rw [spell_cons, hs], ?_⟩
      · intro q hq
        rcases List.mem_cons.mp hq with rfl | hq
        · exact hp
        · exact hok q hq
      · rw [List.map_cons, ← hb]
        simpa [Functor.map, Except.map] using h.symm
  induction s using unescapeFrom.induct with
  | case1 =>
    intro bs h
    exact ⟨[], by simp, rfl, by simpa [unescapeFrom] using h.symm⟩
  | case2 byte rest hc ih =>
    intro bs h
    rw [unescapeFrom.eq_def] at h
    simp only [if_pos hc] at h
    exact more (p := .text byte) hc ih h
  | case3 byte hc =>
    intro bs h
    rw [unescapeFrom, if_neg hc] at h
    simp at h
  | case4 byte hc rest ih =>
    intro bs h
    obtain rfl : byte = marker := not_not.mp hc
    rw [unescapeFrom.eq_def] at h
    exact more (p := .marker) trivial ih h
  | case5 byte hc next hn =>
    intro bs h
    rw [unescapeFrom.eq_def] at h
    simp [hc, hn] at h
  | case6 byte hc next hn digit rest high low hl hh byte' =>
    rename_i hlt
    intro bs h
    rw [unescapeFrom.eq_def] at h
    simp only [if_neg hc, if_neg hn, hh, hl] at h
    rw [if_pos hlt] at h
    simp at h
  | case7 byte hc next hn digit rest high low hl hh byte' =>
    rename_i hlt ih
    intro bs h
    obtain rfl : byte = marker := not_not.mp hc
    rw [unescapeFrom.eq_def] at h
    simp only [if_neg hc, if_neg hn, hh, hl] at h
    rw [if_neg hlt] at h
    obtain ⟨hhigh, hnext⟩ := hexDigit_of_hexValue hh
    obtain ⟨hlow, hdigit⟩ := hexDigit_of_hexValue hl
    obtain ⟨h1, h2⟩ := nibbles hhigh hlow
    have := more (p := .escape ((high <<< 4) ||| low)) (UInt8.not_lt.mp hlt) ih h
    simp only [Piece.spelt, escapeByte, h1, h2, hnext, hdigit] at this
    exact this
  | case8 byte hc next hn digit rest hnone =>
    intro bs h
    rw [unescapeFrom.eq_def] at h
    simp only [if_neg hc, if_neg hn] at h
    simp at h

theorem escapeByte_append_inj {d : UInt8} {s t : Bytes}
    (h : escapeByte c ++ s = escapeByte d ++ t) : c = d ∧ s = t := by
  simp only [escapeByte, List.cons_append, List.nil_append, List.cons.injEq] at h
  obtain ⟨-, hhigh, hlow, ht⟩ := h
  obtain ⟨h1, h2, hc, -⟩ := hexValue_hexDigit c
  obtain ⟨h1', h2', hd, -⟩ := hexValue_hexDigit d
  rw [hhigh, h1', Option.some.injEq] at h1
  rw [hlow, h2', Option.some.injEq] at h2
  exact ⟨by rw [← hc, ← hd, h1, h2], ht⟩

/-- The first piece of a text can be read off it. -/
theorem spelt_selfDelimiting : SelfDelimiting Piece.Ok Piece.spelt := by
  intro p q s t hp hq h
  have hdigit (c : UInt8) : hexDigit (c >>> 4) ≠ marker := (hexValue_hexDigit c).2.2.2
  cases p <;> cases q
  case escape.escape c d =>
    obtain ⟨rfl, ht⟩ := escapeByte_append_inj h
    exact ⟨rfl, ht⟩
  all_goals
    simp only [Piece.spelt, escapeByte, List.cons_append, List.nil_append, List.cons.injEq] at h
  case text.text c d => exact ⟨by rw [h.1], h.2⟩
  case text.marker c => exact absurd h.1 hp
  case text.escape c d => exact absurd h.1 hp
  case marker.text d => exact absurd h.1.symm hq
  case marker.marker => exact ⟨rfl, h.2.2⟩
  case marker.escape d => exact absurd h.2.1.symm (hdigit d)
  case escape.text c d => exact absurd h.1.symm hq
  case escape.marker c => exact absurd h.2.1 (hdigit c)

theorem spelt_ne_nil (p : Piece) : p.spelt ≠ [] := by cases p <;> simp [Piece.spelt, escapeByte]

/-- The pieces of a beginning of some text are the first pieces of it. -/
theorem pieces_of_prefix {s : Bytes} (hps : ∀ p ∈ ps, p.Ok) (hqs : ∀ q ∈ qs, q.Ok)
    (h : spell ps ++ s = spell qs) : ∃ qs', qs = ps ++ qs' ∧ s = spell qs' :=
  spelt_selfDelimiting.flatMap_append spelt_ne_nil hps hqs h

theorem spell_inj (hps : ∀ p ∈ ps, p.Ok) (hqs : ∀ q ∈ qs, q.Ok) (h : spell ps = spell qs) :
    ps = qs :=
  spelt_selfDelimiting.flatMap_inj spelt_ne_nil hps hqs h

theorem unescapeFrom_iff {s : Bytes} : unescapeFrom s = .ok bs ↔
    ∃ ps : List Piece, (∀ p ∈ ps, p.Ok) ∧ s = spell ps ∧ bs = ps.map Piece.byte := by
  constructor
  · exact exists_pieces
  · rintro ⟨ps, hok, rfl, rfl⟩
    have := unescapeFrom_spell hok []
    rw [List.append_nil] at this
    rw [this]
    simp [unescapeFrom, Functor.map, Except.map]

/-! ### The pieces `escape` writes -/

/-- What one byte of a character becomes. -/
def Piece.ofText (c : UInt8) : Piece := if c = FilePeeker.marker then .marker else .text c

def Utf8.Chunk.pieces : Chunk → List Piece
  | .char run => run.map Piece.ofText
  | .junk run => run.map Piece.escape

def pieces (bs : Bytes) : List Piece := (chunks bs).flatMap Chunk.pieces

@[simp] theorem Piece.ofText_byte (c : UInt8) : (Piece.ofText c).byte = c := by
  unfold Piece.ofText
  split
  · next h => exact h.symm
  · rfl

theorem Piece.ofText_ok (c : UInt8) : (Piece.ofText c).Ok := by
  unfold Piece.ofText
  split
  · trivial
  · next h => exact h

theorem Piece.ofText_ne_escape (c d : UInt8) : Piece.ofText c ≠ .escape d := by
  unfold Piece.ofText
  split <;> simp

/-- `escape`'s loop writes the pieces of the bytes. -/
theorem escapeLoop_spell (bs : Bytes) : escapeLoop bs [] = spell (pieces bs) := by
  rw [escapeLoop_eq, List.nil_append, spell, pieces, List.flatMap_assoc]
  congr 1
  funext chunk
  cases chunk with
  | char run =>
    show run.flatMap doubled = (run.map Piece.ofText).flatMap Piece.spelt
    rw [List.flatMap_map]
    congr 1
    funext c
    unfold doubled Piece.ofText
    split <;> rfl
  | junk run =>
    show run.flatMap escapeByte = (run.map Piece.escape).flatMap Piece.spelt
    rw [List.flatMap_map]
    rfl

@[simp] theorem pieces_nil : pieces [] = [] := by rw [pieces, chunks_nil, List.flatMap_nil]

theorem pieces_char (h : IsChar run) (rest : Bytes) :
    pieces (run ++ rest) = run.map Piece.ofText ++ pieces rest := by
  rw [pieces, chunks_of_isChar h, List.flatMap_cons]
  rfl

@[simp] theorem map_byte_ofText (run : Bytes) : (run.map Piece.ofText).map Piece.byte = run := by
  rw [List.map_map]
  exact List.map_id'' Piece.ofText_byte run

@[simp] theorem map_byte_text (run : Bytes) : (run.map Piece.text).map Piece.byte = run := by
  rw [List.map_map]
  exact List.map_id'' (fun _ => rfl) run

@[simp] theorem map_byte_escape (run : Bytes) : (run.map Piece.escape).map Piece.byte = run := by
  rw [List.map_map]
  exact List.map_id'' (fun _ => rfl) run

/-- Every byte has its piece. -/
theorem pieces_byte (bs : Bytes) : (pieces bs).map Piece.byte = bs := by
  rw [pieces, List.map_flatMap]
  conv_rhs => rw [← chunks_bytes bs]
  congr 1
  funext chunk
  cases chunk with
  | char run => exact map_byte_ofText run
  | junk run => exact map_byte_escape run

theorem pieces_ok (bs : Bytes) : ∀ p ∈ pieces bs, p.Ok := by
  induction bs using chunks_induction with
  | nil => simp
  | char run rest _ _ hc ih =>
    intro p hp
    rw [pieces, hc, List.flatMap_cons, List.mem_append] at hp
    rcases hp with hp | hp
    · obtain ⟨c, -, rfl⟩ := List.mem_map.mp hp
      exact Piece.ofText_ok c
    · exact ih p hp
  | junk c run rest hf hcont _ hc ih =>
    intro p hp
    rw [pieces, hc, List.flatMap_cons, List.mem_append] at hp
    rcases hp with hp | hp
    · obtain ⟨d, hd, rfl⟩ := List.mem_map.mp hp
      rcases List.mem_cons.mp hd with rfl | hd
      · exact front_junk hf
      · exact (hcont d hd).1
    · exact ih p hp

/-- A character in some bytes is not escaped. -/
theorem pieces_around (h : IsChar run) :
    pieces (before ++ (run ++ after)) = pieces before ++ run.map Piece.ofText ++ pieces after := by
  rw [pieces, chunks_around h, List.flatMap_append, List.flatMap_cons, List.append_assoc]
  rfl

theorem spell_ofText {run : Bytes} (h : ∀ c ∈ run, c ≠ marker) :
    spell (run.map Piece.ofText) = run := by
  induction run with
  | nil => rfl
  | cons c t ih =>
    rw [List.map_cons, spell_cons, ih fun d hd => h d (by simp [hd]), Piece.ofText,
      if_neg (h c (by simp))]
    rfl

/-! ### The text is valid UTF-8 -/

theorem valid_escape (c : UInt8) : Valid (escapeByte c) := by
  obtain ⟨hhigh, hlow⟩ := hexDigit_ascii c
  exact (Valid.singleton (c := marker) (by decide)).append
    ((Valid.singleton hhigh).append (Valid.singleton hlow))

/-- A character is copied, or it is the marker. -/
theorem valid_doubled (h : IsChar run) : Valid (spell (run.map Piece.ofText)) := by
  cases run with
  | nil => exact absurd rfl h.ne_nil
  | cons c t =>
    by_cases hc : c < 0x80
    · obtain rfl := h.ascii hc
      show Valid ((Piece.ofText c).spelt ++ [])
      rw [List.append_nil]
      unfold Piece.ofText
      split
      · exact (Valid.singleton (c := marker) (by decide)).append
          (Valid.singleton (c := marker) (by decide))
      · exact Valid.singleton hc
    · have hhigh := h.high (UInt8.not_lt.mp hc)
      have hne : ∀ d ∈ c :: t, d ≠ marker := by
        intro d hd hm
        have := hhigh d hd
        rw [hm] at this
        exact absurd this (by decide)
      rw [spell_ofText hne]
      have := Valid.char h .nil
      rwa [List.append_nil] at this

theorem valid_pieces (bs : Bytes) : Valid (spell (pieces bs)) := by
  induction bs using chunks_induction with
  | nil => rw [pieces_nil]; exact .nil
  | char run rest h _ hc ih =>
    rw [pieces, hc, List.flatMap_cons, spell_append]
    exact (valid_doubled h).append ih
  | junk c run rest hf hcont _ hc ih =>
    rw [pieces, hc, List.flatMap_cons, spell_append]
    refine Valid.append ?_ ih
    show Valid (spell ((c :: run).map Piece.escape))
    induction c :: run with
    | nil => exact .nil
    | cons d t iht =>
      rw [List.map_cons, spell_cons]
      exact (valid_escape d).append iht

end FilePeeker
