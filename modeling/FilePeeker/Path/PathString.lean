import FilePeeker.Path.Escape
import Mathlib.Logic.Function.Basic

/-!
# Paths as escaped text

`PathString` is an escaped text, made by `escape` from bytes or taken off the
wire by `fromEscaped`.

`escape` loses nothing (`escape_exact`): `unescape` takes every text it writes
back to the same bytes, and it writes an escape only for a marker or for a byte
that is part of no character.

`fromEscaped` takes more than that.  It takes `%C3%A9`, which names the file `é`
as the text `é` does.  What it takes too much is every text in which escapes that
follow each other spell one whole character (`SpellsChar`): the accepted texts
without one are those `escape` writes (`accepted_text_canonical_iff`).
-/

namespace FilePeeker

open Utf8

variable {bs run rest before after done x y : Bytes} {c : UInt8} {ps qs : List Piece}
  {s t : Str}

def escape (bytes : Bytes) : Str :=
  ⟨escapeLoop bytes [], escapeLoop_spell bytes ▸ valid_pieces bytes⟩

/-- `/`. -/
def slash : UInt8 := 0x2F

namespace Str

def empty : Str := ⟨[], .nil⟩

def slash : Str := ⟨[FilePeeker.slash], .singleton (by decide)⟩

def append (s t : Str) : Str := ⟨s.bytes ++ t.bytes, s.valid.append t.valid⟩

end Str

structure PathString where
  escaped : Str
deriving DecidableEq

namespace PathString

/-- `PathString::escape`. -/
def ofBytes (bytes : Bytes) : PathString := ⟨escape bytes⟩

def fromLiteral (text : Str) : PathString := ⟨escape text.bytes⟩

def fromEscaped (escaped : Str) : Except EscapeError PathString := do
  let _ ← unescape escaped
  return ⟨escaped⟩

/-- Appends one name. -/
def join (path name : PathString) : PathString :=
  if path.escaped.bytes = [] then name
  else
    let separator := if path.escaped.bytes.getLast? = some slash then Str.empty else Str.slash
    ⟨(path.escaped.append separator).append name.escaped⟩

def toBytes (path : PathString) : Except EscapeError Bytes := unescape path.escaped

end PathString

theorem escape_bytes (bs : Bytes) : (escape bs).bytes = spell (pieces bs) := escapeLoop_spell bs

theorem unescape_iff : unescape s = .ok bs ↔
    ∃ ps : List Piece, (∀ p ∈ ps, p.Ok) ∧ s.bytes = spell ps ∧ bs = ps.map Piece.byte :=
  unescapeFrom_iff

theorem unescape_escape (bs : Bytes) : unescape (escape bs) = .ok bs :=
  unescape_iff.mpr ⟨pieces bs, pieces_ok bs, escape_bytes bs, (pieces_byte bs).symm⟩

theorem escape_injective : Function.Injective escape := by
  intro a b h
  have := unescape_escape a
  rw [h, unescape_escape b, Except.ok.injEq] at this
  exact this.symm

/-! ### What is escaped -/

/-- The byte at `i` is part of a character that occurs in the bytes. -/
def InChar (bs : Bytes) (i : Nat) : Prop :=
  ∃ before run after, bs = before ++ (run ++ after) ∧ IsChar run ∧
    before.length ≤ i ∧ i < before.length + run.length

theorem pieces_length (bs : Bytes) : (pieces bs).length = bs.length := by
  rw [← List.length_map, pieces_byte]

/-- A byte of a character is not escaped. -/
theorem pieces_of_inChar {i : Nat} (h : InChar bs i) : (pieces bs)[i]? ≠ some (.escape c) := by
  obtain ⟨before, run, after, rfl, hrun, hle, hlt⟩ := h
  have hlen := pieces_length before
  rw [pieces_around hrun, List.append_assoc, List.getElem?_append_right (by omega),
    List.getElem?_append_left (by rw [List.length_map]; omega), List.getElem?_map]
  intro hp
  obtain ⟨d, -, hd⟩ := Option.map_eq_some_iff.mp hp
  exact Piece.ofText_ne_escape d c hd

/-- Each byte is spelt by its own piece, after what spells the bytes before. -/
theorem piece_at (h : (escape bs).bytes = before ++ rest) (hd : unescapeFrom before = .ok done) :
    ∃ ps qs, pieces bs = ps ++ qs ∧ ps.length = done.length ∧ rest = spell qs := by
  obtain ⟨ps, hok, rfl, rfl⟩ := unescapeFrom_iff.mp hd
  rw [escape_bytes] at h
  obtain ⟨qs, hq, hs⟩ := pieces_of_prefix hok (pieces_ok bs) h.symm
  exact ⟨ps, qs, hq, by rw [List.length_map], hs⟩

/-- **Escaping loses nothing.**  Every path comes back, so no two share a text;
what the text has an escape for is a marker, or a byte from `0x80` on that is
part of no character; and text without a marker is its own escape. -/
theorem escape_exact :
    (∀ bs, unescape (escape bs) = .ok bs) ∧ Function.Injective escape ∧
    (∀ bs before after done, (escape bs).bytes = before ++ marker :: after →
      unescapeFrom before = .ok done →
      ∃ byte, bs[done.length]? = some byte ∧
        (byte = marker ∧ (∃ rest, after = marker :: rest) ∨
          lowestEscapableByte ≤ byte ∧ ¬ InChar bs done.length ∧
            ∃ rest, marker :: after = escapeByte byte ++ rest)) ∧
    (∀ bs, Valid bs → marker ∉ bs → (escape bs).bytes = bs) := by
  refine ⟨unescape_escape, escape_injective, ?_, ?_⟩
  · intro bs before after done h hd
    obtain ⟨ps, qs, hps, hlen, hafter⟩ := piece_at h hd
    cases qs with
    | nil => simp at hafter
    | cons q qs =>
      have hq : (pieces bs)[done.length]? = some q := by
        rw [hps, ← hlen]
        simp
      have hok : q.Ok := pieces_ok bs q (List.mem_of_getElem? hq)
      have hbyte : bs[done.length]? = some q.byte := by
        rw [← pieces_byte bs, List.getElem?_map, hq]
        rfl
      rw [spell_cons] at hafter
      refine ⟨q.byte, hbyte, ?_⟩
      cases q with
      | text c =>
        rw [Piece.spelt, List.cons_append, List.cons.injEq] at hafter
        exact absurd hafter.1.symm hok
      | marker =>
        rw [Piece.spelt, List.cons_append, List.cons.injEq] at hafter
        exact .inl ⟨rfl, _, hafter.2⟩
      | escape c =>
        refine .inr ⟨hok, fun hin => pieces_of_inChar hin hq, _, hafter⟩
  · intro bs hv hm
    obtain ⟨runs, hruns, hflat, hc⟩ := chunks_of_valid hv []
    have hp : pieces bs = bs.map Piece.ofText := by
      rw [List.append_nil, chunks_nil, List.append_nil] at hc
      rw [pieces, hc, ← hflat, List.flatMap_map, List.map_flatten]
      rfl
    rw [escape_bytes, hp]
    exact spell_ofText fun c hc h => hm (h ▸ hc)

/-! ### What is accepted -/

/-- Escapes that follow each other in the text, after some whole pieces of it,
spell one whole character. -/
def SpellsChar (s : Str) : Prop :=
  ∃ (before : List Piece) (run after : Bytes), (∀ p ∈ before, p.Ok) ∧ IsChar run ∧
    s.bytes = spell before ++ (run.flatMap escapeByte ++ after)

/-- The same of its pieces. -/
def EscapesChar (ps : List Piece) : Prop :=
  ∃ before run after, ps = before ++ (run.map Piece.escape ++ after) ∧ IsChar run

theorem EscapesChar.append (h : EscapesChar qs) (ps : List Piece) : EscapesChar (ps ++ qs) := by
  obtain ⟨before, run, after, rfl, hrun⟩ := h
  exact ⟨ps ++ before, run, after, by rw [List.append_assoc], hrun⟩

theorem spell_escape (run : Bytes) : spell (run.map Piece.escape) = run.flatMap escapeByte := by
  rw [spell, List.flatMap_map]
  rfl

/-- A text that begins with an escape has a piece for it. -/
theorem escape_pieces : ∀ {run : Bytes} {qs : List Piece} {rest : Bytes}, (∀ q ∈ qs, q.Ok) →
    run.flatMap escapeByte ++ rest = spell qs →
    ∃ qs', qs = run.map Piece.escape ++ qs' ∧ rest = spell qs' := by
  intro run
  induction run with
  | nil => intro qs rest _ h; exact ⟨qs, rfl, h⟩
  | cons c run ih =>
    intro qs rest hok h
    rw [List.flatMap_cons, List.append_assoc] at h
    cases qs with
    | nil => simp [escapeByte] at h
    | cons q qs =>
      have hq : q = .escape c ∧ run.flatMap escapeByte ++ rest = spell qs := by
        cases q with
        | text d =>
          simp only [spell_cons, Piece.spelt, escapeByte, List.cons_append, List.cons.injEq] at h
          exact absurd h.1.symm (hok (.text d) (by simp))
        | marker =>
          simp only [spell_cons, Piece.spelt, escapeByte, List.cons_append, List.cons.injEq] at h
          exact absurd h.2.1 (hexValue_hexDigit c).2.2.2
        | escape d =>
          obtain ⟨rfl, ht⟩ := escapeByte_append_inj h
          exact ⟨rfl, ht⟩
      obtain ⟨rfl, ht⟩ := hq
      obtain ⟨qs', rfl, hs⟩ := ih (fun r hr => hok r (by simp [hr])) ht
      exact ⟨qs', rfl, hs⟩

theorem spellsChar_iff (hok : ∀ p ∈ ps, p.Ok) (hs : s.bytes = spell ps) :
    SpellsChar s ↔ EscapesChar ps := by
  constructor
  · rintro ⟨before, run, after, hbefore, hrun, h⟩
    obtain ⟨qs, rfl, hq⟩ := pieces_of_prefix hbefore hok (h.symm.trans hs)
    obtain ⟨qs', rfl, -⟩ := escape_pieces (fun q hq => hok q (by simp [hq])) hq
    exact ⟨before, run, qs', rfl, hrun⟩
  · rintro ⟨before, run, after, rfl, hrun⟩
    refine ⟨before, run, spell after, fun p hp => hok p (by simp [hp]), hrun, ?_⟩
    rw [hs, spell_append, spell_append, spell_escape]

/-- What `escape` writes spells no character in escapes. -/
theorem not_escapesChar_pieces (bs : Bytes) : ¬ EscapesChar (pieces bs) := by
  rintro ⟨before, run, after, h, hrun⟩
  have hbs : bs = before.map Piece.byte ++ (run ++ after.map Piece.byte) := by
    have := congrArg (List.map Piece.byte) h
    rwa [pieces_byte, List.map_append, List.map_append, map_byte_escape] at this
  have hlen : (pieces (before.map Piece.byte)).length = before.length := by
    rw [pieces_length, List.length_map]
  have hpos : 0 < run.length := List.length_pos_iff.mpr hrun.ne_nil
  have hin : InChar bs before.length :=
    ⟨_, run, _, hbs, hrun, by simp, by rw [List.length_map]; omega⟩
  cases run with
  | nil => exact absurd rfl hrun.ne_nil
  | cons c run =>
    apply pieces_of_inChar (c := c) hin
    rw [h]
    simp

/-- Text is valid after an escape if it is with it. -/
theorem valid_after_escape (h : Valid (escapeByte c ++ x)) : Valid x := by
  obtain ⟨hhigh, hlow⟩ := hexDigit_ascii c
  exact (((show Valid (marker :: hexDigit (c >>> 4) :: hexDigit (c &&& 0x0f) :: x) from h).ascii_inv
    (by decide)).ascii_inv hhigh).ascii_inv hlow

/-- After an escape, what goes on with a character is escaped too. -/
theorem escape_run : ∀ {run : Bytes} {ps : List Piece}, (∀ d ∈ run, IsCont d) →
    Valid (spell ps) → ps.map Piece.byte = run ++ rest →
    ∃ qs, ps = run.map Piece.escape ++ qs ∧ Valid (spell qs) := by
  intro run
  induction run with
  | nil => intro ps _ hv _; exact ⟨ps, rfl, hv⟩
  | cons d run ih =>
    intro ps hcont hv hb
    cases ps with
    | nil => simp at hb
    | cons p ps =>
      rw [List.map_cons, List.cons_append, List.cons.injEq] at hb
      obtain ⟨rfl, hb⟩ := hb
      have hd := hcont _ (List.mem_cons_self ..)
      cases p with
      | text c => exact absurd hd hv.not_cont
      | marker => exact absurd hd (by decide)
      | escape c =>
        obtain ⟨qs, rfl, hq⟩ := ih (fun e he => hcont e (by simp [he])) (valid_after_escape hv) hb
        exact ⟨qs, rfl, hq⟩

/-- Bytes from `0x80` on that stand in a text stand for themselves. -/
theorem text_run : ∀ {run : Bytes} {ps : List Piece}, (∀ d ∈ run, 0x80 ≤ d) →
    spell ps = run ++ x → ∃ qs, ps = run.map Piece.text ++ qs ∧ spell qs = x := by
  intro run
  induction run with
  | nil => intro ps _ h; exact ⟨ps, rfl, h⟩
  | cons d run ih =>
    intro ps hrun h
    have hd : d ≠ marker := by
      intro hd
      have := hrun d (by simp)
      rw [hd] at this
      exact absurd this (by decide)
    cases ps with
    | nil => simp at h
    | cons p ps =>
      rw [spell_cons] at h
      cases p <;>
        simp only [Piece.spelt, escapeByte, List.cons_append, List.nil_append, List.cons.injEq] at h
      case text c =>
        obtain ⟨rfl, ht⟩ := h
        obtain ⟨qs, rfl, hq⟩ := ih (fun e he => hrun e (by simp [he])) ht
        exact ⟨qs, rfl, hq⟩
      case marker => exact absurd h.1.symm hd
      case escape c => exact absurd h.1.symm hd

/-- Text that begins with a byte from `0x80` on begins with a character. -/
theorem text_char (hc : 0x80 ≤ c) (hv : Valid (spell (.text c :: ps))) :
    ∃ run qs, .text c :: ps = run.map Piece.text ++ qs ∧ IsChar run ∧ Valid (spell qs) := by
  obtain ⟨run, more, heq, hrun, -, hmore⟩ := Valid.cons_inv (c := c) (t := spell ps) hv
  cases run with
  | nil => exact absurd rfl hrun.ne_nil
  | cons d run =>
    obtain rfl : c = d := by
      rw [List.cons_append, List.cons.injEq] at heq
      exact heq.1
    obtain ⟨qs, hqs, rfl⟩ := @text_run more (c :: run) (.text c :: ps) (hrun.high hc) heq
    exact ⟨c :: run, qs, hqs, hrun, hmore⟩

theorem ofText_high (h : ∀ d ∈ run, 0x80 ≤ d) : run.map Piece.ofText = run.map Piece.text := by
  apply List.map_congr_left
  intro d hd
  rw [Piece.ofText, if_neg]
  rintro rfl
  exact absurd (h _ hd) (by decide)

/-- **A text that spells no character in escapes is the one `escape` writes.** -/
theorem pieces_of_not_escapesChar : ∀ {bs : Bytes} {ps : List Piece}, ps.map Piece.byte = bs →
    (∀ p ∈ ps, p.Ok) → Valid (spell ps) → ¬ EscapesChar ps → pieces bs = ps := by
  intro bs
  induction bs using chunks_induction with
  | nil =>
    intro ps hb _ _ _
    rw [pieces_nil, List.map_eq_nil_iff.mp hb]
  | char run rest hrun hf hc ih =>
    intro ps hb hok hv hn
    rw [pieces_char hrun]
    cases run with
    | nil => exact absurd rfl hrun.ne_nil
    | cons c run =>
      cases ps with
      | nil => simp at hb
      | cons p ps =>
        have hp : p.byte = c := by simpa using congrArg List.head? hb
        have hrest {qs : List Piece} (hsplit : p :: ps = (c :: run).map Piece.ofText ++ qs)
            (hq : Valid (spell qs)) : (c :: run).map Piece.ofText ++ pieces rest = p :: ps := by
          rw [hsplit]
          rw [hsplit, List.map_append, map_byte_ofText] at hb
          rw [ih (List.append_cancel_left hb) (fun q hq => hok q (by rw [hsplit]; simp [hq])) hq
            (fun h => hn (hsplit ▸ h.append _))]
        cases p with
        | text d =>
          obtain rfl : d = c := hp
          by_cases hd : d < 0x80
          · obtain rfl := hrun.ascii hd
            apply @hrest ps _ (hv.ascii_inv hd)
            rw [List.map_singleton, Piece.ofText, if_neg (hok (.text d) (by simp))]
            rfl
          · obtain ⟨run', qs, hsplit, hrun', hq⟩ := text_char (UInt8.not_lt.mp hd) hv
            have hlen : run'.length = (d :: run).length := by
              rw [← hb, hsplit, List.map_append, map_byte_text, isChar_append hrun'] at hf
              simpa using hf
            have heq : run' = d :: run := by
              rw [hsplit, List.map_append, map_byte_text] at hb
              exact (List.append_inj hb hlen).1
            subst heq
            exact hrest (by rw [ofText_high (hrun.high (UInt8.not_lt.mp hd)), hsplit]) hq
        | marker =>
          obtain rfl : marker = c := hp
          obtain rfl := hrun.ascii (by decide)
          exact @hrest ps rfl ((hv.ascii_inv (by decide)).ascii_inv (by decide))
        | escape d =>
          obtain rfl : d = c := hp
          rw [List.map_cons, List.cons_append, List.cons.injEq] at hb
          obtain ⟨qs, rfl, -⟩ :=
            escape_run (isChar_cons hrun).2 (valid_after_escape hv) hb.2
          exact absurd ⟨[], d :: run, qs, rfl, hrun⟩ hn
  | junk c run rest hf hcont _ hc ih =>
    intro ps hb hok hv hn
    have hhigh := front_junk hf
    rw [pieces, hc, List.flatMap_cons]
    show (c :: run).map Piece.escape ++ pieces rest = ps
    cases ps with
    | nil => simp at hb
    | cons p ps =>
      have hp : p.byte = c := by simpa using congrArg List.head? hb
      cases p with
      | text d =>
        obtain rfl : d = c := hp
        obtain ⟨run', qs, hsplit, hrun', -⟩ := text_char hhigh hv
        rw [← hb, hsplit, List.map_append, map_byte_text] at hf
        exact absurd (isChar_append hrun' _) (hf _)
      | marker =>
        obtain rfl : marker = c := hp
        exact absurd hhigh (by decide)
      | escape d =>
        obtain rfl : d = c := hp
        rw [List.map_cons, List.cons_append, List.cons.injEq] at hb
        obtain ⟨qs, rfl, hq⟩ := escape_run hcont (valid_after_escape hv) hb.2
        have hbq : qs.map Piece.byte = rest := by
          have := hb.2
          rw [List.map_append, map_byte_escape] at this
          exact List.append_cancel_left this
        rw [ih hbq (fun q hq => hok q (by simp [hq])) hq
          (fun h => hn (h.append ((d :: run).map Piece.escape)))]
        rfl

/-- What an accepted text is, of a text that spells no character in escapes. -/
theorem escape_unescape_iff (h : unescape s = .ok bs) : escape bs = s ↔ ¬ SpellsChar s := by
  obtain ⟨ps, hok, hs, hb⟩ := unescape_iff.mp h
  rw [spellsChar_iff hok hs]
  constructor
  · intro he hn
    have hp : pieces bs = ps := by
      apply spell_inj (pieces_ok bs) hok
      rw [← escape_bytes, he, hs]
    exact not_escapesChar_pieces bs (hp ▸ hn)
  · intro hn
    apply Str.ext_bytes
    rw [escape_bytes, hs, pieces_of_not_escapesChar hb.symm hok (hs ▸ s.valid) hn]

theorem fromEscaped_iff {path : PathString} :
    PathString.fromEscaped s = .ok path ↔ (∃ bs, unescape s = .ok bs) ∧ path = ⟨s⟩ := by
  unfold PathString.fromEscaped
  cases h : unescape s with
  | error e => simp [bind, Except.bind]
  | ok bs => simp [bind, Except.bind, pure, Except.pure, eq_comm]

/-- **Which accepted texts are canonical.**  An accepted text is the escape of
the bytes it names unless escapes in it spell a character; so the escapes of
paths are the accepted texts that spell none, and two such texts name the same
bytes only if they are equal. -/
theorem accepted_text_canonical_iff (s : Str) :
    (∀ bs, unescape s = .ok bs → (escape bs = s ↔ ¬ SpellsChar s)) ∧
    ((∃ bs, escape bs = s) ↔
      (∃ path, PathString.fromEscaped s = .ok path) ∧ ¬ SpellsChar s) ∧
    (∀ t p q, PathString.fromEscaped s = .ok p → PathString.fromEscaped t = .ok q →
      ¬ SpellsChar s → ¬ SpellsChar t → (p.toBytes = q.toBytes ↔ p = q)) := by
  refine ⟨fun bs => escape_unescape_iff, ?_, ?_⟩
  · constructor
    · rintro ⟨bs, rfl⟩
      exact ⟨⟨_, fromEscaped_iff.mpr ⟨⟨bs, unescape_escape bs⟩, rfl⟩⟩,
        (escape_unescape_iff (unescape_escape bs)).mp rfl⟩
    · rintro ⟨⟨path, h⟩, hn⟩
      obtain ⟨⟨bs, hbs⟩, -⟩ := fromEscaped_iff.mp h
      exact ⟨bs, (escape_unescape_iff hbs).mpr hn⟩
  · intro t p q hp hq hs ht
    obtain ⟨⟨a, ha⟩, rfl⟩ := fromEscaped_iff.mp hp
    obtain ⟨⟨b, hb⟩, rfl⟩ := fromEscaped_iff.mp hq
    constructor
    · intro h
      have hab : a = b := by
        rw [PathString.toBytes, PathString.toBytes, ha, hb, Except.ok.injEq] at h
        exact h
      rw [← (escape_unescape_iff ha).mpr hs, hab, (escape_unescape_iff hb).mpr ht]
    · intro h
      rw [h]

/-- The text `%C3%A9`. -/
def escapedEAcute : Str := ⟨[0x25, 0x43, 0x33, 0x25, 0x41, 0x39], by decide +kernel⟩

/-- It is accepted, and names the file that `é` names. -/
theorem escapedEAcute_accepted : PathString.fromEscaped escapedEAcute = .ok ⟨escapedEAcute⟩ ∧
    unescape escapedEAcute = .ok [0xC3, 0xA9] ∧ escape [0xC3, 0xA9] ≠ escapedEAcute ∧
    PathString.fromEscaped (escape [0xC3, 0xA9]) = .ok ⟨escape [0xC3, 0xA9]⟩ ∧
    (PathString.mk escapedEAcute).toBytes = (PathString.mk (escape [0xC3, 0xA9])).toBytes := by
  have h : unescape escapedEAcute = .ok [0xC3, 0xA9] := by decide
  refine ⟨fromEscaped_iff.mpr ⟨⟨_, h⟩, rfl⟩, h, by decide +kernel,
    fromEscaped_iff.mpr ⟨⟨_, unescape_escape _⟩, rfl⟩, ?_⟩
  rw [PathString.toBytes, PathString.toBytes, h, unescape_escape]

end FilePeeker
