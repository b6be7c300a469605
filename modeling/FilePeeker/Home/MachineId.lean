import FilePeeker.Lib.Trim
import FilePeeker.Path.Reading

/-!
# The machine's ID

`normalize_machine_id` and `platform_machine_id` of `home.rs`, on Linux: the first
of two files whose text is 32 hex digits that are not all zeros, with any dashes and
white space around them dropped.

`serverReads_iff` says the same of a file's bytes: white space in whole characters,
hex digits and dashes, and white space again (`ServerReads`).  Then the ID is the
file's hex digits in their order (`digits`).
-/

namespace FilePeeker

open Utf8

variable {c : UInt8} {content run id : Bytes} {runs : List Bytes} {raw : Str}

/-- The bytes of an ASCII literal. -/
def ascii (text : String) : Bytes := text.toList.map fun c => c.toNat.toUInt8

def dash : UInt8 := 0x2D

/-- `0`. -/
def zero : UInt8 := 0x30

/-- `u8::is_ascii_hexdigit`. -/
def isHexDigit (c : UInt8) : Bool :=
  (0x30 ≤ c ∧ c ≤ 0x39) ∨ (0x41 ≤ c ∧ c ≤ 0x46) ∨ (0x61 ≤ c ∧ c ≤ 0x66)

/-- `to_ascii_lowercase` of a byte. -/
def toAsciiLowercase (c : UInt8) : UInt8 := if 0x41 ≤ c ∧ c ≤ 0x5A then c + 0x20 else c

/-- `char::is_whitespace`, the characters with `White_Space`. -/
def isWhitespace (c : Char) : Bool :=
  let n := c.toNat
  (0x09 ≤ n ∧ n ≤ 0x0D) ∨ n = 0x20 ∨ n = 0x85 ∨ n = 0xA0 ∨ n = 0x1680 ∨
    (0x2000 ≤ n ∧ n ≤ 0x200A) ∨ n = 0x2028 ∨ n = 0x2029 ∨ n = 0x202F ∨ n = 0x205F ∨ n = 0x3000

/-- A text's characters, each as its bytes. -/
def Str.characters (s : Str) : List Bytes := (chunks s.bytes).map Chunk.bytes

/-- A character that is white space. -/
def isBlank (run : Bytes) : Bool := isWhitespace (decodeChar run)

/-- `char::to_ascii_lowercase`. -/
def lowered : Bytes → Bytes
  | [c] => [toAsciiLowercase c]
  | run => run

/-- 32 hex digits, lowercased, any dashes and surrounding whitespace dropped; an
all-zero ID is no ID. -/
def normalizeMachineId (raw : Str) : Option Bytes :=
  let id := (((trim isBlank raw.characters).filter fun run => run ≠ [dash]).map lowered).flatten
  if id.length = 32 ∧ id.all isHexDigit ∧ id.any (· ≠ zero) then some id else none

/-- `fs::read_to_string(..).ok()`, of a file that holds this or cannot be read. -/
def readToString (file : Option Bytes) : Option Str :=
  file.bind fun content => if h : Valid content then some ⟨content, h⟩ else none

/-- What `/etc/machine-id` and `/var/lib/dbus/machine-id` hold, where they can be
read. -/
structure MachineIdFiles where
  etc : Option Bytes
  dbus : Option Bytes
deriving DecidableEq, Repr

def MachineIdFiles.inOrder (files : MachineIdFiles) : List (Option Bytes) :=
  [files.etc, files.dbus]

def platformMachineId (files : MachineIdFiles) : Option Bytes :=
  (files.inOrder.filterMap readToString).findSome? normalizeMachineId

/-! ### Which files spell an ID -/

/-- 32 hex digits, and not all of them `0`. -/
structure IsId (id : Bytes) : Prop where
  length : id.length = 32
  hex : ∀ c ∈ id, isHexDigit c
  nonzero : ∃ c ∈ id, c ≠ zero

/-- The hex digits of some bytes in their order, lowercased. -/
def digits (content : Bytes) : Bytes := (content.filter isHexDigit).map toAsciiLowercase

/-- Characters that are white space, and nothing else. -/
inductive Blank : Bytes → Prop
  | nil : Blank []
  | char {run rest : Bytes} (hrun : IsChar run) (hblank : isBlank run) (hrest : Blank rest) :
      Blank (run ++ rest)

/-- A hex digit, or a dash between them. -/
def InId (c : UInt8) : Prop := isHexDigit c ∨ c = dash

/-- Hex digits and dashes with white space around them, and the digits an ID. -/
def ServerReads (content : Bytes) : Prop :=
  ∃ before core after, content = before ++ core ++ after ∧ Blank before ∧ Blank after ∧
    (∀ c ∈ core, InId c) ∧ IsId (digits content)

theorem digits_append (a b : Bytes) : digits (a ++ b) = digits a ++ digits b := by
  rw [digits, List.filter_append, List.map_append]
  rfl

theorem digits_eq_nil (h : ∀ c ∈ content, ¬ isHexDigit c) : digits content = [] := by
  rw [digits, List.filter_eq_nil_iff.mpr h, List.map_nil]

theorem isHexDigit_lt (h : isHexDigit c) : c < 0x80 := by
  simp only [isHexDigit, decide_eq_true_eq] at h
  grind

theorem InId.lt (h : InId c) : c < 0x80 := by
  rcases h with h | rfl
  · exact isHexDigit_lt h
  · decide

theorem isHexDigit_toAsciiLowercase : isHexDigit (toAsciiLowercase c) = isHexDigit c := by
  rw [Bool.eq_iff_iff, toAsciiLowercase]
  split_ifs with h
  · simp only [isHexDigit, decide_eq_true_eq, UInt8.le_iff_toNat_le, UInt8.toNat_add,
      UInt8.toNat_ofNat] at *
    omega
  · rfl

theorem decodeChar_singleton : (decodeChar [c]).toNat = c.toNat := by
  have hlt := UInt8.toNat_lt c
  have hv : (c.toNat).isValidChar := .inl (by omega)
  show (Char.ofNat c.toNat).toNat = c.toNat
  rw [Char.ofNat, dif_pos hv]
  rfl

theorem InId.not_blank (h : InId c) : ¬ isBlank [c] := by
  have hdigit : isHexDigit c → ¬ (c.toNat ≤ 0x20 ∨ 0x80 ≤ c.toNat) := by
    simp only [isHexDigit, decide_eq_true_eq, UInt8.le_iff_toNat_le, UInt8.toNat_ofNat]
    omega
  have hn : ¬ (c.toNat ≤ 0x20 ∨ 0x80 ≤ c.toNat) := by
    rcases h with h | rfl
    · exact hdigit h
    · decide
  simp only [isBlank, isWhitespace, decodeChar_singleton, decide_eq_true_eq]
  omega

theorem not_hex_of_blank (hrun : IsChar run) (hblank : isBlank run) :
    ∀ c ∈ run, ¬ isHexDigit c := by
  intro d hd hdigit
  cases run with
  | nil => simp at hd
  | cons c t =>
    by_cases hc : c < 0x80
    · obtain rfl := hrun.ascii hc
      obtain rfl := List.mem_singleton.mp hd
      exact InId.not_blank (.inl hdigit) hblank
    · have hhigh := hrun.high (by simpa using hc) d hd
      exact absurd (isHexDigit_lt hdigit) (by simpa using hhigh)

theorem digits_blank (h : Blank content) : digits content = [] := by
  induction h with
  | nil => rfl
  | char hrun hblank _ ih =>
    rw [digits_append, digits_eq_nil (not_hex_of_blank hrun hblank), ih]
    rfl

/-! ### The characters of such a file -/

theorem characters_append (h : ∀ run ∈ runs, IsChar run) (rest : Bytes) :
    (chunks (runs.flatten ++ rest)).map Chunk.bytes = runs ++ (chunks rest).map Chunk.bytes := by
  induction runs with
  | nil => rfl
  | cons run runs ih =>
    have hrest := ih fun r hr => h r (by simp [hr])
    rw [List.flatten_cons, List.append_assoc, chunks_of_isChar (h run (by simp)), List.map_cons,
      hrest]
    rfl

theorem valid_flatten (h : ∀ run ∈ runs, IsChar run) : Valid runs.flatten := by
  induction runs with
  | nil => exact .nil
  | cons run runs ih => exact .char (h run (by simp)) (ih fun r hr => h r (by simp [hr]))

theorem Str.characters_spec (s : Str) :
    (∀ run ∈ s.characters, IsChar run) ∧ s.characters.flatten = s.bytes := by
  obtain ⟨runs, hruns, hflat, hchunks⟩ := chunks_of_valid s.valid []
  have heq : s.characters = runs := by
    rw [List.append_nil] at hchunks
    rw [Str.characters, hchunks, chunks_nil, List.append_nil, List.map_map]
    exact List.map_id'' (fun _ => rfl) runs
  rw [heq]
  exact ⟨hruns, hflat⟩

theorem blank_iff : Blank content ↔
    ∃ runs : List Bytes, content = runs.flatten ∧ ∀ run ∈ runs, IsChar run ∧ isBlank run := by
  constructor
  · intro h
    induction h with
    | nil => exact ⟨[], rfl, by simp⟩
    | @char run rest hrun hblank _ ih =>
      obtain ⟨runs, rfl, hruns⟩ := ih
      refine ⟨run :: runs, rfl, ?_⟩
      intro r hr
      rcases List.mem_cons.mp hr with rfl | hr
      · exact ⟨hrun, hblank⟩
      · exact hruns r hr
  · rintro ⟨runs, rfl, h⟩
    induction runs with
    | nil => exact .nil
    | cons run runs ih =>
      obtain ⟨hrun, hblank⟩ := h run (by simp)
      exact .char hrun hblank (ih fun r hr => h r (by simp [hr]))

/-- Where every byte but the dashes is a hex digit, every character is one byte. -/
theorem plain_runs (h : ∀ run ∈ runs, IsChar run)
    (hhex : ∀ c ∈ ((runs.filter fun run => run ≠ [dash]).map lowered).flatten, isHexDigit c) :
    ∃ core : Bytes, runs = core.map ([·]) ∧ ∀ c ∈ core, InId c := by
  induction runs with
  | nil => exact ⟨[], rfl, by simp⟩
  | cons run runs ih =>
    have hone : ∃ c, run = [c] ∧ InId c := by
      by_cases hd : run = [dash]
      · exact ⟨dash, hd, .inr rfl⟩
      · have hrun := h run (by simp)
        have hlow : ∀ c ∈ lowered run, isHexDigit c := by
          intro c hc
          exact hhex c (List.mem_flatten.mpr ⟨lowered run, by simp [hd], hc⟩)
        match run, hrun, hlow with
        | [], hrun, _ => exact absurd rfl hrun.ne_nil
        | [c], _, hlow =>
          have hc := hlow (toAsciiLowercase c) (by simp [lowered])
          rw [isHexDigit_toAsciiLowercase] at hc
          exact ⟨c, rfl, .inl hc⟩
        | c :: d :: t, hrun, hlow =>
          have hc := hlow c (by simp [lowered])
          exact absurd (hrun.ascii (isHexDigit_lt hc)) (by simp)
    obtain ⟨c, rfl, hc⟩ := hone
    obtain ⟨core, rfl, hcore⟩ := ih (fun r hr => h r (by simp [hr])) fun d hd => by
      refine hhex d ?_
      rw [List.filter_cons]
      split_ifs
      · rw [List.map_cons, List.flatten_cons]
        exact List.mem_append_right _ hd
      · exact hd
    refine ⟨c :: core, rfl, ?_⟩
    intro d hd
    rcases List.mem_cons.mp hd with rfl | hd
    · exact hc
    · exact hcore d hd

theorem plain_digits {core : Bytes} (h : ∀ c ∈ core, InId c) :
    (((core.map ([·])).filter fun run => run ≠ [dash]).map lowered).flatten = digits core := by
  induction core with
  | nil => rfl
  | cons c core ih =>
    have hrest := ih fun d hd => h d (by simp [hd])
    rcases h c (by simp) with hc | rfl
    · have hne : c ≠ dash := by
        rintro rfl
        exact absurd hc (by decide)
      rw [digits, List.filter_cons_of_pos hc, List.map_cons, List.filter_cons_of_pos (by simpa),
        List.map_cons, List.flatten_cons, hrest]
      rfl
    · rw [List.map_cons, List.filter_cons_of_neg (by simp), hrest, digits, digits,
        List.filter_cons_of_neg (by decide)]

theorem flatten_singles (core : Bytes) : (core.map ([·])).flatten = core :=
  List.flatMap_singleton' core

theorem digits_around {before core after : Bytes} (hb : Blank before) (ha : Blank after) :
    digits (before ++ core ++ after) = digits core := by
  rw [digits_append, digits_append, digits_blank hb, digits_blank ha, List.nil_append,
    List.append_nil]

theorem normalizeMachineId_iff :
    normalizeMachineId raw = some id ↔ ServerReads raw.bytes ∧ id = digits raw.bytes := by
  obtain ⟨hchars, hflat⟩ := raw.characters_spec
  constructor
  · intro h
    simp only [normalizeMachineId, Option.ite_none_right_eq_some, Option.some.injEq] at h
    obtain ⟨⟨hlen, hhex, hzero⟩, hid⟩ := h
    obtain ⟨before, after, hsplit, hbefore, hafter⟩ := trim_split isBlank raw.characters
    generalize trim isBlank raw.characters = runs at hlen hhex hzero hid hsplit
    rw [hsplit] at hchars hflat
    obtain ⟨core, rfl, hcore⟩ := plain_runs (fun run hr => hchars run (by simp [hr]))
      (List.all_eq_true.mp hhex)
    have hb : Blank before.flatten :=
      blank_iff.mpr ⟨before, rfl, fun r hr => ⟨hchars r (by simp [hr]), hbefore r hr⟩⟩
    have ha : Blank after.flatten :=
      blank_iff.mpr ⟨after, rfl, fun r hr => ⟨hchars r (by simp [hr]), hafter r hr⟩⟩
    have hcontent : raw.bytes = before.flatten ++ core ++ after.flatten := by
      rw [← hflat, List.flatten_append, List.flatten_append, flatten_singles]
    have hdigits : digits raw.bytes = digits core := by rw [hcontent, digits_around hb ha]
    rw [plain_digits hcore] at hlen hhex hzero hid
    have hisId : IsId (digits raw.bytes) := by
      rw [hdigits]
      exact ⟨hlen, List.all_eq_true.mp hhex, by simpa using hzero⟩
    exact ⟨⟨_, core, _, hcontent, hb, ha, hcore, hisId⟩, by rw [hdigits, hid]⟩
  · rintro ⟨⟨before, core, after, hcontent, hbefore, hafter, hcore, hid⟩, rfl⟩
    have hdigits : digits raw.bytes = digits core := by rw [hcontent, digits_around hbefore hafter]
    rw [hdigits] at hid ⊢
    obtain ⟨before, rfl, hb⟩ := blank_iff.mp hbefore
    obtain ⟨after, rfl, ha⟩ := blank_iff.mp hafter
    have hsingle : ∀ run ∈ core.map ([·]), IsChar run := by
      intro run hr
      obtain ⟨c, hc, rfl⟩ := List.mem_map.mp hr
      exact isChar_singleton (hcore c hc).lt
    have hcharacters : raw.characters = before ++ core.map ([·]) ++ after := by
      have hnone := characters_append (fun r hr => (ha r hr).1) []
      rw [List.append_nil, chunks_nil, List.map_nil, List.append_nil] at hnone
      rw [Str.characters, hcontent, List.append_assoc, List.append_assoc,
        characters_append (fun r hr => (hb r hr).1), ← flatten_singles core,
        characters_append hsingle, hnone, flatten_singles]
    have hne : core.map ([·]) ≠ [] := by
      intro h
      rw [List.map_eq_nil_iff.mp h] at hid
      exact absurd hid.length (by decide)
    have htrim : trim isBlank raw.characters = core.map ([·]) := by
      rw [hcharacters]
      refine trim_around (fun r hr => (hb r hr).2) (fun r hr => (ha r hr).2) ?_ hne
      intro run hr
      obtain ⟨c, hc, rfl⟩ := List.mem_map.mp hr
      exact (hcore c hc).not_blank
    have hcond : (digits core).length = 32 ∧ (digits core).all isHexDigit ∧
        (digits core).any (· ≠ zero) :=
      ⟨hid.length, List.all_eq_true.mpr hid.hex, by simpa using hid.nonzero⟩
    rw [normalizeMachineId, htrim, plain_digits hcore, if_pos hcond]

theorem ServerReads.valid (h : ServerReads content) : Valid content := by
  obtain ⟨before, core, after, rfl, hbefore, hafter, hcore, -⟩ := h
  have hblank {b : Bytes} (hb : Blank b) : Valid b := by
    obtain ⟨runs, rfl, hruns⟩ := blank_iff.mp hb
    exact valid_flatten fun r hr => (hruns r hr).1
  have hmid : Valid core := by
    rw [← flatten_singles core]
    refine valid_flatten fun run hr => ?_
    obtain ⟨c, hc, rfl⟩ := List.mem_map.mp hr
    exact isChar_singleton (hcore c hc).lt
  exact ((hblank hbefore).append hmid).append (hblank hafter)

/-- What the server makes of one file. -/
theorem serverReads_iff : (readToString (some content)).bind normalizeMachineId = some id ↔
    ServerReads content ∧ id = digits content := by
  rw [readToString, Option.bind_some]
  split_ifs with h
  · rw [Option.bind_some, normalizeMachineId_iff]
  · simpa using fun hreads => absurd (ServerReads.valid hreads) h

/-! ### The first of some files -/

/-- `id` is what the first of some files with `p` spells. -/
def Spells (p : Bytes → Prop) (files : List (Option Bytes)) (id : Bytes) : Prop :=
  ∃ before content after, files = before ++ some content :: after ∧ p content ∧
    (∀ other, some other ∈ before → ¬ p other) ∧ id = digits content

variable {p : Bytes → Prop} {file : Option Bytes} {files : List (Option Bytes)}

theorem not_spells_nil : ¬ Spells p [] id := by
  rintro ⟨before, content, after, hfiles, -⟩
  simp at hfiles

theorem spells_cons : Spells p (file :: files) id ↔
    (∃ content, file = some content ∧ p content ∧ id = digits content) ∨
      (∀ content, file = some content → ¬ p content) ∧ Spells p files id := by
  constructor
  · rintro ⟨before, content, after, hfiles, hp, hbefore, hid⟩
    cases before with
    | nil =>
      obtain ⟨rfl, -⟩ := List.cons.inj hfiles
      exact .inl ⟨content, rfl, hp, hid⟩
    | cons first before =>
      obtain ⟨rfl, rfl⟩ := List.cons.inj hfiles
      refine .inr ⟨?_, before, content, after, rfl, hp, ?_, hid⟩
      · rintro other rfl
        exact hbefore other (by simp)
      · exact fun other ho => hbefore other (List.mem_cons_of_mem _ ho)
  · rintro (⟨content, rfl, hp, hid⟩ | ⟨hfile, before, content, after, rfl, hp, hbefore, hid⟩)
    · exact ⟨[], content, files, rfl, hp, by simp, hid⟩
    · refine ⟨file :: before, content, after, rfl, hp, ?_, hid⟩
      intro other ho
      rcases List.mem_cons.mp ho with rfl | ho
      · exact hfile other rfl
      · exact hbefore other ho

/-- What a search through files finds, where `read` takes those with `p`. -/
theorem findSome?_iff_spells {read : Option Bytes → Option Bytes} (hnone : read none = none)
    (hread : ∀ content id, read (some content) = some id ↔ p content ∧ id = digits content) :
    files.findSome? read = some id ↔ Spells p files id := by
  induction files with
  | nil => simpa using not_spells_nil
  | cons file files ih =>
    rw [spells_cons, List.findSome?_cons, ← ih]
    cases file with
    | none => simp [hnone]
    | some content =>
      cases hr : read (some content) with
      | some found =>
        obtain ⟨hp, rfl⟩ := (hread content found).mp hr
        simp [hp, eq_comm]
      | none =>
        have hp : ¬ p content := by
          intro hp
          have := (hread content (digits content)).mpr ⟨hp, rfl⟩
          rw [hr] at this
          simp at this
        simp [hp]

theorem platformMachineId_iff {files : MachineIdFiles} :
    platformMachineId files = some id ↔ Spells ServerReads files.inOrder id := by
  have heq : platformMachineId files =
      files.inOrder.findSome? fun file => (readToString file).bind normalizeMachineId := by
    rw [platformMachineId]
    induction files.inOrder with
    | nil => rfl
    | cons file files ih =>
      rw [List.filterMap_cons, List.findSome?_cons]
      cases readToString file with
      | none => exact ih
      | some raw =>
        rw [List.findSome?_cons, ih]
        rfl
  rw [heq]
  exact findSome?_iff_spells rfl fun content id => serverReads_iff

/-- An ID is 32 hex digits. -/
theorem isId_of_platformMachineId {files : MachineIdFiles}
    (h : platformMachineId files = some id) : IsId id := by
  obtain ⟨_, content, _, -, ⟨_, _, _, -, -, -, -, hid⟩, -, rfl⟩ := platformMachineId_iff.mp h
  exact hid

/-- A machine with an ID, as `ID` of the tests, and an ending of its line. -/
def machineWithId (ending : Bytes) : MachineIdFiles :=
  ⟨some (ascii "0123456789abcdef0123456789abcdef" ++ ending), none⟩

end FilePeeker
