import FilePeeker.Path.PathString
import Mathlib.Data.List.DropRight

/-!
# A path as its components, and as a person reads it

The first part is what `std::path` makes of a Unix path: `components`,
`startsWith` and `parent`.  They are applied to escaped paths too, which have the
separators the real path has.

The second part is `PathString::display`: the path as characters, where what is
no UTF-8 is shown as U+FFFD.
-/

namespace FilePeeker

open Utf8

/-- `.`. -/
def dot : UInt8 := 0x2E

namespace Path

inductive Component
  | rootDir
  | curDir
  | parentDir
  | normal (name : Bytes)
deriving DecidableEq, Repr

/-- What a path begins with: the root, a `.` of its own, or neither. -/
inductive Start
  | root
  | here
  | inside
deriving DecidableEq, Repr

/-- What a path begins with, and the segments after that. -/
def parse (path : Bytes) : Start × List Bytes :=
  match path.splitOn slash with
  | [] => (.inside, [])
  | [] :: segment :: body => (.root, segment :: body)
  | first :: body => if first = [dot] then (.here, body) else (.inside, first :: body)

/-- `parse_single_component`: an empty segment and `.` are none. -/
def parseSingle (segment : Bytes) : Option Component :=
  if segment = [] ∨ segment = [dot] then none
  else if segment = [dot, dot] then some .parentDir
  else some (.normal segment)

def Start.components : Start → List Component
  | .root => [.rootDir]
  | .here => [.curDir]
  | .inside => []

def components (path : Bytes) : List Component :=
  (parse path).1.components ++ (parse path).2.filterMap parseSingle

def startsWith (path base : Bytes) : Bool := (components base).isPrefixOf (components path)

def joined (segments : List Bytes) : Bytes := [slash].intercalate segments

def Start.text : Start → List Bytes → Bytes
  | .root, body => slash :: joined body
  | .here, [] => [dot]
  | .here, segment :: body => dot :: slash :: joined (segment :: body)
  | .inside, body => joined body

/-- `trim_right`: no segments at the end that are no components. -/
def trimRight (body : List Bytes) : List Bytes :=
  body.rdropWhile fun segment => (parseSingle segment).isNone

/-- `Path::parent`, which a root and the empty path have none of. -/
def parentBytes (path : Bytes) : Option Bytes :=
  let (start, body) := parse path
  match trimRight body, start with
  | [], .here => some []
  | [], _ => none
  | segment :: body, start => some (start.text (trimRight (segment :: body).dropLast))

/-! ### Absolute paths -/

/-- `Path::is_absolute`. -/
def isAbsolute (path : Bytes) : Bool := path.head? = some slash

/-- `Path::join`. -/
def join (path name : Bytes) : Bytes :=
  if isAbsolute name then name
  else if path = [] ∨ path.getLast? = some slash then path ++ name
  else path ++ slash :: name

/-- The components after what a path begins with. -/
def inner (path : Bytes) : List Component := (path.splitOn slash).filterMap parseSingle

variable {a b name : Bytes}

theorem isAbsolute_iff : isAbsolute a ↔ ∃ rest, a = slash :: rest := by
  cases a with
  | nil => simp [isAbsolute]
  | cons c rest => simp [isAbsolute]

theorem isAbsolute_append (h : isAbsolute a) (b : Bytes) : isAbsolute (a ++ b) := by
  obtain ⟨rest, rfl⟩ := isAbsolute_iff.mp h
  exact isAbsolute_iff.mpr ⟨rest ++ b, rfl⟩

theorem inner_append (a b : Bytes) : inner (a ++ slash :: b) = inner a ++ inner b := by
  rw [inner, List.splitOn_append_cons_self, List.filterMap_append]
  rfl

@[simp] theorem inner_nil : inner [] = [] := rfl

theorem inner_root (rest : Bytes) : inner (slash :: rest) = inner rest := inner_append [] rest

/-- One segment that is a name. -/
theorem inner_name (hs : slash ∉ name) (hne : name ≠ []) (hd : name ≠ [dot])
    (hdd : name ≠ [dot, dot]) : inner name = [.normal name] := by
  rw [inner, List.splitOn_eq_singleton hs]
  simp [parseSingle, hne, hd, hdd]

theorem components_absolute (h : isAbsolute a) : components a = .rootDir :: inner a := by
  obtain ⟨rest, rfl⟩ := isAbsolute_iff.mp h
  have hsplit : (slash :: rest).splitOn slash = [] :: rest.splitOn slash :=
    List.splitOn_append_cons_self [] rest
  have hparse : parse (slash :: rest) = (.root, rest.splitOn slash) := by
    unfold parse
    rw [hsplit]
    cases hrest : rest.splitOn slash with
    | nil => exact absurd hrest (List.splitOn_ne_nil _ _)
    | cons first body => rfl
  rw [components, hparse, inner_root]
  rfl

theorem components_join (ha : isAbsolute a) (hb : ¬ isAbsolute b) :
    components (join a b) = components a ++ inner b := by
  have hne : a ≠ [] := fun h => by simp [h, isAbsolute] at ha
  rw [join, if_neg hb]
  split
  · next h =>
    obtain ⟨stem, rfl⟩ : ∃ stem, a = stem ++ [slash] :=
      List.getLast?_eq_some_iff.mp (h.resolve_left hne)
    have hend : inner (stem ++ [slash]) = inner stem := by
      rw [inner_append, inner_nil, List.append_nil]
    rw [components_absolute ha, components_absolute (isAbsolute_append ha b), hend,
      List.append_assoc, List.singleton_append, inner_append, List.cons_append]
  · rw [components_absolute ha, components_absolute (isAbsolute_append ha _), inner_append,
      List.cons_append]

theorem isAbsolute_join (ha : isAbsolute a) : isAbsolute (join a b) := by
  unfold join
  split_ifs with hb
  · exact hb
  · exact isAbsolute_append ha b
  · exact isAbsolute_append ha _

theorem parseSingle_ne_root (segment : Bytes) : parseSingle segment ≠ some .rootDir := by
  unfold parseSingle
  split_ifs <;> simp

/-- A path that begins at the root is an absolute one. -/
theorem isAbsolute_of_components {inside : List Component}
    (h : components a = .rootDir :: inside) : isAbsolute a := by
  have hne (body : List Bytes) : body.filterMap parseSingle ≠ .rootDir :: inside := by
    intro hroot
    have hmem : Component.rootDir ∈ body.filterMap parseSingle := by simp [hroot]
    obtain ⟨segment, -, hs⟩ := List.mem_filterMap.mp hmem
    exact parseSingle_ne_root segment hs
  cases a with
  | nil => exact absurd h (hne [[]])
  | cons c rest =>
    by_cases hc : c = slash
    · exact isAbsolute_iff.mpr ⟨rest, by rw [hc]⟩
    · obtain ⟨first, body, hsplit⟩ : ∃ first body, (c :: rest).splitOn slash =
          (c :: first) :: body := by
        rw [List.splitOn_cons_eq_if_modifyHead, if_neg (by simpa using hc)]
        cases hrest : rest.splitOn slash with
        | nil => exact absurd hrest (List.splitOn_ne_nil _ _)
        | cons first body => exact ⟨first, body, rfl⟩
      have hparse : parse (c :: rest) = if c :: first = [dot] then (.here, body)
          else (.inside, (c :: first) :: body) := by
        unfold parse
        rw [hsplit]
      rw [components, hparse] at h
      split at h
      · simp [Start.components] at h
      · exact absurd h (hne ((c :: first) :: body))

/-! ### A part of a text is text -/

variable {bs : Bytes} {segments : List Bytes}

theorem valid_segments : ∀ {path : Bytes}, Valid path → ∀ segment ∈ path.splitOn slash,
    Valid segment := by
  intro path
  induction hn : path.length using Nat.strongRecOn generalizing path with
  | ind n ih =>
    intro h segment hs
    by_cases hslash : slash ∈ path
    · obtain ⟨a, b, rfl, -⟩ := List.eq_append_cons_of_mem hslash
      obtain ⟨ha, hb⟩ := h.around_ascii (by decide) rfl
      rw [List.length_append, List.length_cons] at hn
      rw [List.splitOn_append_cons_self, List.mem_append] at hs
      rcases hs with hs | hs
      · exact ih _ (by omega) rfl ha segment hs
      · exact ih _ (by omega) rfl hb segment hs
    · rw [List.splitOn_eq_singleton hslash, List.mem_singleton] at hs
      rwa [hs]

theorem valid_joined (h : ∀ segment ∈ segments, Valid segment) : Valid (joined segments) := by
  induction segments with
  | nil => exact .nil
  | cons segment segments ih =>
    have hsegment := h segment (by simp)
    have hrest := ih fun s hs => h s (by simp [hs])
    cases segments with
    | nil => simpa [joined] using hsegment
    | cons next segments =>
      rw [joined, List.intercalate_cons_cons]
      exact (hsegment.append (.singleton (by decide))).append hrest

theorem valid_body (h : Valid bs) : ∀ segment ∈ (parse bs).2, Valid segment := by
  intro segment hs
  refine valid_segments h segment ?_
  unfold parse at hs
  split at hs
  · simp at hs
  · next heq =>
    rw [heq]
    exact List.mem_cons_of_mem _ hs
  · next heq =>
    rw [heq]
    split at hs
    · exact List.mem_cons_of_mem _ hs
    · exact hs

theorem valid_text (start : Start) (h : ∀ segment ∈ segments, Valid segment) :
    Valid (start.text segments) := by
  have hslash : Valid [slash] := .singleton (by decide)
  have hdot : Valid [dot] := .singleton (by decide)
  cases start with
  | root => exact hslash.append (valid_joined h)
  | inside => exact valid_joined h
  | here =>
    cases segments with
    | nil => exact hdot
    | cons segment segments => exact hdot.append (hslash.append (valid_joined h))

theorem trimRight_sublist (body : List Bytes) : (trimRight body).Sublist body := by
  have h := List.rdropWhile_prefix (fun segment => (parseSingle segment).isNone) body
  exact h.sublist

theorem valid_parentBytes {parent : Bytes} (h : Valid bs) (hp : parentBytes bs = some parent) :
    Valid parent := by
  unfold parentBytes at hp
  simp only at hp
  split at hp
  · obtain rfl := Option.some.inj hp
    exact .nil
  · simp at hp
  · next htrim =>
    obtain rfl := Option.some.inj hp
    refine valid_text _ fun s hs => valid_body h s ?_
    have hs := (trimRight_sublist _).subset hs
    have hs := List.dropLast_subset _ hs
    rw [← htrim] at hs
    exact (trimRight_sublist _).subset hs

def parent (path : Str) : Option Str :=
  match h : parentBytes path.bytes with
  | none => none
  | some bytes => some ⟨bytes, valid_parentBytes path.valid h⟩

end Path

/-! ### For a person to read -/

abbrev Text := List Char

/-- `char::REPLACEMENT_CHARACTER`. -/
def replacementCharacter : Char := Char.ofNat 0xFFFD

/-- The character some bytes encode. -/
def decodeChar (run : Bytes) : Char :=
  match run.map UInt8.toNat with
  | [a] => Char.ofNat a
  | [a, b] => Char.ofNat (a % 0x20 * 0x40 + b % 0x40)
  | [a, b, c] => Char.ofNat ((a % 0x10 * 0x40 + b % 0x40) * 0x40 + c % 0x40)
  | [a, b, c, d] =>
    Char.ofNat (((a % 0x08 * 0x40 + b % 0x40) * 0x40 + c % 0x40) * 0x40 + d % 0x40)
  | _ => replacementCharacter

/-- `String::from_utf8_lossy`. -/
def fromUtf8Lossy (bytes : Bytes) : Text :=
  (chunks bytes).map fun
    | .char run => decodeChar run
    | .junk _ => replacementCharacter

def Str.chars (s : Str) : Text := fromUtf8Lossy s.bytes

/-- U+FFFD. -/
def replacement : Bytes := [0xEF, 0xBF, 0xBD]

/-- What stands for a chunk in a `String`. -/
def Utf8.Chunk.lossy : Chunk → Bytes
  | .char run => run
  | .junk _ => replacement

theorem isChar_replacement : IsChar replacement := by decide +kernel

theorem isChar_lossy (bs : Bytes) : ∀ chunk ∈ chunks bs, IsChar chunk.lossy := by
  induction bs using chunks_induction with
  | nil => simp
  | char run rest hrun _ hc ih =>
    rw [hc]
    exact List.forall_mem_cons.mpr ⟨hrun, ih⟩
  | junk c run rest _ _ _ hc ih =>
    rw [hc]
    exact List.forall_mem_cons.mpr ⟨isChar_replacement, ih⟩

theorem valid_lossy (bs : Bytes) : Valid ((chunks bs).flatMap Chunk.lossy) := by
  have h := isChar_lossy bs
  generalize chunks bs = cs at h
  induction cs with
  | nil => exact .nil
  | cons chunk rest ih =>
    have hrest := List.forall_mem_cons.mp h
    exact .char hrest.1 (ih hrest.2)

/-- `String::from_utf8_lossy`, where it is written out again. -/
def lossy (bs : Bytes) : Str := ⟨(chunks bs).flatMap Chunk.lossy, valid_lossy bs⟩

theorem lossy_ne_nil {bs : Bytes} (h : bs ≠ []) : (lossy bs).bytes ≠ [] := by
  have hchunks : chunks bs ≠ [] := fun hnil => h (by rw [← chunks_bytes bs, hnil]; rfl)
  obtain ⟨chunk, rest, hcons⟩ := List.exists_cons_of_ne_nil hchunks
  have hchar := isChar_lossy bs chunk (hcons ▸ List.mem_cons_self)
  show (chunks bs).flatMap Chunk.lossy ≠ []
  rw [hcons, List.flatMap_cons]
  exact fun hnil => hchar.ne_nil (List.append_eq_nil_iff.mp hnil).1

/-- A byte that is no part of U+FFFD is not made up. -/
theorem mem_lossy {bs : Bytes} {c : UInt8} (hc : c ∉ replacement) (h : c ∈ (lossy bs).bytes) :
    c ∈ bs := by
  obtain ⟨chunk, hchunk, hmem⟩ := List.mem_flatMap.mp h
  cases chunk with
  | char run =>
    rw [← chunks_bytes bs]
    exact List.mem_flatMap.mpr ⟨_, hchunk, hmem⟩
  | junk run => exact absurd hmem hc

/-- For a person to read, and to match a typed query against. -/
def PathString.display (path : PathString) : Text :=
  if marker ∉ path.escaped.bytes then path.escaped.chars
  else
    match path.toBytes with
    | .ok bytes => fromUtf8Lossy bytes
    | .error _ => path.escaped.chars

end FilePeeker
