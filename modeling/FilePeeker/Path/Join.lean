import FilePeeker.Path.Reading

/-!
# Joining escaped paths

A `/` is escaped as itself, and no other byte's piece has a `/`.  So an escaped path has
its separators where the path has them, whatever bytes stand around them: to join two
escapes is to escape what is joined, and between the separators of an escape stand the
escapes of what stands between those of the path (`escape_join`).
-/

namespace FilePeeker

open Utf8 FilePeeker.Path

variable {a b bs : Bytes} {ps : List Piece} {c : UInt8}

/-! ### The separators of an escape -/

theorem pieces_slash (a b : Bytes) :
    pieces (a ++ slash :: b) = pieces a ++ .text slash :: pieces b := by
  have hslash : IsChar [slash] := isChar_singleton (by decide)
  have h : pieces (a ++ ([slash] ++ b)) = pieces a ++ [slash].map Piece.ofText ++ pieces b :=
    pieces_around hslash
  rw [List.append_assoc] at h
  exact h

theorem escape_slash (a b : Bytes) :
    (escape (a ++ slash :: b)).bytes = (escape a).bytes ++ slash :: (escape b).bytes := by
  rw [escape_bytes, pieces_slash, spell_append, spell_cons, escape_bytes, escape_bytes]
  rfl

theorem escape_nil : (escape []).bytes = [] := by rw [escape_bytes, pieces_nil, spell_nil]

/-- A piece with a `/` is the piece of a `/`. -/
theorem slash_mem_spelt {p : Piece} (hok : p.Ok) : slash ∈ p.spelt ↔ p.byte = slash := by
  cases p with
  | text c => exact List.mem_singleton.trans eq_comm
  | marker => decide
  | escape c =>
    have hdigits : ∀ c : UInt8, slash ∉ escapeByte c := forall_byte (by decide +kernel)
    refine ⟨fun h => absurd h (hdigits c), fun h => ?_⟩
    have hle : lowestEscapableByte ≤ c := hok
    rw [show c = slash from h] at hle
    exact absurd hle (by decide)

theorem slash_mem_spell (hok : ∀ p ∈ ps, p.Ok) :
    slash ∈ spell ps ↔ slash ∈ ps.map Piece.byte := by
  rw [spell, List.mem_flatMap, List.mem_map]
  exact exists_congr fun p => and_congr_right fun hp => slash_mem_spelt (hok p hp)

theorem slash_mem_escape (bs : Bytes) : slash ∈ (escape bs).bytes ↔ slash ∈ bs := by
  rw [escape_bytes, slash_mem_spell (pieces_ok bs), pieces_byte]

/-- Between the separators of an escape stand the escapes of what is between the path's. -/
theorem splitOn_escape (bs : Bytes) : (escape bs).bytes.splitOn slash =
    (bs.splitOn slash).map fun segment => (escape segment).bytes := by
  induction bs using words_induction slash with
  | word a h =>
    rw [List.splitOn_eq_singleton h, List.splitOn_eq_singleton (by rwa [slash_mem_escape])]
    rfl
  | between a b iha ihb =>
    rw [escape_slash, List.splitOn_append_cons_self, List.splitOn_append_cons_self, iha, ihb,
      List.map_append]

/-- Between the separators of any text that spells a path stands what spells what is
between the path's. -/
theorem splitOn_unescape {text : Bytes} (h : unescapeFrom text = .ok bs) :
    (text.splitOn slash).map unescapeFrom = (bs.splitOn slash).map .ok := by
  obtain ⟨ps, hok, rfl, rfl⟩ := unescapeFrom_iff.mp h
  induction hbs : ps.map Piece.byte using words_induction slash generalizing ps with
  | word a ha =>
    rw [List.splitOn_eq_singleton ha, List.splitOn_eq_singleton
      (by rwa [slash_mem_spell hok, hbs]), List.map_singleton, List.map_singleton, ← hbs]
    exact congrArg (fun bytes => [bytes]) (unescapeFrom_iff.mpr ⟨ps, hok, rfl, rfl⟩)
  | between a b iha ihb =>
    obtain ⟨qs, ps', rfl, rfl, hrest⟩ := List.map_eq_append_iff.mp hbs
    obtain ⟨p, rs, rfl, hp, rfl⟩ := List.map_eq_cons_iff.mp hrest
    have hqs : ∀ q ∈ qs, q.Ok := fun q hq => hok q (List.mem_append_left _ hq)
    have hrs : ∀ q ∈ rs, q.Ok := fun q hq => hok q (by simp [hq])
    have hpok : p.Ok := hok p (by simp)
    have hspelt : p.spelt = [slash] := by
      cases p with
      | text c => rw [Piece.spelt, show c = slash from hp]
      | marker => cases hp
      | escape c =>
        have hle : lowestEscapableByte ≤ c := hpok
        rw [show c = slash from hp] at hle
        exact absurd hle (by decide)
    rw [spell_append, spell_cons, hspelt, List.singleton_append, List.splitOn_append_cons_self,
      List.splitOn_append_cons_self, List.map_append, List.map_append,
      iha qs hqs (unescapeFrom_iff.mpr ⟨qs, hqs, rfl, rfl⟩) rfl,
      ihb rs hrs (unescapeFrom_iff.mpr ⟨rs, hrs, rfl, rfl⟩) rfl]

/-! ### Joining -/

/-- Text without a marker is its own escape, and no other path's. -/
theorem escape_eq_plain (hv : Valid a) (hm : marker ∉ a) : (escape bs).bytes = a ↔ bs = a := by
  have hplain : (escape a).bytes = a := escape_exact.2.2.2 a hv hm
  constructor
  · intro h
    exact escape_injective (Str.ext_bytes (h.trans hplain.symm))
  · rintro rfl
    exact hplain

theorem escape_eq_nil : (escape bs).bytes = [] ↔ bs = [] :=
  escape_eq_plain .nil List.not_mem_nil

/-- A path and its escape end with a separator together. -/
theorem escape_getLast? (bs : Bytes) :
    (escape bs).bytes.getLast? = some slash ↔ bs.getLast? = some slash := by
  induction bs using words_induction slash with
  | word a h =>
    refine ⟨fun hlast => ?_, fun hlast => absurd (List.mem_of_getLast? hlast) h⟩
    exact absurd (List.mem_of_getLast? hlast) (by rwa [slash_mem_escape])
  | between a b _ ihb =>
    rw [escape_slash]
    by_cases hb : b = []
    · subst hb
      simp [escape_eq_nil.mpr]
    · have hne : (escape b).bytes ≠ [] := fun h => hb (escape_eq_nil.mp h)
      rw [List.getLast?_append_of_ne_nil _ (List.cons_ne_nil _ _),
        List.getLast?_append_of_ne_nil _ (List.cons_ne_nil _ _),
        List.getLast?_cons_of_ne_nil hne, List.getLast?_cons_of_ne_nil hb]
      exact ihb

/-- **Joining the escapes is escaping what is joined.** -/
theorem ofBytes_join (ha : a ≠ []) (name : Bytes) :
    (PathString.ofBytes a).join (.ofBytes name) =
      .ofBytes (if a.getLast? = some slash then a ++ name else a ++ slash :: name) := by
  have hne : (escape a).bytes ≠ [] := fun h => ha (escape_eq_nil.mp h)
  rw [PathString.join, PathString.ofBytes, PathString.ofBytes, if_neg hne]
  refine congrArg PathString.mk (Str.ext_bytes ?_)
  by_cases hlast : a.getLast? = some slash
  · obtain ⟨stem, rfl⟩ : ∃ stem, a = stem ++ [slash] :=
      ⟨a.dropLast, (List.dropLast_append_getLast? slash hlast).symm⟩
    rw [if_pos hlast, if_pos ((escape_getLast? _).mpr hlast), List.append_assoc,
      List.singleton_append, escape_slash]
    simp [Str.append, Str.empty, escape_slash, escape_eq_nil.mpr]
  · rw [if_neg hlast, if_neg (fun h => hlast ((escape_getLast? a).mp h)), escape_slash]
    simp [Str.append, Str.slash]

/-! ### What a path is made of -/

namespace Path

/-- What stands in an escaped path for a component. -/
def Component.escape : Component → Component
  | .normal name => .normal (FilePeeker.escape name).bytes
  | component => component

theorem escape_eq_dot : (FilePeeker.escape bs).bytes = [dot] ↔ bs = [dot] :=
  escape_eq_plain (.singleton (by decide)) (by decide)

theorem escape_eq_dotDot : (FilePeeker.escape bs).bytes = [dot, dot] ↔ bs = [dot, dot] :=
  escape_eq_plain ((Valid.singleton (c := dot) (by decide)).append (.singleton (by decide)))
    (by decide)

theorem parseSingle_escape (segment : Bytes) :
    parseSingle (FilePeeker.escape segment).bytes = (parseSingle segment).map .escape := by
  simp only [parseSingle, escape_eq_nil, escape_eq_dot, escape_eq_dotDot]
  split
  · rfl
  · split <;> rfl

theorem parse_escape (bs : Bytes) : parse (FilePeeker.escape bs).bytes =
    ((parse bs).1, (parse bs).2.map fun segment => (FilePeeker.escape segment).bytes) := by
  unfold parse
  rw [splitOn_escape]
  rcases bs.splitOn slash with _ | ⟨first, body⟩
  · rfl
  · by_cases hfirst : first = []
    · subst hfirst
      cases body with
      | nil => simp [escape_eq_nil.mpr]
      | cons segment body => simp [escape_eq_nil.mpr]
    · have hne : (FilePeeker.escape first).bytes ≠ [] := fun h => hfirst (escape_eq_nil.mp h)
      by_cases hdot : first = [dot]
      · subst hdot
        have hdot' := escape_eq_dot.mpr rfl
        simp [hdot']
      · simp [hfirst, hne, hdot, escape_eq_dot]

/-- The components of an escaped path are the path's, escaped. -/
theorem components_escape (bs : Bytes) :
    components (FilePeeker.escape bs).bytes = (components bs).map .escape := by
  rw [components, parse_escape, components, List.map_append, List.filterMap_map,
    List.map_filterMap]
  refine congrArg₂ _ ?_ (List.filterMap_congr fun segment _ => parseSingle_escape segment)
  cases (parse bs).1 <;> rfl

end Path

/-- **Escaping goes through `/`.**  Joining escapes is escaping what is joined; between the
separators of an escape stand the escapes of what is between the path's, and its components
are the path's, escaped.  Between the separators of any accepted text stands what spells
what is between those of the path it stands for. -/
theorem escape_join :
    (∀ a name : Bytes, a ≠ [] → (PathString.ofBytes a).join (.ofBytes name) =
      .ofBytes (if a.getLast? = some slash then a ++ name else a ++ slash :: name)) ∧
    (∀ bs : Bytes, (escape bs).bytes.splitOn slash =
      (bs.splitOn slash).map fun segment => (escape segment).bytes) ∧
    (∀ bs : Bytes, components (escape bs).bytes = (components bs).map .escape) ∧
    ∀ (path : PathString) (bs : Bytes), path.toBytes = .ok bs →
      (path.escaped.bytes.splitOn slash).map unescapeFrom = (bs.splitOn slash).map .ok :=
  ⟨fun _ name ha => ofBytes_join ha name, splitOn_escape, components_escape,
    fun _ _ h => splitOn_unescape h⟩

/-- A character cut short before the `/` stays cut short. -/
theorem cut_short_stays : (PathString.ofBytes [0x63, 0xC3]).join (.ofBytes [0xA9]) =
    .ofBytes [0x63, 0xC3, slash, 0xA9] :=
  escape_join.1 [0x63, 0xC3] [0xA9] (by decide)

end FilePeeker
