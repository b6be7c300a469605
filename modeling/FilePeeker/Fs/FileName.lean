import FilePeeker.Fs.Write

/-!
# What is taken for a file name

`is_name` asks for a path of one component.  A name has one, and so has a name with
separators behind it, and `.`s between those: `a/`, `a//` and `a/.` are taken for names,
and `write_file` goes on to make its partial file in the directory `.a` (`slash_is_taken`).
These are all it takes too much, and a name that is one is where the file will be
(`file_name_iff`).
-/

namespace FilePeeker

open FilePeeker.Path

/-- The name of one file. -/
def IsFileName (name : Bytes) : Prop :=
  name ≠ [] ∧ slash ∉ name ∧ name ≠ [dot] ∧ name ≠ [dot, dot]

instance : DecidablePred IsFileName := fun _ => inferInstanceAs (Decidable (_ ∧ _))

/-- A name with a separator behind it, and after that nothing but separators and `.`s. -/
def Trailed (real : Bytes) : Prop :=
  ∃ name rest, IsFileName name ∧ real = name ++ slash :: rest ∧ inner rest = []

namespace Path

variable {segment rest real name : Bytes}

/-- What stands before the first separator, and what after it. -/
theorem append_slash_inj {a b c d : Bytes} (ha : slash ∉ a) (hc : slash ∉ c)
    (h : a ++ slash :: b = c ++ slash :: d) : a = c ∧ b = d := by
  have hsegment : SelfDelimiting (slash ∉ ·) fun segment : Bytes => segment ++ [slash] :=
    .terminated (fun _ _ _ _ => id) fun _ => id
  exact hsegment a c b d ha hc (by simpa using h)

/-- The component of the first segment, where a `.` is one. -/
def firstComponent (segment : Bytes) : Option Component :=
  if segment = [dot] then some .curDir else parseSingle segment

theorem firstComponent_eq_normal :
    firstComponent segment = some (.normal name) ↔
      segment = name ∧ name ≠ [] ∧ name ≠ [dot] ∧ name ≠ [dot, dot] := by
  unfold firstComponent parseSingle
  constructor
  · intro h
    by_cases hdot : segment = [dot]
    · rw [if_pos hdot] at h
      cases h
    · by_cases hnone : segment = [] ∨ segment = [dot]
      · rw [if_neg hdot, if_pos hnone] at h
        cases h
      · by_cases hup : segment = [dot, dot]
        · rw [if_neg hdot, if_neg hnone, if_pos hup] at h
          cases h
        · rw [if_neg hdot, if_neg hnone, if_neg hup] at h
          cases h
          exact ⟨rfl, fun hnil => hnone (.inl hnil), hdot, hup⟩
  · rintro ⟨rfl, hne, hdot, hup⟩
    rw [if_neg hdot, if_neg (not_or.mpr ⟨hne, hdot⟩), if_neg hup]

theorem firstComponent_isSome (hne : segment ≠ []) :
    ∃ component, firstComponent segment = some component := by
  unfold firstComponent parseSingle
  split
  · exact ⟨_, rfl⟩
  · next hdot =>
    rw [if_neg (not_or.mpr ⟨hne, hdot⟩)]
    split <;> exact ⟨_, rfl⟩

theorem components_segment (hs : slash ∉ real) :
    components real = (firstComponent real).toList := by
  have hparse : parse real = if real = [dot] then (.here, []) else (.inside, [real]) := by
    rw [parse, List.splitOn_eq_singleton hs]
    by_cases hnil : real = []
    · subst hnil
      rfl
    · obtain ⟨c, rest, rfl⟩ := List.exists_cons_of_ne_nil hnil
      rfl
  rw [components, hparse, firstComponent]
  by_cases hdot : real = [dot]
  · rw [if_pos hdot, if_pos hdot]
    rfl
  · rw [if_neg hdot, if_neg hdot]
    show [real].filterMap parseSingle = _
    cases hfirst : parseSingle real <;> simp [hfirst]

theorem components_segments (hs : slash ∉ segment) (hne : segment ≠ []) (rest : Bytes) :
    components (segment ++ slash :: rest) = (firstComponent segment).toList ++ inner rest := by
  have hparse : parse (segment ++ slash :: rest) =
      if segment = [dot] then (.here, rest.splitOn slash)
      else (.inside, segment :: rest.splitOn slash) := by
    rw [parse, List.splitOn_append_cons_self, List.splitOn_eq_singleton hs,
      List.singleton_append]
    obtain ⟨c, stem, rfl⟩ := List.exists_cons_of_ne_nil hne
    rfl
  rw [components, hparse, firstComponent, inner]
  by_cases hdot : segment = [dot]
  · rw [if_pos hdot, if_pos hdot]
    rfl
  · rw [if_neg hdot, if_neg hdot]
    show (segment :: rest.splitOn slash).filterMap parseSingle = _
    cases hfirst : parseSingle segment <;> simp [hfirst]

/-- A path is one component where it is a name, or a name with a separator behind it and
no component after that. -/
theorem components_eq_singleton : components real = [.normal name] ↔
    IsFileName name ∧ (real = name ∨ ∃ rest, real = name ++ slash :: rest ∧ inner rest = []) := by
  by_cases hs : slash ∈ real
  · obtain ⟨segment, rest, rfl, hseg⟩ := List.eq_append_cons_of_mem hs
    by_cases hne : segment = []
    · subst hne
      have habs : isAbsolute ([] ++ slash :: rest) := isAbsolute_iff.mpr ⟨rest, rfl⟩
      rw [components_absolute habs]
      refine iff_of_false nofun ?_
      rintro ⟨hname, heq | ⟨after, heq, -⟩⟩
      · exact hname.2.1 (heq ▸ hs)
      · obtain ⟨c, name, rfl⟩ := List.exists_cons_of_ne_nil hname.1
        exact hname.2.1 ((List.cons.inj heq).1 ▸ List.mem_cons_self)
    · obtain ⟨component, hfirst⟩ := firstComponent_isSome hne
      rw [components_segments hseg hne, hfirst, Option.toList_some, List.singleton_append,
        List.cons.injEq]
      constructor
      · rintro ⟨rfl, hinner⟩
        obtain ⟨rfl, hname⟩ := firstComponent_eq_normal.mp hfirst
        exact ⟨⟨hname.1, hseg, hname.2⟩, .inr ⟨rest, rfl, hinner⟩⟩
      · rintro ⟨hname, heq | ⟨after, heq, hinner⟩⟩
        · exact absurd (heq ▸ hs) hname.2.1
        · obtain ⟨rfl, rfl⟩ := append_slash_inj hseg hname.2.1 heq
          have hnormal := firstComponent_eq_normal.mpr ⟨rfl, hname.1, hname.2.2⟩
          exact ⟨Option.some.inj (hfirst.symm.trans hnormal), hinner⟩
  · rw [components_segment hs]
    constructor
    · intro h
      cases hfirst : firstComponent real with
      | none =>
        rw [hfirst] at h
        cases h
      | some component =>
        rw [hfirst] at h
        obtain rfl : component = .normal name := (List.cons.inj h).1
        obtain ⟨rfl, hname⟩ := firstComponent_eq_normal.mp hfirst
        exact ⟨⟨hname.1, hs, hname.2⟩, .inl rfl⟩
    · rintro ⟨hname, rfl | ⟨rest, rfl, -⟩⟩
      · rw [firstComponent_eq_normal.mpr ⟨rfl, hname.1, hname.2.2⟩]
        rfl
      · exact absurd (List.mem_append_right _ List.mem_cons_self) hs

end Path

namespace PathString

/-- **A name is taken, and so is a name with separators behind it, and nothing else.** -/
theorem isName_iff (path : PathString) : path.isName ↔
    ∃ real, path.toBytes = .ok real ∧ (IsFileName real ∨ Trailed real) := by
  have hone (real : Bytes) : (∃ name, components real = [.normal name]) ↔
      IsFileName real ∨ Trailed real := by
    constructor
    · rintro ⟨name, h⟩
      obtain ⟨hname, rfl | ⟨rest, rfl, hrest⟩⟩ := components_eq_singleton.mp h
      · exact .inl hname
      · exact .inr ⟨name, rest, hname, rfl, hrest⟩
    · rintro (hname | ⟨name, rest, hname, rfl, hrest⟩)
      · exact ⟨real, components_eq_singleton.mpr ⟨hname, .inl rfl⟩⟩
      · exact ⟨name, components_eq_singleton.mpr ⟨hname, .inr ⟨rest, rfl, hrest⟩⟩⟩
  cases hreal : path.toBytes with
  | error error => simp [isName, hreal]
  | ok real =>
    simp only [Except.ok.injEq, exists_eq_left', ← hone real, isName, hreal]
    constructor
    · intro h
      split at h
      · next name hcomponents => exact ⟨name, hcomponents⟩
      · cases h
    · rintro ⟨name, h⟩
      rw [h]

/-- What it decodes to is the name of one file. -/
def NamesOneFile (path : PathString) : Prop := ∃ real, path.toBytes = .ok real ∧ IsFileName real

/-- The path is taken for a name exactly if it is one, and where it is taken, what
`write_file` makes is in the directory it was given, under the very bytes of the name. -/
structure CheckedName (path : PathString) : Prop where
  accepted : path.isName ↔ path.NamesOneFile
  child (directory : PathString) (conflict : Fs.WriteConflict) (t : Fs.Target) :
    path.isName → (Fs.Request.mk directory path conflict).target = .ok t →
    Fs.absolute directory = .ok t.directory ∧ path.toBytes = .ok t.name ∧
      components t.destination = components t.directory ++ [.normal t.name]

theorem isFileName_not_trailed {real : Bytes} (h : IsFileName real) : ¬ Trailed real := by
  rintro ⟨name, rest, -, rfl, -⟩
  exact h.2.1 (List.mem_append_right _ List.mem_cons_self)

/-- Where the file of a name will be. -/
theorem child_of_isFileName {path directory : PathString} {conflict : Fs.WriteConflict}
    {t : Fs.Target} {real : Bytes} (hreal : path.toBytes = .ok real) (hname : IsFileName real)
    (ht : (Fs.Request.mk directory path conflict).target = .ok t) :
    Fs.absolute directory = .ok t.directory ∧ path.toBytes = .ok t.name ∧
      components t.destination = components t.directory ++ [.normal t.name] := by
  obtain ⟨-, hdirectory, hbytes⟩ := Fs.Request.target_spec ht
  obtain rfl : real = t.name := Except.ok.inj (hreal.symm.trans hbytes)
  refine ⟨hdirectory, hbytes, ?_⟩
  have hrelative : ¬ isAbsolute t.name := fun habs => by
    obtain ⟨rest, heq⟩ := isAbsolute_iff.mp habs
    exact hname.2.1 (heq ▸ List.mem_cons_self)
  rw [Fs.Target.destination, components_join (Fs.isAbsolute_of_absolute hdirectory) hrelative,
    inner_name hname.2.1 hname.1 hname.2.2.1 hname.2.2.2]

/-- **A name is checked exactly where its bytes are no name with separators behind it.** -/
theorem file_name_iff (path : PathString) :
    path.CheckedName ↔ ¬ ∃ real, path.toBytes = .ok real ∧ Trailed real := by
  constructor
  · rintro h ⟨real, hreal, htrailed⟩
    have hisName := path.isName_iff.mpr ⟨real, hreal, .inr htrailed⟩
    obtain ⟨real', hreal', hname⟩ := h.accepted.mp hisName
    obtain rfl : real = real' := Except.ok.inj (hreal.symm.trans hreal')
    exact isFileName_not_trailed hname htrailed
  · intro h
    have hname (htaken : path.isName) : path.NamesOneFile := by
      obtain ⟨real, hreal, hname | htrailed⟩ := path.isName_iff.mp htaken
      · exact ⟨real, hreal, hname⟩
      · exact absurd ⟨real, hreal, htrailed⟩ h
    refine ⟨⟨hname, fun ⟨real, hreal, hname⟩ => path.isName_iff.mpr ⟨real, hreal, .inl hname⟩⟩, ?_⟩
    intro directory conflict t htaken ht
    obtain ⟨real, hreal, hreal'⟩ := hname htaken
    exact child_of_isFileName hreal hreal' ht

/-- `a/`. -/
def nameAndSlash : PathString := .ofBytes [0x61, slash]

/-- It is taken, and its partial file would be made in a directory `.a`. -/
theorem slash_is_taken : nameAndSlash.isName ∧ ¬ nameAndSlash.NamesOneFile ∧
    ¬ ∀ path : PathString, path.CheckedName := by
  have hreal : nameAndSlash.toBytes = .ok [0x61, slash] := unescape_escape _
  have htrailed : Trailed [0x61, slash] := ⟨[0x61], [], by decide, rfl, rfl⟩
  refine ⟨nameAndSlash.isName_iff.mpr ⟨_, hreal, .inr htrailed⟩, ?_, fun h => ?_⟩
  · rintro ⟨real, hreal', hname⟩
    obtain rfl : [0x61, slash] = real := Except.ok.inj (hreal.symm.trans hreal')
    exact isFileName_not_trailed hname htrailed
  · exact (file_name_iff nameAndSlash).mp (h nameAndSlash) ⟨_, hreal, htrailed⟩

end PathString

end FilePeeker
