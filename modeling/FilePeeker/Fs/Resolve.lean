import FilePeeker.Fs.Walk
import FilePeeker.Lib.Variables

/-!
# Resolving a path

`resolve_path` of `fs/resolve_path.rs`, on which every operation on a path begins, and the
two resolutions of a copy's source.  It expands variables, makes the path absolute, and
takes `.` and `..` out of it.

What comes out is at the root and has only names in it (`IsNormal`), so resolving it again
leaves it as it is where it holds no reference to a variable; and so a listed file is
addressed (`resolved_paths_stay`).  But a name may hold a `$`, and one that spells a
reference is expanded: the file `$A` is opened as `b`, or as none
(`dollar_name_is_expanded`).
-/

namespace FilePeeker.Fs

open FilePeeker.Path Variables Shell

/-- What resolving a path asks the system and the environment. -/
structure Host where
  /-- `std::env::var_os`. -/
  var : Bytes → Option Bytes
  /-- `shellexpand::path::full`, with the text of its error. -/
  full : Bytes → Except Text Bytes
  currentDir : Except IoError Bytes
  isAbsolute_currentDir : ∀ dir, currentDir = .ok dir → isAbsolute dir

/-- What `shellexpand` makes of a path that begins at the root: it leaves one without a
reference as it is, puts the values in, and fails where a variable is not set. -/
structure Expands (host : Host) : Prop where
  unchanged : ∀ path, isAbsolute path → hasReference path = false → host.full path = .ok path
  expanded : ∀ path, isAbsolute path → Plain path →
    (host.full path).toOption = substituted host.var path

/-! ### The code -/

/-- One component more, as `PathBuf::push` and `PathBuf::pop` do it. -/
def pushComponent (normalized : Bytes) : Component → Bytes
  | .rootDir => join normalized [slash]
  | .curDir => normalized
  | .parentDir => (parentBytes normalized).getD normalized
  | .normal name => join normalized name

def normalizeAbsolute (path : Bytes) : Bytes := (components path).foldl pushComponent []

/-- What is no path from the root is one from the working directory. -/
def makeAbsolute (host : Host) (expanded : Bytes) : Except FsError Bytes :=
  if isAbsolute expanded then .ok expanded
  else do
    let dir ← host.currentDir.mapError fun error =>
      ⟨.internal, "cannot read current directory: ".toList ++ error.message⟩
    return join dir expanded

/-- `fs::resolve_path`. -/
def resolvePath (host : Host) (path : PathString) : Except FsError Bytes := do
  let path ← path.toBytes.mapError FsError.ofEscape
  let expanded ← (host.full path).mapError fun message => ⟨.invalidArgument, message⟩
  let absolute ← makeAbsolute host expanded
  return normalizeAbsolute absolute

/-- The path that `op_copy_file` has opened: what the client was told the source resolves
to, resolved by `read_file`. -/
def copySource (host : Host) (path : PathString) : Except FsError Bytes := do
  let resolved ← resolvePath host path
  resolvePath host (.ofBytes resolved)

variable {host : Host} {path : PathString} {q root name real : Bytes} {names : List Bytes}

/-! ### Normal paths -/

/-- The path at the root with these names in it. -/
def atRoot (names : List Bytes) : Bytes := slash :: joined names

def IsNormal (path : Bytes) : Prop :=
  ∃ names, (∀ name ∈ names, IsFileName name) ∧ path = atRoot names

/-- What a component makes of the names so far. -/
def keep (names : List Bytes) : Component → List Bytes
  | .rootDir | .curDir => names
  | .parentDir => names.dropLast
  | .normal name => names ++ [name]

theorem isAbsolute_atRoot : isAbsolute (atRoot names) := isAbsolute_iff.mpr ⟨_, rfl⟩

theorem not_isAbsolute_of_isFileName (h : IsFileName name) : ¬ isAbsolute name := by
  intro habs
  obtain ⟨rest, rfl⟩ := isAbsolute_iff.mp habs
  exact h.2.1 List.mem_cons_self

theorem join_atRoot (hnames : ∀ name ∈ names, IsFileName name) (hname : IsFileName name) :
    join (atRoot names) name = atRoot (names ++ [name]) := by
  rw [join, if_neg (not_isAbsolute_of_isFileName hname)]
  by_cases hne : names = []
  · subst hne
    show slash :: name = slash :: joined [name]
    rw [joined, List.intercalate_singleton]
  · have hlast : (atRoot names).getLast? ≠ some slash := by
      rw [atRoot, List.getLast?_cons_of_ne_nil (joined_ne_nil hnames hne)]
      exact getLast?_joined hnames
    have hnil : atRoot names ≠ [] := List.cons_ne_nil _ _
    rw [if_neg (not_or.mpr ⟨hnil, hlast⟩), atRoot, List.cons_append, ← joined_concat hne, atRoot]

theorem parse_atRoot (names : List Bytes) :
    parse (atRoot names) = (.root, (joined names).splitOn slash) := by
  rw [atRoot, parse, show slash :: joined names = [] ++ slash :: joined names from rfl,
    List.splitOn_append_cons_self]
  cases h : (joined names).splitOn slash with
  | nil => exact absurd h (List.splitOn_ne_nil _ _)
  | cons first body => rfl

theorem parseSingle_of_isFileName (h : IsFileName name) :
    parseSingle name = some (.normal name) := by
  rw [parseSingle, if_neg (not_or.mpr ⟨h.1, h.2.2.1⟩), if_neg h.2.2.2]

theorem trimRight_names (hnames : ∀ name ∈ names, IsFileName name) : trimRight names = names := by
  rw [trimRight, List.rdropWhile_eq_self_iff]
  intro hne
  rw [parseSingle_of_isFileName (hnames _ (List.getLast_mem hne))]
  exact Bool.false_ne_true

/-- One level up, where there is one. -/
theorem parentBytes_atRoot (hnames : ∀ name ∈ names, IsFileName name) :
    (parentBytes (atRoot names)).getD (atRoot names) = atRoot names.dropLast := by
  by_cases hne : names = []
  · subst hne
    rfl
  · have hsplit : (joined names).splitOn slash = names :=
      List.splitOn_intercalate slash (fun name hname => (hnames name hname).2.1) hne
    have hup : trimRight names.dropLast = names.dropLast :=
      trimRight_names fun name hname => hnames name (List.dropLast_subset _ hname)
    obtain ⟨first, more, rfl⟩ := List.exists_cons_of_ne_nil hne
    simp only [parentBytes, parse_atRoot, hsplit, trimRight_names hnames, hup, Option.getD_some]
    rfl

/-! ### Normalizing -/

theorem normal_mem_inner (h : .normal name ∈ inner real) :
    name ∈ real.splitOn slash ∧ IsFileName name := by
  obtain ⟨segment, hsegment, hs⟩ := List.mem_filterMap.mp h
  unfold parseSingle at hs
  split at hs
  · cases hs
  · next hskip =>
    obtain ⟨hne, hdot⟩ := not_or.mp hskip
    split at hs
    · cases hs
    · next hup =>
      cases hs
      exact ⟨hsegment, hne, notMem_of_mem_splitOn hsegment, hdot, hup⟩

theorem isFileName_keep (hnames : ∀ name ∈ names, IsFileName name) {component : Component}
    (hc : ∀ name, component = .normal name → IsFileName name) :
    ∀ name ∈ keep names component, IsFileName name := by
  intro name hname
  cases component with
  | rootDir => exact hnames name hname
  | curDir => exact hnames name hname
  | parentDir => exact hnames name (List.dropLast_subset _ hname)
  | normal last =>
    rcases List.mem_append.mp hname with hname | hname
    · exact hnames name hname
    · rw [List.mem_singleton.mp hname]
      exact hc last rfl

theorem pushComponent_atRoot (hnames : ∀ name ∈ names, IsFileName name) {component : Component}
    (hc : ∀ name, component = .normal name → IsFileName name) (hroot : component ≠ .rootDir) :
    pushComponent (atRoot names) component = atRoot (keep names component) := by
  cases component with
  | rootDir => exact absurd rfl hroot
  | curDir => rfl
  | parentDir => exact parentBytes_atRoot hnames
  | normal last => exact join_atRoot hnames (hc last rfl)

theorem foldl_pushComponent {components : List Component} :
    ∀ {names : List Bytes}, (∀ name ∈ names, IsFileName name) →
      (∀ name, .normal name ∈ components → IsFileName name) → .rootDir ∉ components →
      components.foldl pushComponent (atRoot names) = atRoot (components.foldl keep names) ∧
        ∀ name ∈ components.foldl keep names, IsFileName name := by
  induction components with
  | nil => intro names hnames _ _; exact ⟨rfl, hnames⟩
  | cons component components ih =>
    intro names hnames hc hroot
    obtain ⟨hfirst, hroot⟩ := not_or.mp (List.mem_cons.not.mp hroot)
    have hnormal : ∀ name, component = .normal name → IsFileName name :=
      fun name heq => hc name (heq ▸ List.mem_cons_self)
    rw [List.foldl_cons, List.foldl_cons, pushComponent_atRoot hnames hnormal (Ne.symm hfirst)]
    exact ih (isFileName_keep hnames hnormal) (fun name h => hc name (List.mem_cons_of_mem _ h))
      hroot

/-- Normalizing a path is keeping its names. -/
theorem normalizeAbsolute_eq (h : isAbsolute real) :
    normalizeAbsolute real = atRoot ((inner real).foldl keep []) ∧
      ∀ name ∈ (inner real).foldl keep [], IsFileName name := by
  have hroot : Component.rootDir ∉ inner real := by
    intro hmem
    obtain ⟨segment, -, hs⟩ := List.mem_filterMap.mp hmem
    exact parseSingle_ne_root segment hs
  rw [normalizeAbsolute, components_absolute h]
  exact foldl_pushComponent (fun _ h => absurd h List.not_mem_nil)
    (fun _ h => (normal_mem_inner h).2) hroot

theorem foldl_keep_normal (names : List Bytes) :
    ∀ before, (names.map .normal).foldl keep before = before ++ names := by
  induction names with
  | nil => intro before; exact (List.append_nil before).symm
  | cons name names ih =>
    intro before
    rw [List.map_cons, List.foldl_cons, keep, ih, List.append_assoc, List.singleton_append]

theorem isNormal_normalizeAbsolute (h : isAbsolute real) : IsNormal (normalizeAbsolute real) :=
  ⟨_, (normalizeAbsolute_eq h).2, (normalizeAbsolute_eq h).1⟩

theorem normalizeAbsolute_of_isNormal (h : IsNormal q) : normalizeAbsolute q = q := by
  obtain ⟨names, hnames, rfl⟩ := h
  have hinner : inner (atRoot names) = names.map .normal :=
    (inner_root _).trans (inner_joined hnames)
  rw [(normalizeAbsolute_eq isAbsolute_atRoot).1, hinner, foldl_keep_normal, List.nil_append]

theorem mem_foldl_keep {components : List Component} :
    ∀ {before : List Bytes}, name ∈ components.foldl keep before →
      name ∈ before ∨ .normal name ∈ components := by
  induction components with
  | nil => intro before h; exact .inl h
  | cons component components ih =>
    intro before h
    rcases ih h with h | h
    · cases component with
      | rootDir => exact .inl h
      | curDir => exact .inl h
      | parentDir => exact .inl (List.dropLast_subset _ h)
      | normal last =>
        rcases List.mem_append.mp h with h | h
        · exact .inl h
        · rw [List.mem_singleton.mp h]
          exact .inr List.mem_cons_self
    · exact .inr (List.mem_cons_of_mem _ h)

theorem mem_joined {c : UInt8} (h : c ∈ joined names) : c = slash ∨ ∃ name ∈ names, c ∈ name := by
  induction names with
  | nil => exact absurd h List.not_mem_nil
  | cons name names ih =>
    cases names with
    | nil =>
      rw [joined, List.intercalate_singleton] at h
      exact .inr ⟨name, List.mem_cons_self, h⟩
    | cons second names =>
      rw [joined, List.intercalate_cons_cons, List.append_assoc, List.mem_append,
        List.mem_append, List.mem_singleton] at h
      rcases h with h | h | h
      · exact .inr ⟨name, List.mem_cons_self, h⟩
      · exact .inl h
      · rcases ih h with h | ⟨other, hother, h⟩
        · exact .inl h
        · exact .inr ⟨other, List.mem_cons_of_mem _ hother, h⟩

/-- Normalizing brings in no byte but separators. -/
theorem mem_of_mem_normalizeAbsolute {c : UInt8} (habs : isAbsolute real) (hc : c ≠ slash)
    (h : c ∈ normalizeAbsolute real) : c ∈ real := by
  rw [(normalizeAbsolute_eq habs).1, atRoot] at h
  have h := (List.mem_cons.mp h).resolve_left hc
  obtain ⟨name, hname, hmem⟩ := (mem_joined h).resolve_left hc
  have hname := (mem_foldl_keep hname).resolve_left List.not_mem_nil
  exact mem_of_mem_splitOn (normal_mem_inner hname).1 hmem

/-! ### Resolving -/

theorem resolvePath_of_full {out : Bytes} (hfull : host.full real = .ok out)
    (habs : isAbsolute out) :
    resolvePath host (.ofBytes real) = .ok (normalizeAbsolute out) := by
  have hreal : (PathString.ofBytes real).toBytes = .ok real := unescape_escape real
  have hout : makeAbsolute host out = .ok out := if_pos habs
  rw [resolvePath, hreal]
  simp only [bind, Except.bind, mapError_ok, hfull, hout]
  rfl

theorem resolvePath_of_refused {message : Text} (hfull : host.full real = .error message) :
    resolvePath host (.ofBytes real) = .error ⟨.invalidArgument, message⟩ := by
  have hreal : (PathString.ofBytes real).toBytes = .ok real := unescape_escape real
  rw [resolvePath, hreal]
  simp only [bind, Except.bind, mapError_ok, mapError_error, hfull]

theorem isAbsolute_makeAbsolute {expanded : Bytes} (h : makeAbsolute host expanded = .ok real) :
    isAbsolute real := by
  unfold makeAbsolute at h
  split at h
  · next habs =>
    cases h
    exact habs
  · obtain ⟨dir, hdir, h⟩ := bind_eq_ok h
    cases h
    exact isAbsolute_join (host.isAbsolute_currentDir dir (mapError_eq_ok.mp hdir))

/-- A path is resolved to one at the root with only names in it. -/
theorem isNormal_of_resolvePath (h : resolvePath host path = .ok q) : IsNormal q := by
  obtain ⟨real, -, h⟩ := bind_eq_ok h
  obtain ⟨expanded, -, h⟩ := bind_eq_ok h
  obtain ⟨absolute, habs, h⟩ := bind_eq_ok h
  cases h
  exact isNormal_normalizeAbsolute (isAbsolute_makeAbsolute habs)

theorem IsNormal.isAbsolute (h : IsNormal q) : isAbsolute q := by
  obtain ⟨names, -, rfl⟩ := h
  exact isAbsolute_atRoot

theorem IsNormal.join (h : IsNormal root) (hname : IsFileName name) :
    IsNormal (join root name) := by
  obtain ⟨names, hnames, rfl⟩ := h
  refine ⟨names ++ [name], ?_, join_atRoot hnames hname⟩
  intro other hother
  rcases List.mem_append.mp hother with hother | hother
  · exact hnames other hother
  · rw [List.mem_singleton.mp hother]
    exact hname

/-- The client joins what it was told the directory resolves to and the listed name. -/
theorem join_ofBytes (h : IsNormal root) (hname : IsFileName name) :
    (PathString.ofBytes root).join (.ofBytes name) = .ofBytes (join root name) := by
  obtain ⟨names, -, rfl⟩ := h
  have hne : atRoot names ≠ [] := List.cons_ne_nil _ _
  rw [ofBytes_join hne, Path.join, if_neg (not_isAbsolute_of_isFileName hname)]
  simp only [hne, false_or]

/-- **A normal path without a reference stays as it is.** -/
theorem resolvePath_of_isNormal (hexp : Expands host) (h : IsNormal q)
    (hnone : hasReference q = false) : resolvePath host (.ofBytes q) = .ok q := by
  rw [resolvePath_of_full (hexp.unchanged q h.isAbsolute hnone) h.isAbsolute,
    normalizeAbsolute_of_isNormal h]

/-- Where the values have no `$`, no `$` is left. -/
theorem dollar_notMem_of_resolvePath (hexp : Expands host)
    (hvar : ∀ name value, host.var name = some value → dollar ∉ value) (h : IsNormal q)
    (hplain : Plain q) (hresolve : resolvePath host (.ofBytes q) = .ok real) : dollar ∉ real := by
  have habs := h.isAbsolute
  cases hfull : host.full q with
  | error message =>
    rw [resolvePath_of_refused hfull] at hresolve
    cases hresolve
  | ok out =>
    have hout : substituted host.var q = some out := by
      rw [← hexp.expanded q habs hplain, hfull]
      rfl
    have hdollar : dollar ∉ out := dollar_notMem_of_substituted hvar hout
    obtain ⟨rest, rfl⟩ := isAbsolute_iff.mp habs
    have hroot : isAbsolute out := by
      rw [isAbsolute, head?_of_substituted (by decide) hout]
      decide
    rw [resolvePath_of_full hfull hroot] at hresolve
    cases hresolve
    exact fun hmem => hdollar (mem_of_mem_normalizeAbsolute hroot (by decide) hmem)

theorem resolvePath_iff (hexp : Expands host)
    (hvar : ∀ name value, host.var name = some value → dollar ∉ value) (h : IsNormal q)
    (hplain : Plain q) :
    resolvePath host (.ofBytes q) = .ok q ↔ hasReference q = false :=
  ⟨fun hself => not_hasReference_of_notMem (dollar_notMem_of_resolvePath hexp hvar h hplain hself),
    resolvePath_of_isNormal hexp h⟩

theorem copySource_of_isNormal (hexp : Expands host) (h : IsNormal q)
    (hnone : hasReference q = false) : copySource host (.ofBytes q) = .ok q := by
  have hself := resolvePath_of_isNormal hexp h hnone
  rw [copySource, hself]
  exact hself

/-- Nothing that a copy resolves first spells the reference again. -/
theorem copySource_iff (hexp : Expands host)
    (hvar : ∀ name value, host.var name = some value → dollar ∉ value) (h : IsNormal q)
    (hplain : Plain q) :
    copySource host (.ofBytes q) = .ok q ↔ hasReference q = false := by
  refine ⟨fun hcopy => ?_, copySource_of_isNormal hexp h⟩
  obtain ⟨real, hreal, hcopy⟩ := bind_eq_ok hcopy
  have hnone := not_hasReference_of_notMem (dollar_notMem_of_resolvePath hexp hvar h hplain hreal)
  rw [resolvePath_of_isNormal hexp (isNormal_of_resolvePath hreal) hnone] at hcopy
  cases hcopy
  exact hnone

/-- **Resolved paths stay resolved where they hold no reference.**  What a path resolves to
resolves to itself, and the path of a listed entry to the entry, also when a copy resolves it
twice, where no `$` of it begins a reference.  Where every `$` of it is the beginning of a
reference and no value has a `$`, that is where alone. -/
theorem resolved_paths_stay (hexp : Expands host) :
    (∀ path q, resolvePath host path = .ok q →
      (hasReference q = false → resolvePath host (.ofBytes q) = .ok q) ∧
      ((∀ name value, host.var name = some value → dollar ∉ value) → Plain q →
        (resolvePath host (.ofBytes q) = .ok q ↔ hasReference q = false))) ∧
    ∀ path root name, resolvePath host path = .ok root → IsFileName name →
      (hasReference (join root name) = false →
        resolvePath host ((PathString.ofBytes root).join (.ofBytes name)) =
          .ok (join root name) ∧
        copySource host ((PathString.ofBytes root).join (.ofBytes name)) =
          .ok (join root name)) ∧
      ((∀ name value, host.var name = some value → dollar ∉ value) → Plain (join root name) →
        (resolvePath host ((PathString.ofBytes root).join (.ofBytes name)) =
          .ok (join root name) ↔ hasReference (join root name) = false) ∧
        (copySource host ((PathString.ofBytes root).join (.ofBytes name)) =
          .ok (join root name) ↔ hasReference (join root name) = false)) := by
  refine ⟨fun path q hq => ?_, fun path root name hroot hname => ?_⟩
  · have hnormal := isNormal_of_resolvePath hq
    exact ⟨resolvePath_of_isNormal hexp hnormal,
      fun hvar hplain => resolvePath_iff hexp hvar hnormal hplain⟩
  · have hnormal := (isNormal_of_resolvePath hroot).join hname
    rw [join_ofBytes (isNormal_of_resolvePath hroot) hname]
    exact ⟨fun hnone => ⟨resolvePath_of_isNormal hexp hnormal hnone,
        copySource_of_isNormal hexp hnormal hnone⟩,
      fun hvar hplain => ⟨resolvePath_iff hexp hvar hnormal hplain,
        copySource_iff hexp hvar hnormal hplain⟩⟩

/-! ### A name that is expanded -/

theorem isAbsolute_of_root {dir : Bytes} (h : (.ok [slash] : Except IoError Bytes) = .ok dir) :
    isAbsolute dir := by
  cases h
  rfl

/-- A host that puts in the values where every `$` begins a reference. -/
def expandingHost (var : Bytes → Option Bytes) : Host where
  var
  full path :=
    if Plain path then
      match substituted var path with
      | some out => .ok out
      | none => .error "environment variable not found".toList
    else .ok path
  currentDir := .ok [slash]
  isAbsolute_currentDir _ := isAbsolute_of_root

theorem expands_expandingHost (var : Bytes → Option Bytes) : Expands (expandingHost var) where
  unchanged := by
    intro path _ hnone
    show (if Plain path then _ else _) = _
    split
    · next hplain =>
      have hmem : dollar ∉ path := fun hmem => by
        rw [hasReference_of_plain hplain hmem] at hnone
        cases hnone
      rw [substituted_of_notMem hmem]
    · rfl
  expanded := by
    intro path _ hplain
    show Except.toOption (if Plain path then _ else _) = substituted var path
    rw [if_pos hplain]
    cases substituted var path with
    | none => rfl
    | some out => rfl

/-- `A=b`. -/
def someVar (name : Bytes) : Option Bytes := if name = [0x41] then some [0x62] else none

/-- `/d`. -/
def someDirectory : Bytes := [slash, 0x64]

theorem resolves_someDirectory :
    resolvePath (expandingHost someVar) (.ofBytes someDirectory) = .ok someDirectory :=
  resolvePath_of_isNormal (expands_expandingHost someVar) ⟨[[0x64]], by decide, rfl⟩ (by decide)

/-- `/d/5$` holds no reference, and `/d/$A` does. -/
theorem price_stays_resolved :
    resolvePath (expandingHost someVar)
        ((PathString.ofBytes someDirectory).join (.ofBytes [0x35, dollar])) =
      .ok (join someDirectory [0x35, dollar]) ∧
    copySource (expandingHost someVar)
        ((PathString.ofBytes someDirectory).join (.ofBytes [dollar, 0x41])) ≠
      .ok (join someDirectory [dollar, 0x41]) := by
  have hstay := fun name => (resolved_paths_stay (expands_expandingHost someVar)).2 _ _ name
    resolves_someDirectory
  have hvalue : ∀ name value, someVar name = some value → dollar ∉ value := by
    intro name value h
    unfold someVar at h
    split at h
    · cases h
      decide
    · cases h
  refine ⟨((hstay [0x35, dollar] (by decide)).1 (by decide)).1, fun hcopy => ?_⟩
  have hnone := (((hstay [dollar, 0x41] (by decide)).2 hvalue (by decide)).2).mp hcopy
  exact absurd hnone (by decide)

/-- The listed file `$A` is opened as `b`. -/
theorem dollar_name_is_expanded :
    resolvePath (expandingHost someVar)
        ((PathString.ofBytes someDirectory).join (.ofBytes [dollar, 0x41])) =
      .ok (join someDirectory [0x62]) ∧
    ¬ ∀ host : Host, Expands host →
      (∀ path q, resolvePath host path = .ok q → resolvePath host (.ofBytes q) = .ok q) ∧
      ∀ path root name, resolvePath host path = .ok root → IsFileName name →
        resolvePath host ((PathString.ofBytes root).join (.ofBytes name)) =
          .ok (join root name) := by
  have hopened : resolvePath (expandingHost someVar)
      ((PathString.ofBytes someDirectory).join (.ofBytes [dollar, 0x41])) =
        .ok (join someDirectory [0x62]) := by
    rw [ofBytes_join (by decide)]
    have hfull : (expandingHost someVar).full (someDirectory ++ slash :: [dollar, 0x41]) =
        .ok (someDirectory ++ slash :: [0x62]) := by decide
    exact resolvePath_of_full hfull (by decide)
  refine ⟨hopened, fun h => ?_⟩
  have hlisted := (h _ (expands_expandingHost someVar)).2 _ _ [dollar, 0x41]
    resolves_someDirectory (by decide)
  rw [hopened] at hlisted
  exact absurd (Except.ok.inj hlisted) (by decide)

end FilePeeker.Fs
