import FilePeeker.Browser.Filter
import FilePeeker.Browser.Prompt

/-!
# Completing the query

`complete_filter` puts the longest text that all the matching names begin with in place of
the query.  A match is a substring, so that text need not hold what was typed: with `c`
typed, `abc` and `abdc` are completed to `ab`, which is no match of the one typed, and has
matches that it had not.

`completion_keeps_iff` says when it is right: when what was typed is in the common start
itself, and lower case does to the start what it does to it within the names.
-/

namespace FilePeeker.Browser

variable {μ : Type}

/-! ### What names begin with -/

/-- The longest text that all the names begin with. -/
structure LongestStart (names : List Text) (start : Text) : Prop where
  begins : ∀ name ∈ names, start <+: name
  longest : ∀ other : Text, (∀ name ∈ names, other <+: name) → other <+: start

section Starts

variable {names : List Text} {name other start start' : Text}

theorem LongestStart.unique (h : LongestStart names start) (h' : LongestStart names start') :
    start = start' :=
  (h'.longest start h.begins).eq_of_length_le (h.longest start' h'.begins).length_le

namespace BrowserContext

theorem commonStart_le : ∀ name other : Text,
    commonStart name other <+: name ∧ commonStart name other <+: other := by
  intro name
  induction name with
  | nil =>
    intro other
    exact ⟨List.nil_prefix, List.nil_prefix⟩
  | cons a name ih =>
    intro other
    cases other with
    | nil => exact ⟨List.nil_prefix, List.nil_prefix⟩
    | cons b other =>
      rw [commonStart]
      split
      · next hab =>
        subst hab
        exact ⟨List.cons_prefix_cons.mpr ⟨rfl, (ih other).1⟩,
          List.cons_prefix_cons.mpr ⟨rfl, (ih other).2⟩⟩
      · exact ⟨List.nil_prefix, List.nil_prefix⟩

theorem le_commonStart : ∀ {start name other : Text}, start <+: name → start <+: other →
    start <+: commonStart name other := by
  intro start
  induction start with
  | nil =>
    intro name other _ _
    exact List.nil_prefix
  | cons a start ih =>
    intro name other hname hother
    obtain ⟨name, rfl⟩ := hname
    obtain ⟨other, rfl⟩ := hother
    rw [List.cons_append, List.cons_append, commonStart, if_pos rfl]
    exact List.cons_prefix_cons.mpr ⟨rfl, ih (List.prefix_append _ _) (List.prefix_append _ _)⟩

theorem longestStart_cons (h : LongestStart (commonStart name other :: names) start) :
    LongestStart (name :: other :: names) start where
  begins := by
    intro n hn
    have hle := commonStart_le name other
    rcases List.mem_cons.mp hn with rfl | hn
    · exact (h.begins _ List.mem_cons_self).trans hle.1
    rcases List.mem_cons.mp hn with rfl | hn
    · exact (h.begins _ List.mem_cons_self).trans hle.2
    · exact h.begins n (List.mem_cons_of_mem _ hn)
  longest := by
    intro p hp
    refine h.longest p fun n hn => ?_
    rcases List.mem_cons.mp hn with rfl | hn
    · exact le_commonStart (hp name (by simp)) (hp other (by simp))
    · exact hp n (by simp [hn])

/-- The loop finds the longest common start, and gives up where that is empty. -/
theorem completionOf_spec : ∀ (names : List Text) (name : Text), ∃ start,
    LongestStart (name :: names) start ∧
      (completionOf name names = some start ∨ completionOf name names = none ∧ start = []) := by
  intro names
  induction names with
  | nil =>
    intro name
    refine ⟨name, ⟨fun n hn => ?_, fun p hp => hp name List.mem_cons_self⟩, .inl rfl⟩
    rw [List.mem_singleton.mp hn]
  | cons other names ih =>
    intro name
    rw [completionOf]
    by_cases hempty : commonStart name other = []
    · rw [if_pos hempty]
      refine ⟨[], ⟨fun _ _ => List.nil_prefix, fun p hp => ?_⟩, .inr ⟨rfl, rfl⟩⟩
      exact hempty ▸ le_commonStart (hp name (by simp)) (hp other (by simp))
    · rw [if_neg hempty]
      obtain ⟨start, hstart, hfound⟩ := ih (commonStart name other)
      exact ⟨start, longestStart_cons hstart, hfound⟩

end BrowserContext

end Starts

section Prompt

variable [Lowercase]

/-- The names that the prompt matches. -/
def matchingNames (t : Tree μ) (query : Text) (scope : Option PathString) : List Text :=
  (t.rows.filter (Tree.isHit (Tree.needleOf query) scope)).map fun row => row.entry.name.display

namespace BrowserContext

variable {c : BrowserContext μ} {filter : Filter}

theorem names_eq (t : Tree μ) {query : Text} (hquery : query ≠ []) (scope : Option PathString) :
    ((t.rows.filter fun row => scope ≠ some row.path && inScope row.path scope).map
      fun row => row.entry.name.display).filter
        (fun name => matchesNeedle name (Lowercase.toLowercase query)) =
      matchingNames t query scope := by
  rw [matchingNames, List.filter_map, List.filter_filter]
  congr 1
  refine List.filter_congr fun row _ => ?_
  simp only [Tree.isHit, Tree.needleOf, if_neg hquery, Function.comp, ne_eq, decide_not,
    Bool.and_comm (matchesNeedle _ _)]

/-- What Tab does: nothing where the names have no longer start in common. -/
theorem completeFilter_spec (h : c.filter = some filter) (hquery : filter.displayed ≠ [])
    (hhit : matchingNames c.tree filter.displayed filter.scope ≠ []) :
    ∃ start, LongestStart (matchingNames c.tree filter.displayed filter.scope) start ∧
      c.completeFilter =
        if filter.displayed.length < start.length then
          ({ c with filter := some { filter.adoptFilled with query := start } } :
            BrowserContext μ).followFilter
        else { c with filter := some filter.adoptFilled } := by
  have hscope : filter.adoptFilled.scope = filter.scope := rfl
  have htext : filter.adoptFilled.query = filter.displayed := rfl
  unfold completeFilter
  simp only [h, hscope, htext]
  rw [names_eq c.tree hquery filter.scope]
  generalize matchingNames c.tree filter.displayed filter.scope = names at hhit
  rw [if_neg hquery]
  obtain ⟨first, others, rfl⟩ := List.exists_cons_of_ne_nil hhit
  obtain ⟨start, hstart, hfound | ⟨hnone, rfl⟩⟩ := completionOf_spec others first
  · refine ⟨start, hstart, ?_⟩
    simp only [hfound]
    by_cases hlonger : filter.displayed.length < start.length
    · rw [if_pos hlonger, if_neg (by omega)]
      rfl
    · rw [if_neg hlonger, if_pos (by omega)]
  · refine ⟨[], hstart, ?_⟩
    simp only [hnone]
    exact (if_neg (Nat.not_lt_zero _)).symm

/-- There is nothing to complete. -/
theorem completeFilter_nil (h : c.filter = some filter) (hquery : filter.displayed = []) :
    c.completeFilter = { c with filter := some filter.adoptFilled } := by
  unfold completeFilter
  simp only [h]
  exact if_pos hquery

end BrowserContext

theorem mem_matchingNames {t : Tree μ} {query name : Text} {scope : Option PathString} :
    name ∈ matchingNames t query scope ↔ ∃ row ∈ t.rows,
      Tree.isHit (Tree.needleOf query) scope row ∧ row.entry.name.display = name := by
  simp only [matchingNames, List.mem_map, List.mem_filter, and_assoc]

/-! ### What completing keeps -/

/-- Whether two queries have the same hits. -/
def SameHits (t : Tree μ) (query query' : Text) (scope : Option PathString) : Prop :=
  ∀ i, t.hitAt (Tree.needleOf query') scope i = t.hitAt (Tree.needleOf query) scope i

theorem sameHits_iff {t : Tree μ} {query query' : Text} {scope : Option PathString} :
    SameHits t query query' scope ↔ ∀ row ∈ t.rows,
      Tree.isHit (Tree.needleOf query') scope row = Tree.isHit (Tree.needleOf query) scope row := by
  constructor
  · intro h row hrow
    obtain ⟨i, hi⟩ := List.getElem?_of_mem hrow
    have hat := h i
    rwa [Tree.hitAt, Tree.hitAt, hi] at hat
  · intro h i
    rw [Tree.hitAt, Tree.hitAt]
    cases hi : t.rows[i]? with
    | none => rfl
    | some row => exact h row (List.mem_of_getElem? hi)

theorem SameHits.matchingNames {t : Tree μ} {query query' : Text} {scope : Option PathString}
    (h : SameHits t query query' scope) :
    matchingNames t query' scope = matchingNames t query scope := by
  rw [Browser.matchingNames, Browser.matchingNames]
  congr 1
  exact List.filter_congr fun row hrow => sameHits_iff.mp h row hrow

/-- The needles that are not empty are searched for in the name. -/
theorem isHit_needleOf {query : Text} (hquery : query ≠ []) {scope : Option PathString}
    {row : Row μ} : Tree.isHit (Tree.needleOf query) scope row ↔
      (scope ≠ some row.path ∧ inScope row.path scope) ∧
        Lowercase.toLowercase query <:+: Lowercase.toLowercase row.entry.name.display := by
  rw [Tree.needleOf, if_neg hquery, Tree.isHit, matchesNeedle]
  simp

/-- A text that holds the query, and that each match holds, matches what the query does. -/
theorem sameHits_of_holds (t : Tree μ) (scope : Option PathString) {query start : Text}
    (hquery : query ≠ []) (hstart : start ≠ []) :
    (SameHits t query start scope ∧ Lowercase.toLowercase query <:+: Lowercase.toLowercase start) ↔
      Lowercase.toLowercase query <:+: Lowercase.toLowercase start ∧
        ∀ name ∈ matchingNames t query scope,
          Lowercase.toLowercase start <:+: Lowercase.toLowercase name := by
  rw [and_comm, and_congr_right_iff]
  intro hholds
  rw [sameHits_iff]
  constructor
  · intro hsame name hname
    obtain ⟨row, hrow, hhit, rfl⟩ := mem_matchingNames.mp hname
    rw [← hsame row hrow, isHit_needleOf hstart] at hhit
    exact hhit.2
  · intro hnames row hrow
    rw [Bool.eq_iff_iff]
    constructor
    · intro hhit
      rw [isHit_needleOf hstart] at hhit
      exact (isHit_needleOf hquery).mpr ⟨hhit.1, hholds.trans hhit.2⟩
    · intro hhit
      have hname := hnames _ (mem_matchingNames.mpr ⟨row, hrow, hhit, rfl⟩)
      exact (isHit_needleOf hstart).mpr ⟨((isHit_needleOf hquery).mp hhit).1, hname⟩

/-- What Tab keeps: the query holds what was typed, it has the same hits, and a second Tab
changes nothing. -/
structure CompletionKeeps (c c' : BrowserContext μ) (filter : Filter) : Prop where
  holds : ∃ filter', c'.filter = some filter' ∧ filter'.scope = filter.scope ∧
    Lowercase.toLowercase filter.displayed <:+: Lowercase.toLowercase filter'.query ∧
    SameHits c.tree filter.displayed filter'.query filter.scope
  rows : c'.tree.rows = c.tree.rows
  again : c'.completeFilter = c'

/-- If the matching names begin with a text that is longer than the query, then that text
holds the query, and in lower case each of the names holds it. -/
def CompletesWithin (t : Tree μ) (query : Text) (scope : Option PathString) : Prop :=
  query ≠ [] → ∀ start, LongestStart (matchingNames t query scope) start →
    query.length < start.length →
    Lowercase.toLowercase query <:+: Lowercase.toLowercase start ∧
      ∀ name ∈ matchingNames t query scope,
        Lowercase.toLowercase start <:+: Lowercase.toLowercase name

section Tab

variable {c : BrowserContext μ} {filter : Filter}

/-- Tab changes nothing where nothing longer is common to the names. -/
theorem completeFilter_self (h : c.filter = some filter) (hadopt : filter.adoptFilled = filter)
    (hlongest : filter.displayed ≠ [] →
      matchingNames c.tree filter.displayed filter.scope ≠ [] ∧
        ∀ start, LongestStart (matchingNames c.tree filter.displayed filter.scope) start →
          start.length ≤ filter.displayed.length) : c.completeFilter = c := by
  have hsame : ({ c with filter := some filter.adoptFilled } : BrowserContext μ) = c := by
    rw [hadopt, ← h]
  by_cases hquery : filter.displayed = []
  · rw [BrowserContext.completeFilter_nil h hquery, hsame]
  · obtain ⟨hhit, hlongest⟩ := hlongest hquery
    obtain ⟨start, hstart, hcomplete⟩ := BrowserContext.completeFilter_spec h hquery hhit
    have hle := hlongest start hstart
    rw [hcomplete, if_neg (by omega), hsame]

/-- Where nothing longer is common to the names, Tab keeps all that it should. -/
theorem keeps_of_adopted (hlongest : filter.displayed ≠ [] →
      matchingNames c.tree filter.displayed filter.scope ≠ [] ∧
        ∀ start, LongestStart (matchingNames c.tree filter.displayed filter.scope) start →
          start.length ≤ filter.displayed.length) :
    CompletionKeeps c { c with filter := some filter.adoptFilled } filter where
  holds := ⟨filter.adoptFilled, rfl, rfl, List.infix_rfl, fun _ => rfl⟩
  rows := rfl
  again := completeFilter_self rfl rfl hlongest

/-- **Completion keeps what matches exactly if** the query is in the text that the matches
begin with, or no text that is longer begins them all. -/
theorem completion_keeps_iff (h : c.filter = some filter)
    (hhit : ∃ i, c.tree.hitAt (Tree.needleOf filter.displayed) filter.scope i) :
    CompletionKeeps c c.completeFilter filter ↔
      CompletesWithin c.tree filter.displayed filter.scope := by
  by_cases hquery : filter.displayed = []
  · rw [BrowserContext.completeFilter_nil h hquery]
    exact iff_of_true (keeps_of_adopted fun hne => absurd hquery hne) fun hne => absurd hquery hne
  have hnames : matchingNames c.tree filter.displayed filter.scope ≠ [] := by
    obtain ⟨i, hi⟩ := hhit
    obtain ⟨row, hrow, hrowhit⟩ := (Option.any_eq_true _ _).mp hi
    exact List.ne_nil_of_mem
      (mem_matchingNames.mpr ⟨row, List.mem_of_getElem? hrow, hrowhit, rfl⟩)
  obtain ⟨start, hstart, hcomplete⟩ := BrowserContext.completeFilter_spec h hquery hnames
  rw [hcomplete]
  by_cases hlonger : filter.displayed.length < start.length
  · rw [if_pos hlonger]
    have hne : start ≠ [] := by
      intro hnil
      rw [hnil] at hlonger
      exact Nat.not_lt_zero _ hlonger
    have hsame := sameHits_of_holds c.tree filter.scope hquery hne
    constructor
    · rintro ⟨⟨filter', hfilter', -, hholds, hhits⟩, -, -⟩ - start' hstart' -
      rw [BrowserContext.followFilter_filter] at hfilter'
      obtain rfl := Option.some.inj hfilter'
      rw [hstart'.unique hstart]
      exact hsame.mp ⟨hhits, hholds⟩
    · intro hwithin
      obtain ⟨hhits, hholds⟩ := hsame.mpr (hwithin hquery start hstart hlonger)
      have hfilter := BrowserContext.followFilter_filter
        ({ c with filter := some { filter.adoptFilled with query := start } } : BrowserContext μ)
      refine ⟨⟨_, hfilter, rfl, hholds, hhits⟩, BrowserContext.followFilter_rows _, ?_⟩
      refine completeFilter_self hfilter rfl fun _ => ?_
      have hagain : matchingNames
          ({ c with filter := some { filter.adoptFilled with query := start } } :
            BrowserContext μ).followFilter.tree start filter.scope =
          matchingNames c.tree filter.displayed filter.scope := by
        rw [← hhits.matchingNames, matchingNames, BrowserContext.followFilter_rows, matchingNames]
      show matchingNames _ start filter.scope ≠ [] ∧ ∀ start', LongestStart
        (matchingNames _ start filter.scope) start' → start'.length ≤ start.length
      rw [hagain]
      exact ⟨hnames, fun start' hstart' => (hstart'.unique hstart) ▸ Nat.le_refl _⟩
  · rw [if_neg hlonger]
    refine iff_of_true (keeps_of_adopted fun _ => ⟨hnames, fun start' hstart' => ?_⟩) ?_
    · rw [hstart'.unique hstart]
      omega
    · intro _ start' hstart' hlonger'
      rw [hstart'.unique hstart] at hlonger'
      exact absurd hlonger' hlonger

end Tab

end Prompt

section Typed

attribute [local instance] asciiLowercase

/-- Files of these names, and a prompt with the text typed in it. -/
def typedOver (names : List Bytes) (text : Text) : BrowserContext Unit :=
  text.foldl BrowserContext.extendFilter
    (BrowserContext.applyRootListing (.new 0 (letters [0x72]))
      (.entries (names.map fun name => entryNamed (letters name) false))).beginFilter

/-- The prompt with the text, and the row that was selected before. -/
def typing (text : Text) (restorePath : PathString) : Filter :=
  { query := text, filled := none, warning := none, descents := [], restorePath }

/-- `a` over `ab` and `abc`. -/
def beforeTab : BrowserContext Unit := typedOver [[0x61, 0x62], [0x61, 0x62, 0x63]] ['a']

theorem beforeTab_keeps : beforeTab.completeFilter.filter.map Filter.query = some ['a', 'b'] ∧
    CompletionKeeps beforeTab beforeTab.completeFilter
      (typing ['a'] (letters [0x72, 0x2f, 0x61, 0x62])) := by
  refine ⟨by decide +kernel,
    (completion_keeps_iff (by decide +kernel) ⟨0, by decide +kernel⟩).mpr ?_⟩
  have hnames : matchingNames beforeTab.tree ['a'] none = [['a', 'b'], ['a', 'b', 'c']] := by
    decide +kernel
  have hab : LongestStart [['a', 'b'], ['a', 'b', 'c']] ['a', 'b'] :=
    ⟨by decide, fun other hother => hother _ List.mem_cons_self⟩
  show CompletesWithin beforeTab.tree ['a'] none
  intro _ start hstart _
  rw [hnames] at hstart ⊢
  rw [hstart.unique hab]
  decide

/-- `c` over `abc`, `abdc` and `abz`. -/
def beforeLoss : BrowserContext Unit :=
  typedOver [[0x61, 0x62, 0x63], [0x61, 0x62, 0x64, 0x63], [0x61, 0x62, 0x7a]] ['c']

/-- Tab puts `ab` in the prompt, which is without the `c`. -/
theorem beforeLoss_loses : ¬ ∀ (c : BrowserContext Unit) (filter : Filter),
    c.filter = some filter →
    (∃ i, c.tree.hitAt (Tree.needleOf filter.displayed) filter.scope i) →
    CompletionKeeps c c.completeFilter filter := by
  intro hall
  obtain ⟨⟨filter, hfilter, -, hholds, -⟩, -, -⟩ := hall beforeLoss
    (typing ['c'] (letters [0x72, 0x2f, 0x61, 0x62, 0x63])) (by decide +kernel)
    ⟨0, by decide +kernel⟩
  have hquery : beforeLoss.completeFilter.filter.map Filter.query = some ['a', 'b'] := by
    decide +kernel
  rw [hfilter] at hquery
  rw [Option.some.inj hquery] at hholds
  exact absurd hholds (by decide)

end Typed

end FilePeeker.Browser
