import FilePeeker.Browser.Moves
import FilePeeker.Browser.Refines

/-!
# The filter prompt, a keystroke at a time

`Prompt` is what the filter prompt is for a person who types in it: the text, and the
directories stepped into with the text that was spent on each.  A keystroke puts
something at the end of it and backspace takes it away again: `shorten` is the inverse
of `extend` and of `descend`.

The browser's prompt is one (`prompt_extendFilter`, `prompt_descendFilter`,
`prompt_shortenFilter`), so as many backspaces as keystrokes undo them
(`backspace_undoes`).
-/

namespace FilePeeker.Browser

variable {μ : Type}

/-- What is typed, and what was typed before each descent. -/
structure Prompt where
  descents : List Descent
  text : Text
deriving DecidableEq

namespace Prompt

variable {p p' : Prompt}

def extend (p : Prompt) (character : Char) : Prompt := { p with text := p.text ++ [character] }

/-- Steps into a directory, which the text is spent on. -/
def descend (p : Prompt) (path : PathString) (opened : Bool) : Prompt :=
  { descents := p.descents ++ [{ path, query := p.text, opened }], text := [] }

/-- Backspace; none where it closes the prompt. -/
def shorten (p : Prompt) : Option Prompt :=
  if p.text ≠ [] then some { p with text := p.text.dropLast }
  else p.descents.getLast?.map fun descent =>
    { descents := p.descents.dropLast, text := descent.query }

/-- All that was typed, with a `/` for each descent. -/
def line (p : Prompt) : Text :=
  (p.descents.flatMap fun descent => descent.query ++ ['/']) ++ p.text

@[simp] theorem shorten_extend (p : Prompt) (character : Char) :
    (p.extend character).shorten = some p := by
  simp [shorten, extend]

@[simp] theorem shorten_descend (p : Prompt) (path : PathString) (opened : Bool) :
    (p.descend path opened).shorten = some p := by
  simp [shorten, descend]

@[simp] theorem line_extend (p : Prompt) (character : Char) :
    (p.extend character).line = p.line ++ [character] := by
  simp [line, extend]

@[simp] theorem line_descend (p : Prompt) (path : PathString) (opened : Bool) :
    (p.descend path opened).line = p.line ++ ['/'] := by
  simp [line, descend]

/-- A prompt that is not empty is what one keystroke made of another. -/
theorem cases_last (p : Prompt) : p = ⟨[], []⟩ ∨
    (∃ (q : Prompt) (character : Char), p = q.extend character) ∨
    ∃ (q : Prompt) (path : PathString) (opened : Bool), p = q.descend path opened := by
  obtain ⟨descents, text⟩ := p
  rcases List.eq_nil_or_concat text with rfl | ⟨text, character, rfl⟩
  · rcases List.eq_nil_or_concat descents with rfl | ⟨descents, descent, rfl⟩
    · exact .inl rfl
    · exact .inr (.inr ⟨⟨descents, descent.query⟩, descent.path, descent.opened, by simp [descend]⟩)
  · exact .inr (.inl ⟨⟨descents, text⟩, character, by simp [extend]⟩)

/-- **Backspace takes the last character of the line away**, and closes the prompt where
there is none. -/
theorem line_shorten (p : Prompt) : p.shorten.map line =
    if p.line = [] then none else some p.line.dropLast := by
  rcases p.cases_last with rfl | ⟨q, character, rfl⟩ | ⟨q, path, opened, rfl⟩
  · rfl
  · simp
  · simp

end Prompt

def Filter.prompt (filter : Filter) : Prompt :=
  { descents := filter.descents, text := filter.displayed }

namespace BrowserContext

variable {c c' : BrowserContext μ} {filter : Filter}

/-- The prompt, if it is open. -/
def prompt (c : BrowserContext μ) : Option Prompt := c.filter.map Filter.prompt

/-! ### Directories that close again -/

theorem abortListings_keeps (c : BrowserContext μ) (requestIds : List RequestId) :
    (c.abortListings requestIds).filter = c.filter ∧
      (c.abortListings requestIds).tree = c.tree := by
  induction requestIds generalizing c with
  | nil => exact ⟨rfl, rfl⟩
  | cons requestId requestIds ih =>
    rw [abortListings]
    split
    · exact ih c
    · exact ih _

theorem exists_collapse {i : Nat} {row : Row μ} (hi : c.tree.rows[i]? = some row) :
    ∃ c', c.collapseDirectory i = some c' ∧ c'.filter = c.filter ∧
      c'.tree.rows[i]? = some { row with expansion := .collapsed } := by
  obtain ⟨stop, hstop, -⟩ := Tree.subtreeEnd_spec hi
  have hlt := (List.getElem?_eq_some_iff.mp hi).1
  simp only [collapseDirectory, Tree.collapse, hi, hstop, Option.bind_eq_bind, Option.bind_some,
    pure]
  refine ⟨_, rfl, (abortListings_keeps _ _).1, ?_⟩
  rw [(abortListings_keeps _ _).2]
  refine List.getElem?_set_self ?_
  show i < (c.tree.rows.take (i + 1) ++ c.tree.rows.drop stop).length
  rw [List.length_append, List.length_take]
  omega

theorem exists_closeDescent (c : BrowserContext μ) (descent : Descent) :
    ∃ c', c.closeDescent descent = some c' ∧ c'.filter = c.filter := by
  unfold closeDescent
  split
  · split
    · exact ⟨c, rfl, rfl⟩
    · next i hi =>
      obtain ⟨hlt, -⟩ := List.findIdx?_eq_some_iff_getElem.mp hi
      obtain ⟨c', hcollapse, hfilter, -⟩ := exists_collapse (List.getElem?_eq_getElem hlt)
      exact ⟨c', hcollapse, hfilter⟩
  · exact ⟨c, rfl, rfl⟩

theorem exists_closeDescents (c : BrowserContext μ) (descents : List Descent) :
    ∃ c', c.closeDescents descents = some c' ∧ c'.filter = c.filter := by
  induction descents generalizing c with
  | nil => exact ⟨c, rfl, rfl⟩
  | cons descent descents ih =>
    obtain ⟨c₁, h₁, hfilter₁⟩ := c.exists_closeDescent descent
    obtain ⟨c₂, h₂, hfilter₂⟩ := ih c₁
    exact ⟨c₂, by rw [closeDescents, h₁, Option.bind_some, h₂], hfilter₂.trans hfilter₁⟩

theorem exists_abandonFilter (h : c.filter = some filter) :
    ∃ c', c.abandonFilter = some c' ∧ c'.filter = none := by
  obtain ⟨c', hclose, hfilter⟩ :=
    ({ c with filter := none } : BrowserContext μ).exists_closeDescents filter.descents.reverse
  unfold abandonFilter
  simp only [h, hclose, Option.bind_eq_bind, Option.bind_some, pure]
  exact ⟨_, rfl, hfilter⟩

theorem prompt_of_query (hfilled : filter.filled = none) :
    filter.prompt = { descents := filter.descents, text := filter.query } := by
  rw [Filter.prompt, Filter.displayed, hfilled]
  rfl

theorem exists_startDirectoryListing {i : Nat} {row : Row μ} (hi : c.tree.rows[i]? = some row) :
    ∃ c', c.startDirectoryListing i = some c' ∧ c'.filter = c.filter := by
  obtain ⟨t', hbegin, -⟩ := Tree.beginExpansion_spec (wrappingSucc c.nextRequestId) hi
  simp only [startDirectoryListing, hi, hbegin, Option.bind_eq_bind, Option.bind_some, pure]
  exact ⟨_, rfl, rfl⟩

variable [Lowercase]

@[simp] theorem followFilter_filter (c : BrowserContext μ) : c.followFilter.filter = c.filter := by
  unfold followFilter
  dsimp only
  split <;> rfl

/-! ### The browser's prompt -/

theorem prompt_extendFilter (c : BrowserContext μ) (character : Char) :
    (c.extendFilter character).prompt = c.prompt.map (·.extend character) := by
  unfold extendFilter prompt
  cases h : c.filter with
  | none => simp [h]
  | some filter => simp [Filter.prompt, Filter.adoptFilled, Filter.displayed, Prompt.extend]

/-- The `/` steps into a directory. -/
def descends (c : BrowserContext μ) : Bool :=
  match c.filter with
  | none => false
  | some filter =>
    match c.descent filter with
    | .ok _ => true
    | .error _ => false

theorem descends_iff : c.descends ↔
    ∃ filter target, c.filter = some filter ∧ c.descent filter = .ok target := by
  unfold descends
  constructor
  · intro h
    split at h
    · cases h
    · next filter hfilter =>
      split at h
      · next target htarget => exact ⟨filter, target, hfilter, htarget⟩
      · cases h
  · rintro ⟨filter, target, hfilter, htarget⟩
    simp only [hfilter, htarget]

/-- The directory that the `/` steps into is a row. -/
theorem descent_row {index : Nat} {path : PathString} {closed : Bool}
    (h : c.descent filter = .ok (index, path, closed)) :
    ∃ row, c.tree.rows[index]? = some row ∧ row.path = path := by
  unfold descent at h
  split at h
  · cases h
  · split at h
    · cases h
    · next i row hrow =>
      obtain ⟨j, -, hj⟩ := Option.bind_eq_some_iff.mp hrow
      obtain ⟨row', hrow', heq⟩ := Option.map_eq_some_iff.mp hj
      obtain ⟨rfl, rfl⟩ := Prod.mk.inj heq
      split at h
      · obtain ⟨rfl, rfl, -⟩ : j = index ∧ row'.path = path ∧ _ := by
          simpa only [Except.ok.injEq, Prod.mk.injEq] using h
        exact ⟨row', hrow', rfl⟩
      · cases h

/-- A `/` that is refused leaves the prompt as it is, but for the warning. -/
theorem prompt_descendFilter_refused (h : ¬ c.descends) :
    ∃ c', c.descendFilter = some c' ∧ c'.prompt = c.prompt := by
  unfold descendFilter
  cases hfilter : c.filter with
  | none => exact ⟨c, rfl, rfl⟩
  | some filter =>
    cases hdescent : c.descent filter with
    | ok target => exact absurd (descends_iff.mpr ⟨filter, target, hfilter, hdescent⟩) h
    | error warning =>
      refine ⟨c.warnFilter warning, by simp only [hdescent], ?_⟩
      rw [warnFilter, prompt, prompt, hfilter]
      rfl

theorem prompt_descendFilter (h : c.descends) : ∃ c' path opened,
    c.descendFilter = some c' ∧ c'.prompt = c.prompt.map (·.descend path opened) := by
  obtain ⟨filter, ⟨index, path, closed⟩, hfilter, hdescent⟩ := descends_iff.mp h
  obtain ⟨row, hrow, -⟩ := descent_row hdescent
  obtain ⟨c₁, hstart, -⟩ : ∃ c₁, (if closed then c.startDirectoryListing index else some c) =
      some c₁ ∧ True := by
    split
    · obtain ⟨c₁, hstart, -⟩ := exists_startDirectoryListing hrow
      exact ⟨c₁, hstart, trivial⟩
    · exact ⟨c, rfl, trivial⟩
  unfold descendFilter
  simp only [hfilter, hdescent, hstart, Option.map_some]
  refine ⟨_, path, closed, rfl, ?_⟩
  rw [prompt, followFilter_filter, prompt, hfilter]
  rfl

theorem exists_ascendFilter {descent : Descent} (h : c.filter = some filter)
    (hlast : filter.descents.getLast? = some descent) : ∃ c', c.ascendFilter = some c' ∧
      c'.filter = some { filter with
        query := descent.query, descents := filter.descents.dropLast } := by
  obtain ⟨c₁, hclose, hfilter⟩ := ({ c with
    filter := some { filter with
      query := descent.query
      descents := filter.descents.dropLast } } : BrowserContext μ).exists_closeDescent descent
  unfold ascendFilter
  simp only [h, hlast, hclose, Option.bind_eq_bind, Option.bind_some, pure]
  exact ⟨_, rfl, (followFilter_filter c₁).trans hfilter⟩

@[simp] theorem followFilter_rows (c : BrowserContext μ) :
    c.followFilter.tree.rows = c.tree.rows := by
  unfold followFilter
  dsimp only
  split <;> rfl

/-- Backspace over the `/` of a descent closes what that opened. -/
theorem shortenFilter_closes {descent : Descent} {i : Nat} (h : c.filter = some filter)
    (htext : filter.displayed = []) (hlast : filter.descents.getLast? = some descent)
    (hopened : descent.opened)
    (hi : (c.tree.rows.findIdx? fun row => row.path = descent.path && row.entry.navigable) =
      some i) :
    ∃ c' row, c.shortenFilter = some c' ∧ c'.tree.rows[i]? = some row ∧
      row.path = descent.path ∧ row.expansion = .collapsed := by
  obtain ⟨hlt, hpath, -⟩ := List.findIdx?_eq_some_iff_getElem.mp hi
  rw [Bool.and_eq_true, decide_eq_true_eq] at hpath
  have hquery : filter.adoptFilled.query = [] := htext
  have hne : filter.adoptFilled.descents ≠ [] := by
    intro hnil
    rw [show filter.descents = [] from hnil] at hlast
    cases hlast
  have hlast' : filter.adoptFilled.descents.getLast? = some descent := hlast
  obtain ⟨c₁, hcollapse, -, hrow⟩ := exists_collapse (c := { c with
    filter := some { filter.adoptFilled with
      query := descent.query
      descents := filter.adoptFilled.descents.dropLast } }) (List.getElem?_eq_getElem hlt)
  refine ⟨c₁.followFilter, { c.tree.rows[i] with expansion := .collapsed }, ?_,
    by rw [followFilter_rows, hrow], hpath.1, rfl⟩
  unfold shortenFilter ascendFilter closeDescent
  simp only [h, hquery, hne, hlast', hopened, if_true, if_false, ne_eq, not_true, hi, hcollapse,
    Option.bind_eq_bind, Option.bind_some, pure]

theorem prompt_shortenFilter (c : BrowserContext μ) : ∃ c', c.shortenFilter = some c' ∧
    c'.prompt = c.prompt.bind Prompt.shorten := by
  unfold shortenFilter
  cases hfilter : c.filter with
  | none => exact ⟨c, rfl, by rw [prompt, hfilter]; rfl⟩
  | some filter =>
    have hfilled : filter.adoptFilled.filled = none := rfl
    have hprompt : c.prompt = some filter.adoptFilled.prompt := by
      rw [prompt, hfilter]
      rfl
    rw [hprompt, prompt_of_query hfilled, Option.bind_some]
    dsimp only
    generalize filter.adoptFilled = filter' at *
    by_cases hquery : filter'.query = []
    · rw [if_neg (not_not_intro hquery)]
      by_cases hdescents : filter'.descents = []
      · -- Nothing was typed: the prompt closes.
        obtain ⟨c', habandon, hnone⟩ :=
          exists_abandonFilter (c := { c with filter := some filter' }) rfl
        rw [if_pos hdescents]
        refine ⟨c', habandon, ?_⟩
        rw [prompt, hnone, hquery, hdescents]
        rfl
      · -- The last thing typed was a `/`.
        obtain ⟨descent, hlast⟩ : ∃ descent, filter'.descents.getLast? = some descent :=
          ⟨_, List.getLast?_eq_some_getLast hdescents⟩
        obtain ⟨c', hascend, hfilter'⟩ :=
          exists_ascendFilter (c := { c with filter := some filter' }) rfl hlast
        rw [if_neg hdescents]
        refine ⟨c', hascend, ?_⟩
        rw [prompt, hfilter', Option.map_some, Prompt.shorten, if_neg (not_not_intro hquery), hlast]
        exact congrArg some (prompt_of_query hfilled)
    · rw [if_pos hquery]
      refine ⟨_, rfl, ?_⟩
      rw [prompt, followFilter_filter, Prompt.shorten, if_pos hquery]
      exact congrArg some (prompt_of_query hfilled)

end BrowserContext

/-! ### Backspace -/

/-- The keys that type, and backspace. -/
inductive PromptKey
  | extend (character : Char)
  | descend
  | shorten
deriving DecidableEq

section Keys

variable [Lowercase]

/-- One key; a `/` only where it steps into a directory. -/
def BrowserContext.press (c : BrowserContext μ) : PromptKey → Option (BrowserContext μ)
  | .extend character => some (c.extendFilter character)
  | .descend => if c.descends then c.descendFilter else none
  | .shorten => c.shortenFilter

namespace BrowserContext

variable {c c' : BrowserContext μ} {p : Prompt}

/-- Backspace takes back what any other key typed. -/
theorem shorten_press {key : PromptKey} (hkey : key ≠ .shorten) (hprompt : c.prompt = some p)
    (hpress : c.press key = some c') : c'.prompt.bind Prompt.shorten = some p := by
  cases key with
  | extend character =>
    obtain rfl := Option.some.inj hpress
    rw [prompt_extendFilter, hprompt, Option.map_some, Option.bind_some, Prompt.shorten_extend]
  | descend =>
    by_cases hdescends : c.descends
    · obtain ⟨c'', path, opened, hdescend, hprompt'⟩ := prompt_descendFilter hdescends
      rw [press, if_pos hdescends, hdescend] at hpress
      obtain rfl := Option.some.inj hpress
      rw [hprompt', hprompt, Option.map_some, Option.bind_some, Prompt.shorten_descend]
    · rw [press, if_neg hdescends] at hpress
      cases hpress
  | shorten => exact absurd rfl hkey

/-- A key that types leaves the prompt open. -/
theorem exists_prompt_press {key : PromptKey} (hkey : key ≠ .shorten) (hprompt : c.prompt = some p)
    (hpress : c.press key = some c') : ∃ p', c'.prompt = some p' := by
  have h := shorten_press hkey hprompt hpress
  cases hp : c'.prompt with
  | some p' => exact ⟨p', rfl⟩
  | none =>
    rw [hp] at h
    cases h

/-- Backspaces on the browser are backspaces on its prompt. -/
theorem exec_replicate_shorten (n : Nat) (c : BrowserContext μ) :
    ∃ c', exec press c (List.replicate n .shorten) = some c' ∧
      c'.prompt = (fun prompt => prompt.bind Prompt.shorten)^[n] c.prompt := by
  induction n generalizing c with
  | zero => exact ⟨c, rfl, rfl⟩
  | succ n ih =>
    obtain ⟨c₁, hshorten, hprompt⟩ := c.prompt_shortenFilter
    obtain ⟨c', hexec, hprompt'⟩ := ih c₁
    refine ⟨c', ?_, ?_⟩
    · rw [List.replicate_succ, exec, press, hshorten, Option.bind_some, hexec]
    · rw [hprompt', hprompt, Function.iterate_succ_apply]

/-- As many backspaces as keys undo them. -/
theorem iterate_shorten {keys : List PromptKey} (hkeys : .shorten ∉ keys)
    (hprompt : c.prompt = some p) (hexec : exec press c keys = some c') :
    (fun prompt => prompt.bind Prompt.shorten)^[keys.length] c'.prompt = some p := by
  induction keys generalizing c p with
  | nil =>
    obtain rfl := Option.some.inj hexec
    exact hprompt
  | cons key keys ih =>
    obtain ⟨c₁, hpress, hexec⟩ := Option.bind_eq_some_iff.mp hexec
    have hkey : key ≠ .shorten := fun h => hkeys (h ▸ List.mem_cons_self)
    obtain ⟨p₁, hprompt₁⟩ := exists_prompt_press hkey hprompt hpress
    have htail := ih (fun h => hkeys (List.mem_cons_of_mem key h)) hprompt₁ hexec
    rw [List.length_cons, Function.iterate_succ_apply', htail, ← hprompt₁]
    exact shorten_press hkey hprompt hpress

end BrowserContext

/-- **Backspace undoes the prompt one character at a time.**  In a line with a `/` for each
descent, a character and a `/` are put at the end, and backspace takes the last one
away: with a `/` the descent it stood for, closing what that opened.  It closes the prompt
exactly if the line is empty; and as many backspaces as characters and descents leave the
prompt as it was. -/
theorem backspace_undoes (c : BrowserContext μ) {p : Prompt} (hprompt : c.prompt = some p) :
    (∀ character, ∃ p', (c.extendFilter character).prompt = some p' ∧
      p'.line = p.line ++ [character] ∧ p'.descents = p.descents) ∧
    (∃ c' p', c.descendFilter = some c' ∧ c'.prompt = some p' ∧
      if c.descends then p'.line = p.line ++ ['/'] ∧ p'.descents.length = p.descents.length + 1
      else p' = p) ∧
    (∃ c', c.shortenFilter = some c' ∧ (c'.prompt = none ↔ p.line = []) ∧
      ∀ p', c'.prompt = some p' → p'.line = p.line.dropLast ∧
        p'.descents = if p.text = [] then p.descents.dropLast else p.descents) ∧
    (∀ descent i, p.text = [] → p.descents.getLast? = some descent → descent.opened →
      (c.tree.rows.findIdx? fun row => row.path = descent.path && row.entry.navigable) = some i →
      ∃ c' row, c.shortenFilter = some c' ∧ c'.tree.rows[i]? = some row ∧
        row.path = descent.path ∧ row.expansion = .collapsed) ∧
    ∀ (keys : List PromptKey) (c' : BrowserContext μ), .shorten ∉ keys →
      exec BrowserContext.press c keys = some c' →
      ∃ c'', exec BrowserContext.press c' (List.replicate keys.length .shorten) = some c'' ∧
        c''.prompt = some p := by
  refine ⟨fun character => ?_, ?_, ?_, fun descent i htext hlast hopened hi => ?_,
    fun keys c' hkeys hexec => ?_⟩
  · refine ⟨p.extend character, ?_, p.line_extend character, rfl⟩
    rw [BrowserContext.prompt_extendFilter, hprompt, Option.map_some]
  · by_cases hdescends : c.descends
    · obtain ⟨c', path, opened, hdescend, hprompt'⟩ :=
        BrowserContext.prompt_descendFilter hdescends
      refine ⟨c', p.descend path opened, hdescend, by rw [hprompt', hprompt, Option.map_some], ?_⟩
      rw [if_pos hdescends]
      exact ⟨p.line_descend path opened, List.length_append⟩
    · obtain ⟨c', hdescend, hprompt'⟩ := BrowserContext.prompt_descendFilter_refused hdescends
      refine ⟨c', p, hdescend, hprompt'.trans hprompt, ?_⟩
      rw [if_neg hdescends]
  · obtain ⟨c', hshorten, hprompt'⟩ := c.prompt_shortenFilter
    rw [hprompt, Option.bind_some] at hprompt'
    have hline := p.line_shorten
    rw [← hprompt'] at hline
    refine ⟨c', hshorten, ?_, fun p' hp' => ⟨?_, ?_⟩⟩
    · rw [← Option.map_eq_none_iff (f := Prompt.line), hline]
      split <;> simp [*]
    · rw [hp', Option.map_some] at hline
      split at hline
      · cases hline
      · exact Option.some.inj hline
    · rw [hp'] at hprompt'
      unfold Prompt.shorten at hprompt'
      split at hprompt'
      · next htext =>
        obtain rfl := Option.some.inj hprompt'
        rw [if_neg htext]
      · next htext =>
        obtain ⟨descent, -, rfl⟩ := Option.map_eq_some_iff.mp hprompt'.symm
        rw [if_pos (not_not.mp htext)]
  · obtain ⟨filter, hfilter, rfl⟩ := Option.map_eq_some_iff.mp hprompt
    exact BrowserContext.shortenFilter_closes hfilter htext hlast hopened hi
  · obtain ⟨c'', hexec', hprompt'⟩ := BrowserContext.exec_replicate_shorten keys.length c'
    exact ⟨c'', hexec', hprompt'.trans (BrowserContext.iterate_shorten hkeys hprompt hexec)⟩

end Keys

attribute [local instance] asciiLowercase

/-- The directory `d`, and a prompt that was just opened. -/
def promptOpened : BrowserContext Unit :=
  (BrowserContext.applyRootListing (.new 0 (letters [0x72]))
    (.entries [entryNamed (letters [0x64]) true])).beginFilter

/-- It is typed, stepped into, and something is typed in it. -/
def steppedIn : Option (BrowserContext Unit) :=
  exec BrowserContext.press promptOpened [.extend 'd', .descend, .extend 'x']

theorem steppedIn_undone : (steppedIn.bind BrowserContext.prompt).map Prompt.line =
      some ['d', '/', 'x'] ∧
    ∃ c', steppedIn.bind (exec BrowserContext.press · (List.replicate 3 .shorten)) = some c' ∧
      c'.prompt = some ⟨[], []⟩ := by
  refine ⟨by decide +kernel, ?_⟩
  obtain ⟨c, hc⟩ : ∃ c, steppedIn = some c := Option.isSome_iff_exists.mp (by decide +kernel)
  obtain ⟨c', hexec, hprompt⟩ :=
    (backspace_undoes promptOpened (p := ⟨[], []⟩) rfl).2.2.2.2 _ c (by decide) hc
  exact ⟨c', by rw [hc, Option.bind_some]; exact hexec, hprompt⟩

end FilePeeker.Browser
