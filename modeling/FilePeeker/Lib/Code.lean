import Mathlib.Data.List.Basic

/-!
# What is written for a value, and where it ends

A way to write values is self-delimiting where, read from its beginning, a text says
which value was written first and what was written after it.  What is written for a list
of values, one after another, then tells the list (`flatMap_inj`).

A word is told by a mark after it that no word has (`terminated`), by having the length
that all words have (`ofLength`), or by its length before it (`lengthPrefixed`).  What is
written behind a word may depend on the word (`append`).
-/

namespace FilePeeker

variable {α α' β : Type*} {ok : α → Prop} {write : α → List β} {as bs : List α} {s t : List β}

/-- A text tells the first value and the rest of the text. -/
def SelfDelimiting (ok : α → Prop) (write : α → List β) : Prop :=
  ∀ a b s t, ok a → ok b → write a ++ s = write b ++ t → a = b ∧ s = t

namespace SelfDelimiting

/-- The values of a beginning of what is written are the first values of it. -/
theorem flatMap_append (h : SelfDelimiting ok write) (hne : ∀ a, write a ≠ []) :
    ∀ {as bs : List α} {s : List β}, (∀ a ∈ as, ok a) → (∀ b ∈ bs, ok b) →
      as.flatMap write ++ s = bs.flatMap write → ∃ cs, bs = as ++ cs ∧ s = cs.flatMap write := by
  intro as
  induction as with
  | nil => intro bs s _ _ heq; exact ⟨bs, rfl, heq⟩
  | cons a as ih =>
    intro bs s has hbs heq
    cases bs with
    | nil =>
      rw [List.flatMap_cons, List.append_assoc] at heq
      exact absurd (List.append_eq_nil_iff.mp heq).1 (hne a)
    | cons b bs =>
      rw [List.flatMap_cons, List.flatMap_cons, List.append_assoc] at heq
      obtain ⟨rfl, hrest⟩ := h a b _ _ (has a List.mem_cons_self) (hbs b List.mem_cons_self) heq
      obtain ⟨cs, rfl, hs⟩ := ih (fun c hc => has c (List.mem_cons_of_mem _ hc))
        (fun c hc => hbs c (List.mem_cons_of_mem _ hc)) hrest
      exact ⟨cs, rfl, hs⟩

/-- What is written for a list tells the list. -/
theorem flatMap_inj (h : SelfDelimiting ok write) (hne : ∀ a, write a ≠ [])
    (has : ∀ a ∈ as, ok a) (hbs : ∀ b ∈ bs, ok b) (heq : as.flatMap write = bs.flatMap write) :
    as = bs := by
  obtain ⟨cs, rfl, hrest⟩ := h.flatMap_append hne (s := []) has hbs (by rw [List.append_nil, heq])
  cases cs with
  | nil => rw [List.append_nil]
  | cons c cs =>
    rw [List.flatMap_cons] at hrest
    exact absurd (List.append_eq_nil_iff.mp hrest.symm).1 (hne c)

/-- A word with a mark behind it that it has not. -/
theorem terminated {mark : β} (hinj : ∀ a b, ok a → ok b → write a = write b → a = b)
    (hmark : ∀ a, ok a → mark ∉ write a) :
    SelfDelimiting ok (fun a => write a ++ [mark]) := by
  intro a b s t ha hb heq
  have hword : ∀ {u v s t : List β}, mark ∉ u → mark ∉ v → u ++ mark :: s = v ++ mark :: t →
      u = v ∧ s = t := by
    intro u
    induction u with
    | nil =>
      intro v s t _ hv heq
      cases v with
      | nil => exact ⟨rfl, (List.cons.inj heq).2⟩
      | cons c v => exact absurd ((List.cons.inj heq).1 ▸ List.mem_cons_self) hv
    | cons c u ih =>
      intro v s t hu hv heq
      cases v with
      | nil => exact absurd ((List.cons.inj heq).1 ▸ List.mem_cons_self) hu
      | cons d v =>
        obtain ⟨rfl, hrest⟩ := List.cons.inj heq
        obtain ⟨rfl, rfl⟩ := ih (fun hmem => hu (List.mem_cons_of_mem _ hmem))
          (fun hmem => hv (List.mem_cons_of_mem _ hmem)) hrest
        exact ⟨rfl, rfl⟩
  rw [List.append_assoc, List.append_assoc, List.singleton_append, List.singleton_append] at heq
  obtain ⟨hab, hst⟩ := hword (hmark a ha) (hmark b hb) heq
  exact ⟨hinj a b ha hb hab, hst⟩

/-- Words of one length. -/
theorem ofLength (n : Nat) (hlength : ∀ a, ok a → (write a).length = n)
    (hinj : ∀ a b, ok a → ok b → write a = write b → a = b) : SelfDelimiting ok write := by
  intro a b s t ha hb heq
  obtain ⟨hab, hst⟩ := List.append_inj heq ((hlength a ha).trans (hlength b hb).symm)
  exact ⟨hinj a b ha hb hab, hst⟩

/-- One word behind another, which may say how to read it. -/
theorem append {ok' : α → α' → Prop} {write' : α → α' → List β} (h : SelfDelimiting ok write)
    (h' : ∀ a, SelfDelimiting (ok' a) (write' a)) :
    SelfDelimiting (fun p : α × α' => ok p.1 ∧ ok' p.1 p.2)
      (fun p => write p.1 ++ write' p.1 p.2) := by
  rintro ⟨a, a'⟩ ⟨b, b'⟩ s t ⟨ha, ha'⟩ ⟨hb, hb'⟩ heq
  simp only [List.append_assoc] at heq
  obtain ⟨rfl, hrest⟩ := h a b _ _ ha hb heq
  obtain ⟨rfl, rfl⟩ := h' a a' b' s t ha' hb' hrest
  exact ⟨rfl, rfl⟩

/-- A word behind its length. -/
theorem lengthPrefixed {size : Nat → List β} {limit : Nat} (h : SelfDelimiting (· < limit) size) :
    SelfDelimiting (fun content : List β => content.length < limit)
      (fun content => size content.length ++ content) := by
  intro a b s t ha hb heq
  rw [List.append_assoc, List.append_assoc] at heq
  obtain ⟨hlength, hrest⟩ := h a.length b.length _ _ ha hb heq
  exact List.append_inj hrest hlength

end SelfDelimiting

/-! ### Words between marks -/

/-- To show it of a text: of a word, and of two texts with a mark between them. -/
theorem words_induction (mark : β) {motive : List β → Prop} (word : ∀ s, mark ∉ s → motive s)
    (between : ∀ s t, motive s → motive t → motive (s ++ mark :: t)) (s : List β) : motive s := by
  classical
  induction h : s.length using Nat.strongRecOn generalizing s with
  | ind n ih =>
    by_cases hmark : mark ∈ s
    · obtain ⟨before, after, rfl⟩ := List.append_of_mem hmark
      rw [List.length_append, List.length_cons] at h
      exact between before after (ih _ (by omega) before rfl) (ih _ (by omega) after rfl)
    · exact word s hmark

theorem notMem_of_mem_splitOn [DecidableEq β] {mark : β} {text segment : List β}
    (h : segment ∈ text.splitOn mark) : mark ∉ segment := by
  induction text using words_induction mark with
  | word s hs =>
    rw [List.splitOn_eq_singleton hs, List.mem_singleton] at h
    rwa [h]
  | between s t ihs iht =>
    rw [List.splitOn_append_cons_self, List.mem_append] at h
    exact h.elim ihs iht

theorem mem_of_mem_splitOn [DecidableEq β] {mark c : β} {text segment : List β}
    (h : segment ∈ text.splitOn mark) (hc : c ∈ segment) : c ∈ text := by
  induction text using words_induction mark with
  | word s hs =>
    rw [List.splitOn_eq_singleton hs, List.mem_singleton] at h
    rwa [← h]
  | between s t ihs iht =>
    rw [List.splitOn_append_cons_self, List.mem_append] at h
    rcases h with h | h
    · exact List.mem_append_left _ (ihs h)
    · exact List.mem_append_right _ (List.mem_cons_of_mem _ (iht h))

end FilePeeker
