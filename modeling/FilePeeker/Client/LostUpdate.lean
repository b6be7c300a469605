import FilePeeker.Client.Machines

/-!
# Two commands at once

`machine add` and `machine remove` load the catalog, and write it back whole.  Of two
commands on different labels that both succeed, both have had their effect where each of
them, when it renames its partial file over `machines.toml`, replaces the file it had
loaded (`InTurn`), and only there (`no_lost_update_iff`).  A command that replaces a file
it has not loaded takes the other's change back (`one_add_is_lost`).

That the partial file has the same name for both does no harm by itself: of two processes
that have it open at one time, only one can rename it, and the other fails (`Lost`).
-/

namespace FilePeeker

namespace Client

open Directory

variable {toml : Toml} {home : Home} {c c' : Command} {l l' initial saved machines : List Machine}
  {label target uuid : Text} {d d' : Files} {p p' : Process} {op : Op} {w w' w₀ : World}
  {i j : Bool} {a : Action} {text : Bytes} {inode : Nat}

/-! ### What a command does to a list -/

/-- A command's effect is in a list. -/
def Command.Done : Command → List Machine → Prop
  | .add label target, l => ∃ m ∈ l, m.label = label ∧ m.ssh = target
  | .remove label, l => ∀ m ∈ l, m.label ≠ label

def Command.isAdd : Command → Bool
  | .add _ _ => true
  | .remove _ => false

/-- What a command saves, having loaded `l`. -/
inductive Changes : Command → List Machine → List Machine → Prop
  | add {label target uuid : Text} {l : List Machine} (hnew : ∀ m ∈ l, m.label ≠ label) :
      Changes (.add label target) l (l ++ [Machine.new label target uuid])
  | remove {label : Text} {l : List Machine} (hold : ∃ m ∈ l, m.label = label) :
      Changes (.remove label) l (l.filter (·.label ≠ label))

theorem Changes.done (h : Changes c l l') : c.Done l' := by
  cases h with
  | @add label target uuid l _ => exact ⟨Machine.new label target uuid, by simp, rfl, rfl⟩
  | remove _ =>
    intro m hm
    simpa using (List.mem_filter.mp hm).2

theorem Changes.not_done (h : Changes c l l') : ¬ c.Done l := by
  cases h with
  | add hnew =>
    rintro ⟨m, hm, hlabel, -⟩
    exact hnew m hm hlabel
  | remove hold =>
    obtain ⟨m, hm, hlabel⟩ := hold
    exact fun hdone => hdone m hm hlabel

/-- A command leaves what another one does as it is. -/
theorem Changes.done_other (h : Changes c l l') (hne : c.label ≠ c'.label) :
    c'.Done l' ↔ c'.Done l := by
  have hkeep : ∀ m : Machine, m.label = c'.label → (m ∈ l' ↔ m ∈ l) := by
    intro m hm
    cases h with
    | @add label target uuid l _ =>
      have hnew : m ≠ Machine.new label target uuid := by
        rintro rfl
        exact hne hm
      simp [hnew]
    | @remove label l _ =>
      have hother : m.label ≠ label := fun heq => hne (heq ▸ hm)
      simp [List.mem_filter, hother]
  cases c' with
  | add label target =>
    constructor
    · rintro ⟨m, hm, hlabel, hssh⟩
      exact ⟨m, (hkeep m hlabel).mp hm, hlabel, hssh⟩
    · rintro ⟨m, hm, hlabel, hssh⟩
      exact ⟨m, (hkeep m hlabel).mpr hm, hlabel, hssh⟩
  | remove label =>
    constructor
    · exact fun h m hm hlabel => h m ((hkeep m hlabel).mpr hm) hlabel
    · exact fun h m hm hlabel => h m ((hkeep m hlabel).mp hm) hlabel

/-! ### What two commands do -/

/-- No command is about this machine. -/
def Other (commands : Bool → Command) (m : Machine) : Bool := ∀ i, m.label ≠ (commands i).label

/-- No command removes this machine. -/
def Unremoved (commands : Bool → Command) (m : Machine) : Bool :=
  ∀ i, commands i ≠ .remove m.label

theorem labels_ne {commands : Bool → Command}
    (hne : (commands false).label ≠ (commands true).label) (i : Bool) :
    (commands !i).label ≠ (commands i).label := by
  cases i with
  | false => exact hne.symm
  | true => exact hne

/-- What becomes of a list when the commands in `order` change it, one after the other. -/
inductive SavedBy (commands : Bool → Command) (initial : List Machine) :
    List Bool → List Machine → Prop
  | start : SavedBy commands initial [] initial
  | save {order : List Bool} {l l' : List Machine} {i : Bool}
      (prior : SavedBy commands initial order l) (hnew : i ∉ order)
      (h : Changes (commands i) l l') : SavedBy commands initial (order ++ [i]) l'

namespace SavedBy

variable {commands : Bool → Command} {order : List Bool}

theorem initial_eq (h : SavedBy commands initial order l) (hnil : order = []) : l = initial := by
  cases h with
  | start => rfl
  | save _ _ _ => exact absurd hnil (by simp)

/-- The first command to save changes the list there was. -/
theorem changes (h : SavedBy commands initial order l) (horder : order = [i]) :
    Changes (commands i) initial l := by
  cases h with
  | start => cases horder
  | @save order l l' j prior _ hchanges =>
    have hsplit : order ++ [j] = [] ++ [i] := horder
    obtain ⟨hnil, hj⟩ := List.append_inj' hsplit rfl
    rw [prior.initial_eq hnil, List.singleton_inj.mp hj] at hchanges
    exact hchanges

theorem others (h : SavedBy commands initial order l) :
    l.filter (Other commands) = initial.filter (Other commands) := by
  induction h with
  | start => rfl
  | @save order l l' i _ _ hchanges ih =>
    rw [← ih]
    generalize hc : commands i = c at hchanges
    cases hchanges with
    | @add label target uuid l _ =>
      have hout : Other commands (Machine.new label target uuid) = false := by
        rw [Other, decide_eq_false_iff_not]
        intro hall
        exact hall i (by rw [hc]; rfl)
      simp [List.filter_append, hout]
    | @remove label l _ =>
      rw [List.filter_filter]
      refine List.filter_congr fun m _ => ?_
      cases hm : Other commands m with
      | false => rfl
      | true =>
        rw [Other, decide_eq_true_eq] at hm
        have hne := hm i
        rw [hc] at hne
        simpa [Command.label] using hne

theorem done (hne : (commands false).label ≠ (commands true).label)
    (h : SavedBy commands initial order l) (hi : i ∈ order) : (commands i).Done l := by
  induction h with
  | start => cases hi
  | @save order l l' j _ hnew hchanges ih =>
    rcases List.mem_append.mp hi with hi | hi
    · have hlabels : (commands j).label ≠ (commands i).label := by
        have hji : j ≠ i := fun heq => hnew (heq ▸ hi)
        cases i <;> cases j <;> simp_all [eq_comm]
      exact (hchanges.done_other hlabels).mpr (ih hi)
    · rw [List.mem_singleton.mp hi]
      exact hchanges.done

theorem nodup (hne : (commands false).label ≠ (commands true).label)
    (h : SavedBy commands initial order l) :
    ((l.filter (Unremoved commands)).map Machine.label).Nodup ↔
      ((initial.filter (Unremoved commands)).map Machine.label).Nodup := by
  induction h with
  | start => rfl
  | @save order l l' i _ _ hchanges ih =>
    rw [← ih]
    generalize hc : commands i = c at hchanges
    cases hchanges with
    | @add label target uuid l hnew =>
      have hin : Unremoved commands (Machine.new label target uuid) = true := by
        rw [Unremoved, decide_eq_true_eq]
        intro j hj
        have hlabel : (commands j).label = (commands i).label := by rw [hj, hc]; rfl
        cases i <;> cases j <;> simp_all [eq_comm]
      have hout : label ∉ (l.filter (Unremoved commands)).map Machine.label := by
        intro hmem
        obtain ⟨m, hm, hlabel⟩ := List.mem_map.mp hmem
        exact hnew m (List.mem_filter.mp hm).1 hlabel
      have hsplit : (l ++ [Machine.new label target uuid]).filter (Unremoved commands) =
          l.filter (Unremoved commands) ++ [Machine.new label target uuid] := by
        simp [List.filter_append, hin]
      have hlast : (((l.filter (Unremoved commands)).map Machine.label) ++ [label]).Nodup ↔
          ((l.filter (Unremoved commands)).map Machine.label).Nodup :=
        (List.perm_append_comm.nodup_iff).trans (List.nodup_cons.trans (and_iff_right hout))
      rw [hsplit, List.map_append]
      exact hlast
    | @remove label l _ =>
      rw [List.filter_filter]
      have hsame : l.filter (fun m => Unremoved commands m && decide (m.label ≠ label)) =
          l.filter (Unremoved commands) := by
        refine List.filter_congr fun m _ => ?_
        cases hm : Unremoved commands m with
        | false => rfl
        | true =>
          rw [Unremoved, decide_eq_true_eq] at hm
          have hne' : m.label ≠ label := by
            rintro rfl
            exact hm i hc
          simp [hne']
      rw [hsame]

end SavedBy

/-! ### What a step can do -/

/-- What a step of a process makes of it and of the files. -/
inductive Moves (toml : Toml) (home : Home) (d : Files) (p : Process) : Process → Files → Prop
  | fails (message : Text) (h : ∀ result, p.phase ≠ .ended result) :
      Moves toml home d p (p.fail message) d
  | checks (h : p.phase = .checking) : Moves toml home d p (p.enter .loading) d
  | findsNone (h : p.phase = .loading) (hentry : d.entry .catalog = none) :
      Moves toml home d p (p.loaded toml home []) d
  | opens {inode : Nat} (h : p.phase = .loading) (hentry : d.entry .catalog = some inode) :
      Moves toml home d p { p with basis := some inode, phase := .reading inode [] } d
  | reads {inode n : Nat} {got : Bytes} (h : p.phase = .reading inode got) :
      Moves toml home d p
        (p.enter (.reading inode (got ++ ((d.content inode).drop got.length).take n))) d
  | parses {inode : Nat} {got : Bytes} {saved : List Machine} (h : p.phase = .reading inode got)
      (hall : (d.content inode).drop got.length = []) (hparse : parse toml home got = .ok saved) :
      Moves toml home d p (p.loaded toml home saved) d
  | connects {saved : List Machine} (uuid : Text) (h : p.phase = .connecting saved) :
      Moves toml home d p (p.connected toml home uuid saved) d
  | creates {text : Bytes} (h : p.phase = .creating text) :
      Moves toml home d p (p.enter (.opening text)) d
  | opensPartial {text : Bytes} (h : p.phase = .opening text) :
      Moves toml home d p (p.wrote (d.openCut .partialCatalog).2 0 text)
        (d.openCut .partialCatalog).1
  | writes {inode offset n : Nat} {rest : Bytes} (h : p.phase = .writing inode offset rest) :
      Moves toml home d p (p.wrote inode (offset + (rest.take n).length) (rest.drop n))
        (d.write 0 inode offset (rest.take n))
  | renames {d' : Files} (h : p.phase = .renaming)
      (hrename : d.rename .partialCatalog .catalog = some d') :
      Moves toml home d p (p.enter (.ended (.ok ()))) d'

theorem moves_of_step (h : p.step toml home d op = some (p', d')) : Moves toml home d p p' d' := by
  cases op with
  | check config =>
    simp only [Process.step] at h
    split at h
    · next hphase _ =>
      have hrun : ∀ result, p.phase ≠ .ended result := by simp [hphase]
      repeat' split at h
      all_goals
        obtain ⟨rfl, rfl⟩ := Prod.mk.inj (Option.some.inj h)
      · exact .fails _ hrun
      · exact .fails _ hrun
      · exact .checks hphase
    · cases h
  | openCatalog failure =>
    simp only [Process.step] at h
    split at h
    · next _ _ hphase =>
      split at h
      · cases h
      · obtain ⟨rfl, rfl⟩ := Prod.mk.inj (Option.some.inj h)
        exact .fails _ (by simp [hphase])
    · next hphase hentry =>
      obtain ⟨rfl, rfl⟩ := Prod.mk.inj (Option.some.inj h)
      exact .findsNone hphase hentry
    · next inode hphase hentry =>
      obtain ⟨rfl, rfl⟩ := Prod.mk.inj (Option.some.inj h)
      exact .opens hphase hentry
    · cases h
  | read n =>
    simp only [Process.step] at h
    split at h
    · next inode got hphase =>
      split at h
      · cases h
      · next hn =>
        split at h
        · next hend =>
          split at h
          · obtain ⟨rfl, rfl⟩ := Prod.mk.inj (Option.some.inj h)
            exact .fails _ (by simp [hphase])
          · next saved hparse =>
            obtain ⟨rfl, rfl⟩ := Prod.mk.inj (Option.some.inj h)
            exact .parses hphase ((List.take_eq_nil_iff.mp hend).resolve_left hn) hparse
        · obtain ⟨rfl, rfl⟩ := Prod.mk.inj (Option.some.inj h)
          exact .reads hphase
    · cases h
  | readFails error =>
    simp only [Process.step] at h
    split at h
    · next hphase =>
      split at h
      · cases h
      · obtain ⟨rfl, rfl⟩ := Prod.mk.inj (Option.some.inj h)
        exact .fails _ (by simp [hphase])
    · cases h
  | connect failure uuid =>
    simp only [Process.step] at h
    split at h
    · next hphase =>
      obtain ⟨rfl, rfl⟩ := Prod.mk.inj (Option.some.inj h)
      exact .fails _ (by simp [hphase])
    · next hphase =>
      obtain ⟨rfl, rfl⟩ := Prod.mk.inj (Option.some.inj h)
      exact .connects _ hphase
    · cases h
  | create failure =>
    simp only [Process.step] at h
    split at h
    · next hphase =>
      obtain ⟨rfl, rfl⟩ := Prod.mk.inj (Option.some.inj h)
      exact .fails _ (by simp [hphase])
    · next hphase =>
      obtain ⟨rfl, rfl⟩ := Prod.mk.inj (Option.some.inj h)
      exact .creates hphase
    · cases h
  | openPartial failure =>
    simp only [Process.step] at h
    split at h
    · next hphase =>
      obtain ⟨rfl, rfl⟩ := Prod.mk.inj (Option.some.inj h)
      exact .fails _ (by simp [hphase])
    · next hphase =>
      obtain ⟨rfl, rfl⟩ := Prod.mk.inj (Option.some.inj h)
      exact .opensPartial hphase
    · cases h
  | write n =>
    simp only [Process.step] at h
    split at h
    · next hphase =>
      split at h
      · cases h
      · obtain ⟨rfl, rfl⟩ := Prod.mk.inj (Option.some.inj h)
        exact .writes hphase
    · cases h
  | writeFails error =>
    simp only [Process.step] at h
    split at h
    · next hphase =>
      obtain ⟨rfl, rfl⟩ := Prod.mk.inj (Option.some.inj h)
      exact .fails _ (by simp [hphase])
    · cases h
  | rename failure =>
    simp only [Process.step] at h
    split at h
    · next hphase =>
      obtain ⟨rfl, rfl⟩ := Prod.mk.inj (Option.some.inj h)
      exact .fails _ (by simp [hphase])
    · next hphase =>
      obtain ⟨d'', hrename, heq⟩ := Option.map_eq_some_iff.mp h
      obtain ⟨rfl, rfl⟩ := Prod.mk.inj heq
      exact .renames hphase hrename
    · cases h

@[simp] theorem World.after_files : (w.after i p d).files = d := rfl

@[simp] theorem World.after_self : (w.after i p d).processes i = p := Function.update_self ..

@[simp] theorem World.after_other : (w.after i p d).processes (!i) = w.processes (!i) :=
  Function.update_of_ne (by simp) ..

/-- One of two processes, or the other. -/
theorem eq_or_not (i j : Bool) : i = j ∨ i = !j := by
  cases i <;> cases j <;> simp

theorem step_eq_some : step toml home w a = some w' ↔ ∃ p files,
    (w.processes a.process).step toml home w.files a.op = some (p, files) ∧
      w' = w.after a.process p files := by
  simp only [step, Option.map_eq_some_iff, Prod.exists]
  constructor
  · rintro ⟨p, files, h, rfl⟩
    exact ⟨p, files, h, rfl⟩
  · rintro ⟨p, files, h, rfl⟩
    exact ⟨p, files, h, rfl⟩

/-! ### What a process is about to save -/

/-- The list in a file, where no file is an empty list. -/
def listAt (toml : Toml) (home : Home) (d : Files) : Option Nat → Except Text (List Machine)
  | none => .ok []
  | some inode => parse toml home (d.content inode)

/-- A text is what the process makes of the list it has loaded. -/
def Writes (toml : Toml) (home : Home) (d : Files) (p : Process) (text : Bytes) : Prop :=
  ∃ l l' str, listAt toml home d p.basis = .ok l ∧ Changes p.command l l' ∧
    toml.encode l' = .ok str ∧ str.bytes = text

/-- A list that `add` has found no other host under its label in. -/
def Command.Fits : Command → List Machine → Prop
  | .add label target, l => ∀ m, l.find? (·.label = label) = some m → m.ssh = target
  | .remove _, _ => False

/-- What a process has is of the file it has loaded; and while it writes the partial file,
that has what it has written so far. -/
def Derived (toml : Toml) (home : Home) (d : Files) (p : Process) : Prop :=
  match p.phase with
  | .checking | .loading => p.basis = none
  | .reading inode got => p.basis = some inode ∧ got <+: d.content inode
  | .connecting saved => listAt toml home d p.basis = .ok saved ∧ p.command.Fits saved
  | .creating text | .opening text => Writes toml home d p text
  | .writing inode offset rest => d.entry .partialCatalog = some inode ∧
      offset = (d.content inode).length ∧ Writes toml home d p (d.content inode ++ rest)
  | .renaming => ∃ text, d.read .partialCatalog = some text ∧ Writes toml home d p text
  | .ended _ => True

/-- The process has the partial file open, or is about to rename it. -/
def Phase.holds : Phase → Bool
  | .writing .. | .renaming => true
  | .checking | .loading | .reading .. | .connecting _ | .creating _ | .opening _ | .ended _ => false

/-- From the load of the catalog to the end. -/
def Phase.underway : Phase → Bool
  | .checking | .loading | .ended _ => false
  | .reading .. | .connecting _ | .creating _ | .opening _ | .writing .. | .renaming => true

namespace Process

@[simp] theorem enter_phase (phase : Phase) : (p.enter phase).phase = phase := rfl

@[simp] theorem enter_basis (phase : Phase) : (p.enter phase).basis = p.basis := rfl

@[simp] theorem enter_command (phase : Phase) : (p.enter phase).command = p.command := rfl

theorem wrote_holds {inode offset : Nat} {rest : Bytes} :
    (p.wrote inode offset rest).phase.holds := by
  unfold wrote
  split <;> rfl

end Process

theorem listAt_congr {file : Option Nat}
    (h : ∀ inode, file = some inode → d'.content inode = d.content inode) :
    listAt toml home d' file = listAt toml home d file := by
  cases file with
  | none => rfl
  | some inode => rw [listAt, listAt, h inode rfl]

theorem Writes.congr (h : Writes toml home d p text) (hbasis : p'.basis = p.basis)
    (hcommand : p'.command = p.command)
    (hcontent : ∀ inode, p.basis = some inode → d'.content inode = d.content inode) :
    Writes toml home d' p' text := by
  obtain ⟨l, l', str, hlist, hchanges, hencode, hbytes⟩ := h
  exact ⟨l, l', str, by rw [hbasis, listAt_congr hcontent, hlist], hcommand ▸ hchanges, hencode,
    hbytes⟩

/-- What does not hold the partial file keeps to the file it has loaded. -/
theorem Derived.frame (h : Derived toml home d p) (hholds : p.phase.holds = false)
    (hcontent : ∀ inode, p.basis = some inode → d'.content inode = d.content inode) :
    Derived toml home d' p := by
  unfold Derived at h ⊢
  cases hphase : p.phase with
  | checking | loading =>
    simp only [hphase] at h ⊢
    exact h
  | ended result => trivial
  | reading inode got =>
    simp only [hphase] at h ⊢
    exact ⟨h.1, hcontent inode h.1 ▸ h.2⟩
  | connecting saved =>
    simp only [hphase] at h ⊢
    exact ⟨(listAt_congr hcontent).trans h.1, h.2⟩
  | creating text | opening text =>
    simp only [hphase] at h ⊢
    exact h.congr rfl rfl hcontent
  | writing inode offset rest | «renaming» =>
    rw [hphase] at hholds
    cases hholds

/-- What has been read to its end is the list in the file. -/
theorem Derived.listAt_of_end {got : Bytes} (h : Derived toml home d p)
    (hphase : p.phase = .reading inode got) (hall : (d.content inode).drop got.length = [])
    (hparse : parse toml home got = .ok saved) : listAt toml home d p.basis = .ok saved := by
  simp only [Derived, hphase] at h
  have hgot : got = d.content inode := h.2.eq_of_length_le (List.drop_eq_nil_iff.mp hall)
  rw [h.1, listAt, ← hgot, hparse]

theorem derived_wrote {offset : Nat} {rest : Bytes}
    (hentry : d.entry .partialCatalog = some inode) (hoffset : offset = (d.content inode).length)
    (hwrites : Writes toml home d p (d.content inode ++ rest)) :
    Derived toml home d (p.wrote inode offset rest) := by
  unfold Process.wrote
  split
  · next hrest =>
    refine ⟨d.content inode, by rw [Directory.read, hentry]; rfl, ?_⟩
    rw [hrest, List.append_nil] at hwrites
    exact hwrites
  · exact ⟨hentry, hoffset, hwrites⟩

/-- `save` fails, or has the text of what it is given. -/
theorem save_cases (hlist : listAt toml home d p.basis = .ok l) (hchanges : Changes p.command l l') :
    (∃ message, p.save toml home l' = p.fail message) ∨
      ∃ text, p.save toml home l' = p.enter (.creating text) ∧ Writes toml home d p text := by
  unfold Process.save
  split
  · exact .inl ⟨_, rfl⟩
  · next str hencode => exact .inr ⟨str.bytes, rfl, l, l', str, hlist, hchanges, hencode, rfl⟩

theorem loaded_cases (hlist : listAt toml home d p.basis = .ok saved) :
    (∃ message, p.loaded toml home saved = p.fail message) ∨
      (p.loaded toml home saved = p.enter (.connecting saved) ∧ p.command.Fits saved) ∨
      ∃ text, p.loaded toml home saved = p.enter (.creating text) ∧ Writes toml home d p text := by
  unfold Process.loaded
  split
  · next label target hcommand =>
    split
    · next existing hfind =>
      split
      · exact .inl ⟨_, rfl⟩
      · next hssh =>
        refine .inr (.inl ⟨rfl, ?_⟩)
        rw [hcommand]
        intro m hm
        rw [hfind, Option.some.injEq] at hm
        exact hm ▸ not_not.mp hssh
    · next hfind =>
      refine .inr (.inl ⟨rfl, ?_⟩)
      rw [hcommand]
      intro m hm
      rw [hfind] at hm
      cases hm
  · next label hcommand =>
    dsimp only
    split
    · exact .inl ⟨_, rfl⟩
    · next hlength =>
      have hold : ∃ m ∈ saved, m.label = label := by
        by_contra hnone
        simp only [not_exists, not_and] at hnone
        refine hlength (congrArg List.length (List.filter_eq_self.mpr ?_))
        exact fun m hm => decide_eq_true (hnone m hm)
      have hchanges : Changes p.command saved (saved.filter (·.label ≠ label)) :=
        hcommand ▸ .remove hold
      rcases save_cases hlist hchanges with hfail | hwrites
      · exact .inl hfail
      · exact .inr (.inr hwrites)

theorem connected_cases (uuid : Text) (hlist : listAt toml home d p.basis = .ok saved)
    (hfits : p.command.Fits saved) :
    (∃ message, p.connected toml home uuid saved = p.fail message) ∨
      (p.connected toml home uuid saved = p.enter (.ended (.ok ())) ∧ p.command.isAdd ∧
        p.command.Done saved) ∨
      ∃ text, p.connected toml home uuid saved = p.enter (.creating text) ∧
        Writes toml home d p text := by
  unfold Process.connected
  split
  · next label target hcommand =>
    rw [hcommand] at hfits
    split
    · next hany =>
      obtain ⟨m, hm, hlabel⟩ := List.any_eq_true.mp hany
      -- `find` gives the first of the label, and that is of the target.
      obtain ⟨first, hfirst⟩ : ∃ first, saved.find? (·.label = label) = some first :=
        Option.ne_none_iff_exists'.mp fun hnone => List.find?_eq_none.mp hnone m hm hlabel
      have hfound := List.find?_some hfirst
      have hmem := List.mem_of_find?_eq_some hfirst
      rw [hcommand]
      exact .inr (.inl ⟨rfl, rfl, first, hmem, of_decide_eq_true hfound, hfits first hfirst⟩)
    · next hany =>
      have hnew : ∀ m ∈ saved, m.label ≠ label := by
        intro m hm hlabel
        exact hany (List.any_eq_true.mpr ⟨m, hm, decide_eq_true hlabel⟩)
      have hchanges : Changes p.command saved (saved ++ [Machine.new label target uuid]) :=
        hcommand ▸ .add hnew
      rcases save_cases hlist hchanges with hfail | hwrites
      · exact .inl hfail
      · exact .inr (.inr hwrites)
  · next hcommand =>
    rw [hcommand] at hfits
    cases hfits

/-! ### What a step leaves as it is -/

namespace Moves

theorem not_ended (h : Moves toml home d p p' d') (result : Except Text Unit) :
    p.phase ≠ .ended result := by
  cases h with
  | fails message h => exact h result
  | checks h | findsNone h _ | opens h _ | reads h | parses h _ _ | connects _ h | creates h
  | opensPartial h | writes h | renames h _ => simp [h]

theorem settled {file : Option Nat} (h : Moves toml home d p p' d')
    (hs : d.Settled .partialCatalog file) : d'.Settled .partialCatalog file := by
  cases h with
  | fails | checks | findsNone | opens | reads | parses | connects | creates => exact hs
  | opensPartial _ => exact hs.openCut
  | writes _ => exact hs.fill
  | renames _ hrename => exact hs.rename hrename

/-- A settled file keeps its content. -/
theorem content (h : Moves toml home d p p' d') (hd : Derived toml home d p)
    (hs : d.Settled .partialCatalog (some inode)) : d'.content inode = d.content inode := by
  cases h with
  | fails | checks | findsNone | opens | reads | parses | connects | creates => rfl
  | opensPartial _ => exact hs.openCut_content
  | writes h =>
    simp only [Derived, h] at hd
    exact hs.write_content hd.1
  | renames _ hrename => rw [rename_content hrename]

/-- The catalog is never the partial file. -/
theorem apart (h : Moves toml home d p p' d')
    (hs : d.Settled .partialCatalog (d.entry .catalog)) :
    d'.Settled .partialCatalog (d'.entry .catalog) := by
  cases h with
  | fails | checks | findsNone | opens | reads | parses | connects | creates => exact hs
  | opensPartial _ =>
    rw [openCut_entry_of_ne (by decide)]
    exact hs.openCut
  | writes _ => exact hs.fill
  | renames _ hrename =>
    obtain ⟨inode, hpart, rfl⟩ := rename_eq_some.mp hrename
    have hne : d.entry .catalog ≠ some inode := fun hcatalog => (hs inode hcatalog).2 hpart
    rw [if_neg hne]
    refine Settled.of_entry fun inode _ => ?_
    simp

/-- Only what holds the partial file, or comes to hold it, changes anything. -/
theorem files_eq (h : Moves toml home d p p' d') (hholds : p.phase.holds = false)
    (hholds' : p'.phase.holds = false) : d' = d := by
  cases h with
  | fails | checks | findsNone | opens | reads | parses | connects | creates => rfl
  | opensPartial _ =>
    rw [Process.wrote_holds] at hholds'
    cases hholds'
  | writes h | renames h _ =>
    rw [h] at hholds
    cases hholds

/-- A process fails, or what it has is still of the file it has loaded. -/
theorem derived (h : Moves toml home d p p' d') (hd : Derived toml home d p)
    (hbasis : d.Settled .partialCatalog p.basis) :
    (∃ message, p' = p.fail message) ∨ Derived toml home d' p' := by
  have hcontent : ∀ inode, p.basis = some inode → d'.content inode = d.content inode :=
    fun inode hinode => h.content hd (hinode ▸ hbasis)
  have hloaded : ∀ saved, listAt toml home d p.basis = .ok saved →
      (∃ message, p.loaded toml home saved = p.fail message) ∨
        Derived toml home d (p.loaded toml home saved) := by
    intro saved hlist
    rcases loaded_cases hlist with hfail | ⟨heq, hfits⟩ | ⟨text, heq, hwrites⟩
    · exact .inl hfail
    · rw [heq]
      exact .inr ⟨hlist, hfits⟩
    · rw [heq]
      exact .inr hwrites
  cases h with
  | fails message _ => exact .inl ⟨message, rfl⟩
  | checks h =>
    simp only [Derived, h] at hd
    exact .inr hd
  | findsNone h _ =>
    simp only [Derived, h] at hd
    exact hloaded [] (by rw [hd]; rfl)
  | opens _ _ => exact .inr ⟨rfl, List.nil_prefix⟩
  | @reads inode n got h =>
    simp only [Derived, h] at hd
    refine .inr ⟨hd.1, ?_⟩
    obtain ⟨rest, hrest⟩ := hd.2
    rw [← hrest, List.drop_left, List.prefix_append_right_inj]
    exact List.take_prefix n rest
  | @parses inode got saved h hall hparse =>
    exact hloaded saved (hd.listAt_of_end h hall hparse)
  | connects uuid h =>
    simp only [Derived, h] at hd
    rcases connected_cases uuid hd.1 hd.2 with hfail | ⟨heq, -⟩ | ⟨text, heq, hwrites⟩
    · exact .inl hfail
    · rw [heq]
      exact .inr trivial
    · rw [heq]
      exact .inr hwrites
  | creates h =>
    simp only [Derived, h] at hd
    exact .inr hd
  | @opensPartial text h =>
    simp only [Derived, h] at hd
    obtain ⟨hentry, hempty⟩ := openCut_opened d File.partialCatalog
    refine .inr (derived_wrote hentry (by rw [hempty]; rfl) ?_)
    rw [hempty]
    exact hd.congr rfl rfl hcontent
  | @writes inode offset n rest h =>
    simp only [Derived, h] at hd
    obtain ⟨hentry, hoffset, hwrites⟩ := hd
    have hnow := write_content_end 0 (rest.take n) hoffset
    refine .inr (derived_wrote hentry ?_ ?_)
    · rw [hnow, List.length_append, hoffset]
    · rw [hnow, List.append_assoc, List.take_append_drop]
      exact hwrites.congr rfl rfl hcontent
  | renames _ _ => exact .inr trivial

/-- How a step leaves the catalog: a process fails; or it goes on, with the file it has
loaded or loads; or it ends, with nothing to save; or it renames its partial file. -/
theorem outcome (h : Moves toml home d p p' d') (hd : Derived toml home d p) :
    (∃ message, p' = p.fail message) ∨
      (d'.entry .catalog = d.entry .catalog ∧ (∀ result, p'.phase ≠ .ended result) ∧
        (p'.phase.underway → p.phase.underway ∧ p'.basis = p.basis ∨
          p'.basis = d.entry .catalog)) ∨
      (d' = d ∧ p' = p.enter (.ended (.ok ())) ∧ ∃ saved, p.phase = .connecting saved ∧
        p.command.isAdd ∧ p.command.Done saved) ∨
      p.phase = .renaming ∧ p' = p.enter (.ended (.ok ())) ∧
        d.rename .partialCatalog .catalog = some d' := by
  have hloaded : ∀ saved, listAt toml home d p.basis = .ok saved →
      (∃ message, p.loaded toml home saved = p.fail message) ∨
        (∀ result, (p.loaded toml home saved).phase ≠ .ended result) ∧
          (p.loaded toml home saved).basis = p.basis := by
    intro saved hlist
    rcases loaded_cases hlist with hfail | ⟨heq, -⟩ | ⟨text, heq, -⟩
    · exact .inl hfail
    · rw [heq]
      exact .inr ⟨nofun, rfl⟩
    · rw [heq]
      exact .inr ⟨nofun, rfl⟩
  have hwrote : ∀ inode offset rest,
      (∀ result, (p.wrote inode offset rest).phase ≠ .ended result) ∧
        (p.wrote inode offset rest).basis = p.basis := by
    intro inode offset rest
    unfold Process.wrote
    split
    · exact ⟨nofun, rfl⟩
    · exact ⟨nofun, rfl⟩
  cases h with
  | fails message _ => exact .inl ⟨message, rfl⟩
  | checks _ => exact .inr (.inl ⟨rfl, nofun, nofun⟩)
  | findsNone h hentry =>
    simp only [Derived, h] at hd
    rcases hloaded [] (by rw [hd]; rfl) with hfail | ⟨hrun, hsame⟩
    · exact .inl hfail
    · exact .inr (.inl ⟨rfl, hrun, fun _ => .inr (by rw [hsame, hd, hentry])⟩)
  | opens _ hentry => exact .inr (.inl ⟨rfl, nofun, fun _ => .inr hentry.symm⟩)
  | reads h => exact .inr (.inl ⟨rfl, nofun, fun _ => .inl ⟨by rw [h]; rfl, rfl⟩⟩)
  | @parses inode got saved h hall hparse =>
    rcases hloaded saved (hd.listAt_of_end h hall hparse) with hfail | ⟨hrun, hsame⟩
    · exact .inl hfail
    · exact .inr (.inl ⟨rfl, hrun, fun _ => .inl ⟨by rw [h]; rfl, hsame⟩⟩)
  | @connects saved uuid h =>
    simp only [Derived, h] at hd
    rcases connected_cases uuid hd.1 hd.2 with hfail | ⟨heq, hdone⟩ | ⟨text, heq, -⟩
    · exact .inl hfail
    · exact .inr (.inr (.inl ⟨rfl, heq, saved, h, hdone⟩))
    · rw [heq]
      exact .inr (.inl ⟨rfl, nofun, fun _ => .inl ⟨by rw [h]; rfl, rfl⟩⟩)
  | creates h => exact .inr (.inl ⟨rfl, nofun, fun _ => .inl ⟨by rw [h]; rfl, rfl⟩⟩)
  | @opensPartial text h =>
    have hentry : (d.openCut .partialCatalog).1.entry .catalog = d.entry .catalog :=
      openCut_entry_of_ne (by decide)
    exact .inr (.inl ⟨hentry, (hwrote _ _ _).1, fun _ => .inl ⟨by rw [h]; rfl, (hwrote _ _ _).2⟩⟩)
  | @writes inode offset n rest h =>
    exact .inr (.inl ⟨rfl, (hwrote _ _ _).1, fun _ => .inl ⟨by rw [h]; rfl, (hwrote _ _ _).2⟩⟩)
  | renames h hrename => exact .inr (.inr (.inr ⟨h, rfl, hrename⟩))

end Moves

/-! ### Two commands, in turn or lost -/

/-- A process that renames its partial file replaces the file it has loaded. -/
def InTurn (w : World) (a : Action) : Prop :=
  a.op = .rename none → w.files.entry .catalog = (w.processes a.process).basis

instance (w : World) (a : Action) : Decidable (InTurn w a) :=
  inferInstanceAs (Decidable (_ → _))

/-- Before either command, whose home has this list or no catalog. -/
structure Started (toml : Toml) (home : Home) (commands : Bool → Command)
    (initial : List Machine) (w : World) : Prop where
  processes : ∀ i, w.processes i = Process.start (commands i)
  apart : w.files.Settled .partialCatalog (w.files.entry .catalog)
  loads : listAt toml home w.files (w.files.entry .catalog) = .ok initial

/-- The commands in `order` have changed the list, one after the other, to `l`. -/
structure History (toml : Toml) (home : Home) (commands : Bool → Command)
    (initial : List Machine) (first : Option Nat) (order : List Bool) (l : List Machine)
    (w : World) : Prop where
  savedBy : SavedBy commands initial order l
  now : listAt toml home w.files (w.files.entry .catalog) = .ok l
  unchanged : order = [] → w.files.entry .catalog = first
  there : order ≠ [] → w.files.entry .catalog ≠ none
  ended : ∀ i ∈ order, (w.processes i).phase = .ended (.ok ())
  unsaved : ∀ i, i ∉ order → (w.processes i).phase = .ended (.ok ()) →
    (commands i).isAdd ∧ (commands i).Done l
  loaded : ∀ i, (w.processes i).phase.underway → (w.processes i).basis = w.files.entry .catalog ∨
    (w.processes i).basis = first ∧ order = [!i]

/-- Both commands have what they should so far, in a home whose catalog was `first`. -/
structure Sound (toml : Toml) (home : Home) (commands : Bool → Command)
    (initial : List Machine) (first : Option Nat) (w : World) : Prop where
  command : ∀ i, (w.processes i).command = commands i
  apart : w.files.Settled .partialCatalog (w.files.entry .catalog)
  settled : w.files.Settled .partialCatalog first
  initially : listAt toml home w.files first = .ok initial
  basis : ∀ i, w.files.Settled .partialCatalog (w.processes i).basis
  alone : ∀ i, (w.processes i).phase.holds → (w.processes (!i)).phase.holds = false
  derived : ∀ i, Derived toml home w.files (w.processes i)

/-- A command has failed, or will: both have the partial file open, or one of them after
the other has renamed it. -/
inductive Lost (w : World) : Prop
  | failed (i : Bool) (message : Text) (h : (w.processes i).phase = .ended (.error message))
  | both (h : ∀ i, (w.processes i).phase.holds)
      (hapart : w.files.Settled .partialCatalog (w.files.entry .catalog))
  | taken (i : Bool) (h : (w.processes i).phase.holds)
      (hended : (w.processes (!i)).phase = .ended (.ok ()))
      (hnone : w.files.entry .partialCatalog = none)

/-- Both commands have succeeded, and the effect of one is not there. -/
def Stale (toml : Toml) (home : Home) (commands : Bool → Command) (w : World) : Prop :=
  (∀ i, (w.processes i).phase = .ended (.ok ())) ∧
    ∃ i l, listAt toml home w.files (w.files.entry .catalog) = .ok l ∧ ¬ (commands i).Done l

theorem Lost.step (h : Lost w) (hstep : step toml home w a = some w') : Lost w' := by
  obtain ⟨p, files, hp, rfl⟩ := step_eq_some.mp hstep
  have hmoves := moves_of_step hp
  cases h with
  | failed i message h =>
    rcases eq_or_not i a.process with rfl | rfl
    · exact absurd h (hmoves.not_ended _)
    · exact .failed (!a.process) message (by rw [World.after_other]; exact h)
  | both h hapart =>
    cases hmoves with
    | fails message _ => exact .failed a.process message (by rw [World.after_self]; rfl)
    | checks hphase | findsNone hphase _ | opens hphase _ | reads hphase | parses hphase _ _
    | connects _ hphase | creates hphase | opensPartial hphase =>
      have hholds := h a.process
      rw [hphase] at hholds
      cases hholds
    | writes _ =>
      refine .both (fun i => ?_) hapart
      rcases eq_or_not i a.process with rfl | rfl
      · rw [World.after_self]
        exact Process.wrote_holds
      · rw [World.after_other]
        exact h _
    | renames _ hrename =>
      obtain ⟨inode, hpart, rfl⟩ := rename_eq_some.mp hrename
      have hne : w.files.entry .catalog ≠ some inode :=
        fun hcatalog => (hapart inode hcatalog).2 hpart
      refine .taken (!a.process) (by rw [World.after_other]; exact h _) ?_ ?_
      · rw [Bool.not_not, World.after_self]
        rfl
      · rw [World.after_files, if_neg hne, unlink_entry, if_pos rfl]
  | taken i h hended hnone =>
    rcases eq_or_not i a.process with rfl | rfl
    · have hended' : ∀ q d, ((w.after a.process q d).processes (!a.process)).phase =
          .ended (.ok ()) := by
        intro q d
        rw [World.after_other]
        exact hended
      cases hmoves with
      | fails message _ => exact .failed a.process message (by rw [World.after_self]; rfl)
      | checks hphase | findsNone hphase _ | opens hphase _ | reads hphase | parses hphase _ _
      | connects _ hphase | creates hphase | opensPartial hphase =>
        rw [hphase] at h
        cases h
      | writes _ =>
        refine .taken a.process ?_ (hended' _ _) hnone
        rw [World.after_self]
        exact Process.wrote_holds
      | renames _ hrename =>
        obtain ⟨inode, hpart, -⟩ := rename_eq_some.mp hrename
        rw [hnone] at hpart
        cases hpart
    · rw [Bool.not_not] at hended
      exact absurd hended (hmoves.not_ended _)

theorem Stale.step {commands : Bool → Command} (h : Stale toml home commands w)
    (hstep : step toml home w a = some w') : Stale toml home commands w' := by
  obtain ⟨p, files, hp, -⟩ := step_eq_some.mp hstep
  exact absurd (h.1 a.process) ((moves_of_step hp).not_ended _)

theorem Lost.not_done (h : Lost w) : ¬ ∀ i, (w.processes i).phase = .ended (.ok ()) := by
  intro hall
  cases h with
  | failed i message h =>
    rw [hall i] at h
    cases h
  | both h _ =>
    have hholds := h true
    rw [hall true] at hholds
    cases hholds
  | taken i h _ _ =>
    rw [hall i] at h
    cases h

theorem Started.sound {commands : Bool → Command} (h : Started toml home commands initial w) :
    Sound toml home commands initial (w.files.entry .catalog) w ∧
      History toml home commands initial (w.files.entry .catalog) [] initial w := by
  have hphase : ∀ i, (w.processes i).phase = .checking ∨ (w.processes i).phase = .loading := by
    intro i
    rw [h.processes i]
    cases commands i with
    | add label target => exact .inl rfl
    | remove label => exact .inr rfl
  have hbasis : ∀ i, (w.processes i).basis = none := fun i => by rw [h.processes i]; rfl
  refine ⟨⟨fun i => by rw [h.processes i]; rfl, h.apart, h.apart, h.loads, ?_, ?_, ?_⟩,
    .start, h.loads, fun _ => rfl, fun hne => absurd rfl hne, nofun, ?_, ?_⟩
  · intro i inode hinode
    rw [hbasis i] at hinode
    cases hinode
  · intro i hholds
    rcases hphase i with hi | hi <;> rw [hi] at hholds <;> cases hholds
  · intro i
    rcases hphase i with hi | hi <;> simp only [Derived, hi] <;> exact hbasis i
  · intro i _ hended
    rcases hphase i with hi | hi <;> rw [hi] at hended <;> cases hended
  · intro i hunderway
    rcases hphase i with hi | hi <;> rw [hi] at hunderway <;> cases hunderway

theorem save_enter (toml : Toml) (home : Home) (machines : List Machine) (p : Process) :
    ∃ phase, p.save toml home machines = p.enter phase := by
  unfold Process.save
  split
  · exact ⟨_, rfl⟩
  · exact ⟨_, rfl⟩

theorem loaded_enter (toml : Toml) (home : Home) (saved : List Machine) (p : Process) :
    ∃ phase, p.loaded toml home saved = p.enter phase := by
  unfold Process.loaded
  split
  · split
    · split
      · exact ⟨_, rfl⟩
      · exact ⟨_, rfl⟩
    · exact ⟨_, rfl⟩
  · dsimp only
    split
    · exact ⟨_, rfl⟩
    · exact save_enter _ _ _ _

theorem connected_enter (toml : Toml) (home : Home) (uuid : Text) (saved : List Machine)
    (p : Process) :
    ∃ phase, p.connected toml home uuid saved = p.enter phase := by
  unfold Process.connected
  split
  · split
    · exact ⟨_, rfl⟩
    · exact save_enter _ _ _ _
  · exact ⟨p.phase, rfl⟩

/-- A process keeps its command, and the file it has loaded once it has. -/
theorem Moves.keeps (h : Moves toml home d p p' d') :
    p'.command = p.command ∧ (p'.basis = p.basis ∨ p'.basis = d.entry .catalog) := by
  cases h with
  | fails | checks | reads | creates | opensPartial | writes | renames => exact ⟨rfl, .inl rfl⟩
  | opens _ hentry => exact ⟨rfl, .inr hentry.symm⟩
  | findsNone | parses =>
    obtain ⟨phase, hphase⟩ := loaded_enter toml home _ p
    rw [hphase]
    exact ⟨rfl, .inl rfl⟩
  | connects uuid =>
    obtain ⟨phase, hphase⟩ := connected_enter toml home uuid _ p
    rw [hphase]
    exact ⟨rfl, .inl rfl⟩

section

variable {commands : Bool → Command} {first : Option Nat} {order : List Bool}

/-- A step of a process keeps what both have, unless the two are lost. -/
theorem Sound.moves (h : Sound toml home commands initial first w)
    (hmoves : Moves toml home w.files (w.processes i) p d) :
    Lost (w.after i p d) ∨ Sound toml home commands initial first (w.after i p d) := by
  by_cases hboth : p.phase.holds = true ∧ (w.processes (!i)).phase.holds = true
  · refine .inl (.both (fun j => ?_) (hmoves.apart h.apart))
    rcases eq_or_not j i with rfl | rfl
    · rw [World.after_self]
      exact hboth.1
    · rw [World.after_other]
      exact hboth.2
  rcases hmoves.derived (h.derived i) (h.basis i) with ⟨message, rfl⟩ | hderived
  · exact .inl (.failed i message (by rw [World.after_self]; rfl))
  have hcontent : ∀ file, w.files.Settled .partialCatalog file → ∀ inode, file = some inode →
      d.content inode = w.files.content inode := by
    rintro file hs inode rfl
    exact hmoves.content (h.derived i) hs
  refine .inr ⟨fun j => ?_, hmoves.apart h.apart, hmoves.settled h.settled,
    (listAt_congr (hcontent _ h.settled)).trans h.initially, fun j => ?_, fun j => ?_, fun j => ?_⟩
  · rcases eq_or_not j i with rfl | rfl
    · rw [World.after_self, hmoves.keeps.1, h.command]
    · rw [World.after_other, h.command]
  · rcases eq_or_not j i with rfl | rfl
    · rw [World.after_self]
      rcases hmoves.keeps.2 with hbasis | hbasis
      · rw [hbasis]
        exact hmoves.settled (h.basis _)
      · rw [hbasis]
        exact hmoves.settled h.apart
    · rw [World.after_other]
      exact hmoves.settled (h.basis _)
  · rcases eq_or_not j i with rfl | rfl
    · rw [World.after_self, World.after_other]
      intro hholds
      simpa using fun hother => hboth ⟨hholds, hother⟩
    · rw [Bool.not_not, World.after_self, World.after_other]
      intro hholds
      simpa using fun hself => hboth ⟨hself, hholds⟩
  · rcases eq_or_not j i with rfl | rfl
    · rw [World.after_self]
      exact hderived
    · rw [World.after_other, World.after_files]
      cases hother : (w.processes (!i)).phase.holds with
      | false => exact (h.derived _).frame hother (hcontent _ (h.basis _))
      | true =>
        have hself : (w.processes i).phase.holds = false := by
          simpa using h.alone (!i) hother
        have hself' : p.phase.holds = false := by
          simpa using fun hholds => hboth ⟨hholds, hother⟩
        rw [hmoves.files_eq hself hself']
        exact h.derived _

/-- What is renamed over the catalog is what the process makes of the list it has loaded. -/
theorem Sound.renamed (hround : toml.RoundTrips)
    (h : Sound toml home commands initial first w) (hphase : (w.processes i).phase = .renaming)
    (hrename : w.files.rename .partialCatalog .catalog = some d) :
    d.entry .catalog ≠ none ∧ ∃ l l', listAt toml home w.files (w.processes i).basis = .ok l ∧
      Changes (commands i) l l' ∧ listAt toml home d (d.entry .catalog) = .ok l' := by
  have hderived := h.derived i
  simp only [Derived, hphase] at hderived
  obtain ⟨text, hread, l, l', str, hlist, hchanges, hencode, rfl⟩ := hderived
  obtain ⟨inode, hpart, rfl⟩ := rename_eq_some.mp hrename
  have hne : w.files.entry .catalog ≠ some inode :=
    fun hcatalog => (h.apart inode hcatalog).2 hpart
  rw [if_neg hne]
  have hentry : ((w.files.addName .partialCatalog .catalog).unlink .partialCatalog).entry
      File.catalog = some inode := by
    rw [unlink_entry, if_neg (by decide), addName_entry, if_pos rfl, hpart]
  rw [hentry]
  refine ⟨nofun, l, l', hlist, h.command i ▸ hchanges, ?_⟩
  rw [Directory.read, hpart, Option.map_some, Option.some.injEq] at hread
  have hparse : parse toml home str.bytes = .ok l' := by
    rw [parse, dif_pos str.valid, hround l' str hencode]
    rfl
  rw [listAt, unlink_content, addName_content, hread, hparse]

/-- A step in turn keeps the history, or adds to it. -/
theorem History.moves (hne : (commands false).label ≠ (commands true).label)
    (hround : toml.RoundTrips) (hs : Sound toml home commands initial first w)
    (h : History toml home commands initial first order l w)
    (hmoves : Moves toml home w.files (w.processes i) p d)
    (hturn : (w.processes i).phase = .renaming → p.phase = .ended (.ok ()) →
      w.files.entry .catalog = (w.processes i).basis) :
    (∃ message, p = (w.processes i).fail message) ∨
      ∃ order l, History toml home commands initial first order l (w.after i p d) := by
  have hcontent : ∀ inode, w.files.entry .catalog = some inode →
      d.content inode = w.files.content inode :=
    fun inode hentry => hmoves.content (hs.derived i) (hentry ▸ hs.apart)
  have hunended : ∀ j ∈ order, j = !i := by
    intro j hj
    rcases eq_or_not j i with rfl | rfl
    · exact absurd (h.ended _ hj) (hmoves.not_ended _)
    · rfl
  rcases hmoves.outcome (hs.derived i) with
    hfail | ⟨hentry, hrun, hbasis⟩ | ⟨rfl, rfl, saved, hphase, hdone⟩ | ⟨hphase, rfl, hrename⟩
  · exact .inl hfail
  · refine .inr ⟨order, l, h.savedBy, ?_, ?_, ?_, ?_, ?_, ?_⟩
    · rw [World.after_files, hentry, listAt_congr hcontent, h.now]
    · exact fun hnil => hentry.trans (h.unchanged hnil)
    · exact fun hcons => hentry ▸ h.there hcons
    · intro j hj
      rw [hunended j hj, World.after_other, h.ended _ (hunended j hj ▸ hj)]
    · intro j hj hended
      rcases eq_or_not j i with rfl | rfl
      · rw [World.after_self] at hended
        exact absurd hended (hrun _)
      · rw [World.after_other] at hended
        exact h.unsaved _ hj hended
    · intro j hunderway
      rw [World.after_files, hentry]
      rcases eq_or_not j i with rfl | rfl
      · rw [World.after_self] at hunderway ⊢
        rcases hbasis hunderway with ⟨hbefore, hsame⟩ | hnow
        · rw [hsame]
          exact h.loaded _ hbefore
        · exact .inl hnow
      · rw [World.after_other] at hunderway ⊢
        exact h.loaded _ hunderway
  · refine .inr ⟨order, l, h.savedBy, h.now, h.unchanged, h.there, ?_, ?_, ?_⟩
    · intro j hj
      rw [hunended j hj, World.after_other, h.ended _ (hunended j hj ▸ hj)]
    · intro j hj hended
      rcases eq_or_not j i with rfl | rfl
      · have hderived := hs.derived j
        simp only [Derived, hphase] at hderived
        rw [hs.command] at hdone
        refine ⟨hdone.1, ?_⟩
        rcases h.loaded j (by rw [hphase]; rfl) with hbasis | ⟨hbasis, horder⟩
        · -- It has loaded what is there now.
          rw [hbasis, h.now, Except.ok.injEq] at hderived
          exact hderived.1 ▸ hdone.2
        · -- The other command has changed the list since.
          rw [hbasis, hs.initially, Except.ok.injEq] at hderived
          have hchanges := h.savedBy.changes horder
          exact (hchanges.done_other (labels_ne hne j)).mpr (hderived.1 ▸ hdone.2)
      · rw [World.after_other] at hended
        exact h.unsaved _ hj hended
    · intro j hunderway
      rcases eq_or_not j i with rfl | rfl
      · rw [World.after_self] at hunderway
        cases hunderway
      · rw [World.after_other] at hunderway ⊢
        exact h.loaded _ hunderway
  · obtain ⟨hthere, l₀, l', hlist, hchanges, hnow⟩ := hs.renamed hround hphase hrename
    rw [← hturn hphase rfl, h.now, Except.ok.injEq] at hlist
    subst hlist
    have hnew : i ∉ order := fun hi => absurd (hunended i hi) (by simp)
    refine .inr ⟨order ++ [i], l', h.savedBy.save hnew hchanges, hnow, by simp, fun _ => hthere,
      ?_, ?_, ?_⟩
    · intro j hj
      rcases eq_or_not j i with rfl | rfl
      · rw [World.after_self]
        rfl
      · rw [World.after_other]
        have hmem : (!i) ∈ order := by simpa using hj
        exact h.ended _ hmem
    · intro j hj hended
      rcases eq_or_not j i with rfl | rfl
      · exact absurd (List.mem_append_right _ (List.mem_singleton_self _)) hj
      · rw [World.after_other] at hended
        have hbefore := h.unsaved _ (fun hmem => hj (List.mem_append_left _ hmem)) hended
        have hlabels : (commands i).label ≠ (commands !i).label := by
          simpa using labels_ne hne (!i)
        exact ⟨hbefore.1, (hchanges.done_other hlabels).mpr hbefore.2⟩
    · intro j hunderway
      rcases eq_or_not j i with rfl | rfl
      · rw [World.after_self] at hunderway
        cases hunderway
      · rw [World.after_other] at hunderway ⊢
        rcases h.loaded _ hunderway with hbasis | ⟨-, horder⟩
        · -- Nothing has changed the catalog before: the other is not at its end.
          have hnil : order = [] := by
            refine List.eq_nil_iff_forall_not_mem.mpr fun j hj => ?_
            rw [hunended j hj] at hj
            rw [h.ended _ hj] at hunderway
            cases hunderway
          exact .inr ⟨hbasis.trans (h.unchanged hnil), by rw [hnil, Bool.not_not]; rfl⟩
        · exact absurd (by rw [horder, Bool.not_not]; exact List.mem_singleton_self _) hnew

/-- A command that replaces a file it has not loaded takes the other's effect back. -/
theorem History.stale (hne : (commands false).label ≠ (commands true).label)
    (hround : toml.RoundTrips) (hs : Sound toml home commands initial first w)
    (h : History toml home commands initial first order l w)
    (hphase : (w.processes i).phase = .renaming)
    (hrename : w.files.rename .partialCatalog .catalog = some d)
    (hturn : w.files.entry .catalog ≠ (w.processes i).basis) :
    Stale toml home commands (w.after i ((w.processes i).enter (.ended (.ok ()))) d) := by
  obtain ⟨-, l₀, l', hlist, hchanges, hnow⟩ := hs.renamed hround hphase hrename
  obtain ⟨hbasis, horder⟩ : (w.processes i).basis = first ∧ order = [!i] :=
    (h.loaded i (by rw [hphase]; rfl)).resolve_left fun heq => hturn heq.symm
  rw [hbasis, hs.initially, Except.ok.injEq] at hlist
  subst hlist
  refine ⟨fun j => ?_, !i, l', hnow, ?_⟩
  · rcases eq_or_not j i with rfl | rfl
    · rw [World.after_self]
      rfl
    · rw [World.after_other]
      exact h.ended _ (by rw [horder]; exact List.mem_singleton_self _)
  · -- The other command's effect was not there when this one loaded the list.
    have hlabels : (commands i).label ≠ (commands !i).label := by
      simpa using labels_ne hne (!i)
    rw [hchanges.done_other hlabels]
    exact (h.savedBy.changes horder).not_done

/-! ### Whole runs -/

/-- What two commands have come to, one in turn after the other. -/
def Orderly (toml : Toml) (home : Home) (commands : Bool → Command) (initial : List Machine)
    (first : Option Nat) (w : World) : Prop :=
  Sound toml home commands initial first w ∧
    ∃ order l, History toml home commands initial first order l w

theorem step_rename (h : p.step toml home d (.rename none) = some (p', d')) :
    p.phase = .renaming ∧ p' = p.enter (.ended (.ok ())) ∧
      d.rename .partialCatalog .catalog = some d' := by
  simp only [Process.step] at h
  split at h
  · cases ‹none = some _›
  · next hphase _ =>
    obtain ⟨d'', hrename, heq⟩ := Option.map_eq_some_iff.mp h
    obtain ⟨rfl, rfl⟩ := Prod.mk.inj heq
    exact ⟨hphase, rfl, hrename⟩
  · cases h

theorem op_of_renaming (h : p.step toml home d op = some (p', d')) (hphase : p.phase = .renaming)
    (hended : p'.phase = .ended (.ok ())) : op = .rename none := by
  cases op with
  | rename failure =>
    cases failure with
    | none => rfl
    | some error =>
      simp only [Process.step, hphase, Option.some.injEq, Prod.mk.injEq] at h
      obtain ⟨rfl, -⟩ := h
      cases hended
  | _ =>
    simp only [Process.step, hphase] at h
    cases h

theorem Orderly.step (hne : (commands false).label ≠ (commands true).label)
    (hround : toml.RoundTrips) (h : Orderly toml home commands initial first w)
    (hstep : step toml home w a = some w') :
    (InTurn w a → Lost w' ∨ Orderly toml home commands initial first w') ∧
      (¬ InTurn w a → Stale toml home commands w') := by
  obtain ⟨hs, order, l, hhistory⟩ := h
  obtain ⟨p, files, hp, rfl⟩ := step_eq_some.mp hstep
  have hmoves := moves_of_step hp
  constructor
  · intro hturn
    rcases hs.moves hmoves with hlost | hsound
    · exact .inl hlost
    rcases hhistory.moves hne hround hs hmoves
        (fun hphase hended => hturn (op_of_renaming hp hphase hended)) with
      ⟨message, rfl⟩ | hhistory'
    · exact .inl (.failed a.process message (by rw [World.after_self]; rfl))
    · exact .inr ⟨hsound, hhistory'⟩
  · intro hturn
    obtain ⟨hop, hbasis⟩ := Classical.not_imp.mp hturn
    rw [hop] at hp
    obtain ⟨hphase, rfl, hrename⟩ := step_rename hp
    exact hhistory.stale hne hround hs hphase hrename hbasis

/-- Both commands have succeeded: the catalog parses, and has the effect of both; the
machines of no command are as they were; and no label is there twice. -/
def NoLostUpdate (toml : Toml) (home : Home) (commands : Bool → Command)
    (initial : List Machine) (w : World) : Prop :=
  ∃ bytes l, w.files.read .catalog = some bytes ∧ parse toml home bytes = .ok l ∧
    (∀ i, (commands i).Done l) ∧ l.filter (Other commands) = initial.filter (Other commands) ∧
    (l.map Machine.label).Nodup

/-- Two commands that have succeeded in turn have both had their effect. -/
theorem Orderly.noLostUpdate (hne : (commands false).label ≠ (commands true).label)
    (h : Orderly toml home commands initial first w)
    (hok : ∀ i, (w.processes i).phase = .ended (.ok ())) :
    NoLostUpdate toml home commands initial w ↔
      ((initial.filter (Unremoved commands)).map Machine.label).Nodup := by
  obtain ⟨hs, order, l, hhistory⟩ := h
  have hdone : ∀ i, (commands i).Done l := by
    intro i
    by_cases hi : i ∈ order
    · exact hhistory.savedBy.done hne hi
    · exact (hhistory.unsaved i hi (hok i)).2
  have hthere : w.files.entry .catalog ≠ none := by
    by_cases hnil : order = []
    · -- Neither has saved anything: what `add` has found is in the file.
      intro hnone
      obtain ⟨hadd, hfound⟩ := hhistory.unsaved true (by simp [hnil]) (hok true)
      have hnow := hhistory.now
      rw [hnone, listAt, Except.ok.injEq] at hnow
      subst hnow
      cases hc : commands true with
      | add label target =>
        rw [hc] at hfound
        obtain ⟨m, hm, -⟩ := hfound
        cases hm
      | remove label =>
        rw [hc] at hadd
        cases hadd
    · exact hhistory.there hnil
  obtain ⟨inode, hentry⟩ := Option.ne_none_iff_exists'.mp hthere
  have hread : w.files.read .catalog = some (w.files.content inode) := by
    rw [Directory.read, hentry]
    rfl
  have hparse : parse toml home (w.files.content inode) = .ok l := by
    have hnow := hhistory.now
    rw [hentry] at hnow
    exact hnow
  -- Nothing that is removed is left.
  have hall : l.filter (Unremoved commands) = l := by
    refine List.filter_eq_self.mpr fun m hm => ?_
    rw [Unremoved, decide_eq_true_eq]
    intro i hi
    have hremoved := hdone i
    rw [hi] at hremoved
    exact hremoved m hm rfl
  rw [← hhistory.savedBy.nodup hne, hall]
  constructor
  · rintro ⟨bytes, l', hbytes, hl', -, -, hnodup⟩
    rw [hread, Option.some.injEq] at hbytes
    subst hbytes
    rw [hparse, Except.ok.injEq] at hl'
    exact hl' ▸ hnodup
  · exact fun hnodup =>
      ⟨_, l, hread, hparse, hdone, hhistory.savedBy.others, hnodup⟩

theorem Stale.not_noLostUpdate (h : Stale toml home commands w) :
    ¬ NoLostUpdate toml home commands initial w := by
  obtain ⟨-, i, l, hnow, hnot⟩ := h
  rintro ⟨bytes, l', hread, hparse, hdone, -⟩
  obtain ⟨inode, hentry, rfl⟩ := Option.map_eq_some_iff.mp hread
  rw [hentry, listAt, hparse, Except.ok.injEq] at hnow
  exact hnot (hnow ▸ hdone i)

/-- What a run comes to: both in turn, or a command that fails, or one whose effect is
taken back. -/
theorem Started.runs (hne : (commands false).label ≠ (commands true).label)
    (hround : toml.RoundTrips) (hstart : Started toml home commands initial w₀)
    (h : Steps (step toml home) (fun _ _ => True) w₀ w) :
    Lost w ∨ Stale toml home commands w ∨
      Orderly toml home commands initial (w₀.files.entry .catalog) w ∧
        Steps (step toml home) InTurn w₀ w := by
  induction h with
  | refl =>
    obtain ⟨hs, hhistory⟩ := hstart.sound
    exact .inr (.inr ⟨⟨hs, [], initial, hhistory⟩, .refl _⟩)
  | @tail w₁ w₂ a _ _ hstep ih =>
    rcases ih with hlost | hstale | ⟨horderly, hturns⟩
    · exact .inl (hlost.step hstep)
    · exact .inr (.inl (hstale.step hstep))
    · obtain ⟨hin, hout⟩ := horderly.step hne hround hstep
      by_cases hturn : InTurn w₁ a
      · rcases hin hturn with hlost | horderly'
        · exact .inl hlost
        · exact .inr (.inr ⟨horderly', hturns.tail hturn hstep⟩)
      · exact .inr (.inl (hout hturn))

/-- In turn, two commands come to no stale catalog. -/
theorem Started.runs_in_turn (hne : (commands false).label ≠ (commands true).label)
    (hround : toml.RoundTrips) (hstart : Started toml home commands initial w₀)
    (h : Steps (step toml home) InTurn w₀ w) :
    Lost w ∨ Orderly toml home commands initial (w₀.files.entry .catalog) w := by
  have hsound := hstart.sound
  refine h.invariant (I := fun w => Lost w ∨ Orderly toml home commands initial _ w) ?_
    (.inr ⟨hsound.1, [], initial, hsound.2⟩)
  rintro w a w' (hlost | horderly) hturn hstep
  · exact .inl (hlost.step hstep)
  · exact (horderly.step hne hround hstep).1 hturn

/-- **Two commands that both succeed** have both had their effect if and only if each
replaced the file it had loaded, where no label that stays is in the list twice. -/
theorem no_lost_update_iff (hne : (commands false).label ≠ (commands true).label)
    (hround : toml.RoundTrips) (hstart : Started toml home commands initial w₀)
    (hrun : Steps (step toml home) (fun _ _ => True) w₀ w)
    (hok : ∀ i, (w.processes i).phase = .ended (.ok ())) :
    NoLostUpdate toml home commands initial w ↔
      Steps (step toml home) InTurn w₀ w ∧
        ((initial.filter (Unremoved commands)).map Machine.label).Nodup := by
  constructor
  · intro hkept
    rcases hstart.runs hne hround hrun with hlost | hstale | ⟨horderly, hturns⟩
    · exact absurd hok hlost.not_done
    · exact absurd hkept hstale.not_noLostUpdate
    · exact ⟨hturns, (horderly.noLostUpdate hne hok).mp hkept⟩
  · rintro ⟨hturns, hnodup⟩
    rcases hstart.runs_in_turn hne hround hturns with hlost | horderly
    · exact absurd hok hlost.not_done
    · exact (horderly.noLostUpdate hne hok).mpr hnodup

end

/-! ### Two machines added to an empty home -/

def workbox : Machine := Machine.new "workbox".toList "me@workbox".toList "7f3a91c2".toList

def nano : Machine := Machine.new "nano4".toList "nano4".toList "0b6d5e14".toList

/-- A machine as it stands in the file. -/
def machineText (m : Machine) : Text :=
  "[[machine]]\nid = \"".toList ++ m.id ++ "\"\nlabel = \"".toList ++ m.label ++
    "\"\nssh = \"".toList ++ m.ssh ++ "\"\nenabled = true\n".toList

def catalogText (machines : List Machine) : Bytes :=
  (['\n'].intercalate (machines.map machineText)).map fun c => c.toNat.toUInt8

/-- The catalogs that come up below. -/
def catalogs : List (List Machine × Str) :=
  [([workbox], ⟨catalogText [workbox], by decide +kernel⟩),
    ([nano], ⟨catalogText [nano], by decide +kernel⟩),
    ([workbox, nano], ⟨catalogText [workbox, nano], by decide +kernel⟩)]

/-- TOML, of these. -/
def catalogToml : Toml where
  encode machines := match catalogs.find? (·.1 = machines) with
    | some entry => .ok entry.2
    | none => .error "no catalog".toList
  decode text := match catalogs.find? (·.2 = text) with
    | some entry => .ok entry.1
    | none => .error "no catalog".toList

theorem catalogToml_roundTrips : catalogToml.RoundTrips := by
  intro machines text h
  have hall : ∀ entry ∈ catalogs, catalogToml.decode entry.2 = .ok entry.1 := by decide +kernel
  simp only [catalogToml] at h
  split at h
  · next entry hfind =>
    obtain rfl := Except.ok.inj h
    have hfound := List.find?_some hfind
    have hsame : entry.1 = machines := of_decide_eq_true hfound
    exact hsame ▸ hall entry (List.mem_of_find?_eq_some hfind)
  · cases h

def emptyHome : Home := Home.atDir (ascii "/srv/one")

def adds : Bool → Command
  | false => .add workbox.label workbox.ssh
  | true => .add nano.label nano.ssh

def emptyFiles : Files where
  entry := fun _ => none
  content := fun _ => []
  fresh := 0
  old := nofun

def emptyWorld : World := ⟨emptyFiles, fun i => Process.start (adds i)⟩

theorem emptyWorld_started : Started catalogToml emptyHome adds [] emptyWorld :=
  ⟨fun _ => rfl, nofun, rfl⟩

/-- `add` has found the host ready, and saves. -/
def savesMachine (i : Bool) (m : Machine) : List Action :=
  [.connect none (m.id.drop 2), .create none, .openPartial none, .write 4096, .rename none].map
    (Action.mk i)

/-- One adds its machine after the other. -/
def oneByOne : List Action :=
  [⟨true, .check none⟩, ⟨false, .check none⟩, ⟨false, .openCatalog none⟩] ++
    savesMachine false workbox ++
    [⟨true, .openCatalog none⟩, ⟨true, .read 4096⟩, ⟨true, .read 4096⟩] ++ savesMachine true nano

/-- Both have loaded the list before either saves. -/
def bothAtOnce : List Action :=
  [⟨true, .check none⟩, ⟨false, .check none⟩, ⟨false, .openCatalog none⟩,
    ⟨true, .openCatalog none⟩] ++ savesMachine false workbox ++ savesMachine true nano

theorem both_adds_kept : ∃ w, Steps (step catalogToml emptyHome) InTurn emptyWorld w ∧
    (∀ i, (w.processes i).phase = .ended (.ok ())) ∧
    NoLostUpdate catalogToml emptyHome adds [] w := by
  have hrun : Steps (step catalogToml emptyHome) InTurn emptyWorld
      (runs (step catalogToml emptyHome) InTurn emptyWorld oneByOne) :=
    steps_runs emptyWorld oneByOne
  have hok : ∀ i, ((runs (step catalogToml emptyHome) InTurn emptyWorld oneByOne).processes i).phase
      = .ended (.ok ()) := by decide +kernel
  exact ⟨_, hrun, hok, (no_lost_update_iff (by decide +kernel) catalogToml_roundTrips
    emptyWorld_started (hrun.mono fun _ _ _ => trivial) hok).mpr ⟨hrun, List.nodup_nil⟩⟩

/-- Both say that they have saved their machine, and one of the two is not in the file. -/
theorem one_add_is_lost :
    ¬ ∀ (toml : Toml) (home : Home) (commands : Bool → Command) (initial : List Machine)
      (w₀ w : World), (commands false).label ≠ (commands true).label → toml.RoundTrips →
      Started toml home commands initial w₀ → Steps (step toml home) (fun _ _ => True) w₀ w →
      (∀ i, (w.processes i).phase = .ended (.ok ())) → (initial.map Machine.label).Nodup →
      NoLostUpdate toml home commands initial w := by
  intro h
  have hfinal : (exec (step catalogToml emptyHome) emptyWorld bothAtOnce).any (fun w =>
      decide (∀ i, (w.processes i).phase = .ended (.ok ())) &&
        decide ((w.files.read .catalog).map (parse catalogToml emptyHome) = some (.ok [nano]))) := by
    decide +kernel
  obtain ⟨w, hw, hprops⟩ := (Option.any_eq_true _ _).mp hfinal
  rw [Bool.and_eq_true, decide_eq_true_eq, decide_eq_true_eq] at hprops
  obtain ⟨bytes, l, hread, hparse, hdone, -⟩ := h catalogToml emptyHome adds [] emptyWorld w
    (by decide +kernel) catalogToml_roundTrips emptyWorld_started (steps_of_exec bothAtOnce hw)
    hprops.1 List.nodup_nil
  have hlist : l = [nano] := by
    have hboth := hprops.2
    rw [hread, Option.map_some, hparse, Option.some.injEq, Except.ok.injEq] at hboth
    exact hboth
  subst hlist
  obtain ⟨m, hm, hlabel, -⟩ := hdone false
  rw [List.mem_singleton.mp hm] at hlabel
  exact absurd hlabel (by decide +kernel)

end Client

end FilePeeker
