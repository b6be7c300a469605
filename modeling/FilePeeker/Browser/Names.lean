import FilePeeker.Browser.Refines
import FilePeeker.Path.Reading

/-!
# Rows by their names

The path of a row is made of the names on the way to it.  Names that have no
separator in them can be read off the path again (`descend_inj`); so no path is in
two rows where siblings have different names (`nodup_paths`).
-/

namespace FilePeeker.Browser

variable {μ : Type}

/-- A name is not empty and has no separator in it. -/
def IsName (name : PathString) : Prop := name.escaped.bytes ≠ [] ∧ slash ∉ name.escaped.bytes

instance : DecidablePred IsName := fun _ => inferInstanceAs (Decidable (_ ∧ _))

/-- What stands before a name in the path of a child. -/
def stem (path : Bytes) : Bytes :=
  if path = [] then [] else if path.getLast? = some slash then path else path ++ [slash]

theorem childPath_bytes (parent name : PathString) :
    (childPath parent name).escaped.bytes = stem parent.escaped.bytes ++ name.escaped.bytes := by
  unfold childPath PathString.join stem
  by_cases hnil : parent.escaped.bytes = []
  · simp [hnil]
  · rw [if_neg hnil, if_neg hnil]
    split
    · next hlast => simp [Str.append, Str.empty]
    · next hlast => simp [Str.append, Str.slash]

theorem stem_childPath {parent name : PathString} (h : IsName name) :
    stem (childPath parent name).escaped.bytes =
      stem parent.escaped.bytes ++ name.escaped.bytes ++ [slash] := by
  have hlast : (stem parent.escaped.bytes ++ name.escaped.bytes).getLast? ≠ some slash := by
    rw [List.getLast?_append_of_ne_nil _ h.1]
    intro heq
    exact h.2 (List.mem_of_getLast? heq)
  rw [childPath_bytes, stem, if_neg (by simp [h.1]), if_neg hlast]

/-- A path of names beneath a root. -/
theorem descend_bytes : ∀ {names : List PathString} {name root : PathString},
    (∀ n ∈ name :: names, IsName n) → ((name :: names).foldl childPath root).escaped.bytes =
      stem root.escaped.bytes ++
        Path.joined ((name :: names).map fun n => n.escaped.bytes) := by
  intro names
  induction names with
  | nil =>
    intro name root _
    show (childPath root name).escaped.bytes = _
    rw [childPath_bytes]
    simp [Path.joined]
  | cons next names ih =>
    intro name root h
    rw [List.foldl_cons, ih fun n hn => h n (by simp [hn]), stem_childPath (h name (by simp))]
    simp [Path.joined, List.intercalate_cons_cons]

/-- Names are told by the path they make. -/
theorem descend_inj {root : PathString} {names names' : List PathString} (hne : names ≠ [])
    (hne' : names' ≠ []) (h : ∀ n ∈ names, IsName n) (h' : ∀ n ∈ names', IsName n)
    (heq : names.foldl childPath root = names'.foldl childPath root) : names = names' := by
  have segments {names : List PathString} (h : ∀ n ∈ names, IsName n) :
      ∀ s ∈ names.map fun n => n.escaped.bytes, slash ∉ s := by
    intro s hs
    obtain ⟨n, hn, rfl⟩ := List.mem_map.mp hs
    exact (h n hn).2
  obtain ⟨name, rest, rfl⟩ := List.exists_cons_of_ne_nil hne
  obtain ⟨name', rest', rfl⟩ := List.exists_cons_of_ne_nil hne'
  have hbytes := congrArg (fun path : PathString => path.escaped.bytes) heq
  simp only [descend_bytes h, descend_bytes h', List.append_cancel_left_eq] at hbytes
  have hsplit := congrArg (List.splitOn slash) hbytes
  rw [Path.joined, Path.joined, List.splitOn_intercalate slash (segments h) (by simp),
    List.splitOn_intercalate slash (segments h') (by simp)] at hsplit
  refine List.map_injective_iff.mpr ?_ hsplit
  intro a b hab
  cases a
  cases b
  exact congrArg _ (Str.ext_bytes hab)

def Item.name (item : Item μ) : PathString := item.entry.name

/-- The path of a row is that of the names on the way to it. -/
theorem paths_eq : ∀ {h : Hedge (Item μ)} {above : Above} {root : PathString}
    {addr : List PathString}, above.path = addr.foldl childPath root →
    (h.flatten Above.down Above.row above).map Row.path =
      (h.addresses Item.name addr).map (List.foldl childPath root) := by
  intro h
  induction h with
  | nil => intro above root addr _; rfl
  | cons item below next ihb ihn =>
    intro above root addr habove
    have hchild : childPath above.path item.entry.name =
        (addr ++ [item.name]).foldl childPath root := by
      rw [List.foldl_append, ← habove]
      rfl
    rw [Hedge.flatten_cons, Hedge.addresses, Hedge.flatten_cons, List.map_cons, List.map_cons,
      List.map_append, List.map_append]
    congr 1
    congr 1
    · exact @ihb (above.down item) _ _ hchild
    · exact ihn habove

theorem names_of_address : ∀ {h : Hedge (Item μ)} {addr x : List PathString},
    (∀ item ∈ h.labels, IsName item.name) → (∀ n ∈ addr, IsName n) → x ∈ h.addresses Item.name addr →
    x ≠ [] ∧ ∀ n ∈ x, IsName n := by
  intro h
  induction h with
  | nil => intro addr x _ _ hx; exact absurd hx List.not_mem_nil
  | cons item below next ihb ihn =>
    intro addr x hitems haddr hx
    have hitem := hitems item (by simp [Hedge.labels])
    have hmore : ∀ n ∈ addr ++ [item.name], IsName n := by
      intro n hn
      rcases List.mem_append.mp hn with hn | hn
      · exact haddr n hn
      · rw [List.mem_singleton.mp hn]
        exact hitem
    rw [Hedge.addresses, Hedge.flatten_cons, List.mem_cons, List.mem_append] at hx
    rcases hx with rfl | hx | hx
    · exact ⟨by simp, hmore⟩
    · exact ihb (fun i hi => hitems i (by simp [Hedge.labels, hi])) hmore hx
    · exact ihn (fun i hi => hitems i (by simp [Hedge.labels, hi])) haddr hx

/-- **No path is in two rows** where siblings have different names. -/
theorem nodup_paths {d : Directories μ}
    (htops : ((d.tops.tops.map Item.entry).map DirectoryEntry.name).Nodup)
    (hall : d.tops.All Above.down Item.entry (fun _ _ es => (es.map DirectoryEntry.name).Nodup)
      { path := d.rootPath, depth := 0 })
    (hnames : ∀ item ∈ d.tops.labels, IsName item.name) : (d.rows.map Row.path).Nodup := by
  have hpaths : d.rows.map Row.path =
      (d.tops.addresses Item.name []).map (List.foldl childPath d.rootPath) := paths_eq rfl
  rw [hpaths]
  refine List.Nodup.map_on ?_ (Hedge.nodup_addresses (g := Item.entry) (fun _ => rfl) htops hall)
  intro x hx y hy heq
  obtain ⟨hx, hxn⟩ := names_of_address hnames (by simp) hx
  obtain ⟨hy, hyn⟩ := names_of_address hnames (by simp) hy
  exact descend_inj hx hy hxn hyn heq

end FilePeeker.Browser
