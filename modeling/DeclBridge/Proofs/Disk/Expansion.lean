import DeclBridge.Disk.Basic
import DeclBridge.Proofs.Text.ByteOrder
import DeclBridge.Proofs.Text.Split
import Mathlib.Data.List.Lex
import Mathlib.Data.String.Basic

/-!
The files that a path stands for. A folder stands for its Go files in the order of their names, if
the paths of its entries lead to them.
-/

namespace DeclBridge.Disk

/-- Whether a text is the name of an entry in a folder. -/
def IsName (name : String) : Prop :=
  name ≠ "" ∧ name ≠ "." ∧ name ≠ ".." ∧ '/' ∉ name.toList ∧ '\x00' ∉ name.toList ∧
    name.utf8ByteSize ≤ maxNameSize

instance (name : String) : Decidable (IsName name) := by
  unfold IsName
  infer_instance

/-- Whether the entries of a disk are at different locations, each under names. -/
structure IsTree (d : Disk) : Prop where
  nodup : (d.entries.map Prod.fst).Nodup
  isName : ∀ entry ∈ d.entries, ∀ name ∈ entry.1, IsName name

variable {d : Disk} {l l' : Location} {name path : String} {e : Entry}

theorem lookup_of_mem {entries : List (Location × Entry)} (h : (entries.map Prod.fst).Nodup)
    (hmem : (l, e) ∈ entries) : entries.lookup l = some e := by
  obtain ⟨before, after, rfl⟩ := List.append_of_mem hmem
  refine List.lookup_eq_some_iff.mpr ⟨before, after, rfl, ?_⟩
  intro other hother
  rw [List.map_append, List.nodup_append] at h
  simpa using (h.2.2 other.1 (List.mem_map_of_mem hother) l (by simp)).symm

theorem IsTree.get?_eq_some_iff (hd : d.IsTree) :
    d.get? (l ++ [name]) = some e ↔ (l ++ [name], e) ∈ d.entries := by
  rw [get?, if_neg (by simp)]
  constructor
  · intro h
    obtain ⟨before, after, hentries, -⟩ := List.lookup_eq_some_iff.mp h
    simp [hentries]
  · exact lookup_of_mem hd.nodup

theorem IsTree.isName_of_isSome (hd : d.IsTree) (h : (d.get? (l ++ [name])).isSome) :
    IsName name := by
  obtain ⟨e, he⟩ := Option.isSome_iff_exists.mp h
  exact hd.isName _ (hd.get?_eq_some_iff.mp he) name (by simp)

/-! ### The names of Go files -/

theorem isSourceName_iff : isSourceName name ↔ ∃ stem, stem ≠ "" ∧ name = stem ++ ".go" := by
  rw [isSourceName, Bool.and_eq_true, List.isSuffixOf_iff_suffix, decide_eq_true_eq]
  constructor
  · rintro ⟨⟨stem, hstem⟩, hlength⟩
    have hname : name = String.ofList stem ++ ".go" := by
      rw [← String.toList_inj, ← hstem]
      simp
    refine ⟨String.ofList stem, ?_, hname⟩
    rintro hempty
    rw [hname, hempty] at hlength
    exact absurd hlength (by decide)
  · rintro ⟨stem, hne, rfl⟩
    refine ⟨⟨stem.toList, by simp⟩, ?_⟩
    have hpos : 0 < stem.length := by
      rw [← String.length_toList]
      exact List.length_pos_of_ne_nil (by simpa using hne)
    have hlength : (stem ++ ".go").length = stem.length + 3 := String.length_append ..
    omega

theorem sourceName?_eq_some_iff {folder : Location} {entry : Location × Entry} :
    sourceName? folder entry = some name ↔
      ∃ content, entry = (folder ++ [name], .file content) ∧ isSourceName name := by
  rcases entry with ⟨l, content | _⟩
  · simp only [sourceName?, Option.filter_eq_some_iff, decide_eq_true_eq, Prod.mk.injEq,
      Entry.file.injEq]
    constructor
    · rintro ⟨hlast, hfolder, hname⟩
      refine ⟨content, ⟨?_, rfl⟩, hname⟩
      rw [← hfolder, List.dropLast_append_getLast? name hlast]
    · rintro ⟨_, ⟨rfl, -⟩, hname⟩
      exact ⟨by simp, by simp, hname⟩
  · simp [sourceName?]

theorem IsTree.mem_sourceNames_iff (hd : d.IsTree) :
    name ∈ d.sourceNames l ↔
      (∃ content, d.get? (l ++ [name]) = some (.file content)) ∧ isSourceName name := by
  simp only [sourceNames, List.mem_mergeSort, List.mem_filterMap, hd.get?_eq_some_iff,
    sourceName?_eq_some_iff]
  constructor
  · rintro ⟨_, hentry, content, rfl, hname⟩
    exact ⟨⟨content, hentry⟩, hname⟩
  · rintro ⟨⟨content, hentry⟩, hname⟩
    exact ⟨_, hentry, content, rfl, hname⟩

/-- Names in a folder are sorted, and none is there twice. -/
theorem IsTree.pairwise_sourceNames (hd : d.IsTree) (l : Location) :
    (d.sourceNames l).Pairwise (· < ·) := by
  have hsorted : (d.sourceNames l).Pairwise (· ≤ ·) := by
    have h := @List.pairwise_mergeSort String (fun name other => decide (name ≤ other))
      (fun _ _ _ => by simpa using le_trans) (fun a b => by simpa using le_total a b)
      (d.entries.filterMap (sourceName? l))
    exact h.imp of_decide_eq_true
  have hnodup : (d.sourceNames l).Nodup := by
    rw [sourceNames, (List.mergeSort_perm _ _).nodup_iff, List.Nodup, List.pairwise_filterMap]
    refine (List.pairwise_map.mp hd.nodup).imp ?_
    intro entry other hne name hname _ hother hsame
    subst hsame
    obtain ⟨_, rfl, -⟩ := sourceName?_eq_some_iff.mp hname
    obtain ⟨_, rfl, -⟩ := sourceName?_eq_some_iff.mp hother
    exact hne rfl
  exact hsorted.imp₂ (fun _ _ hle hne => lt_of_le_of_ne hle hne) hnodup

/-! ### Paths in a folder -/

theorem walk_append (l : Location) (names others : List String) :
    d.walk l (names ++ others) = d.walk l names >>= (d.walk · others) := by
  induction names generalizing l with
  | nil => rfl
  | cons name names ih =>
      simp only [List.cons_append, walk, ih]
      split_ifs <;> rfl

theorem walk_of_append_empty {names : List String} (h : d.walk l (names ++ [""]) = .ok l') :
    d.walk l names = .ok l' := by
  rw [walk_append] at h
  cases hnames : d.walk l names with
  | error fault =>
      rw [hnames] at h
      cases h
  | ok folder =>
      rw [hnames] at h
      change d.walk folder [""] = .ok l' at h
      simp only [walk, true_or, if_true] at h
      split_ifs at h
      exact h

theorem walk_entry (hname : IsName name) (hfolder : d.get? l = some .folder)
    (hentry : (d.get? (l ++ [name])).isSome) : d.walk l [name] = .ok (l ++ [name]) := by
  obtain ⟨hempty, hdot, hdots, -, -, hsize⟩ := hname
  rw [walk, if_neg (by simpa using hfolder), if_neg (by simp [hempty, hdot]), if_neg hdots,
    if_neg (by omega), if_neg (by simpa [Option.isSome_iff_ne_none] using hentry)]
  rfl

/-- The path of a name in a folder has the name for its last part, behind the parts of the path of
the folder. -/
theorem exists_parts_join (path : String) (hslash : '/' ∉ name.toList) :
    ∃ before, parts (join path name) = before ++ [name] ∧
      (parts path = before ∨ parts path = before ++ [""]) := by
  rw [join]
  split
  · next hlast =>
    obtain ⟨cs, hcs⟩ : ∃ cs, path.toList = cs ++ ['/'] := by
      simpa [List.getLast?_eq_some_iff] using hlast
    refine ⟨(Text.split '/' cs).map String.ofList, ?_, .inr ?_⟩
    · rw [parts, String.toList_append, hcs, List.append_assoc, List.singleton_append,
        Text.split_append, Text.split_of_not_mem hslash]
      simp
    · rw [parts, hcs, Text.split_append, List.map_append]
      rfl
  · refine ⟨parts path, ?_, .inl rfl⟩
    have htext : (path ++ "/" ++ name).toList = path.toList ++ '/' :: name.toList := by simp
    rw [parts, htext, Text.split_append, Text.split_of_not_mem hslash]
    simp [parts]

theorem resolve_eq_ok_iff :
    d.resolve path = .ok l ↔
      checkPath path = .ok () ∧ d.walk (d.origin path) (parts path) = .ok l := by
  rw [resolve]
  cases checkPath path with
  | error fault => exact ⟨nofun, nofun⟩
  | ok _ => exact ⟨fun h => ⟨rfl, h⟩, fun h => h.2⟩

theorem checkPath_eq_ok_iff :
    checkPath path = .ok () ↔
      '\x00' ∉ path.toList ∧ path ≠ "" ∧ path.utf8ByteSize < maxPathSize := by
  rw [checkPath]
  split_ifs with hnul hempty hsize
  · simp_all
  · simp_all
  · simp [Nat.not_lt.mpr hsize]
  · exact ⟨fun _ => ⟨by simpa using hnul, hempty, Nat.not_le.mp hsize⟩, fun _ => rfl⟩

theorem origin_join (hpath : path ≠ "") : d.origin (join path name) = d.origin path := by
  obtain ⟨c, cs, hcs⟩ := List.exists_cons_of_ne_nil (by simpa using hpath : path.toList ≠ [])
  rw [origin, origin, join]
  split <;> simp [hcs]

/-- Entries of a folder are found under their paths if these are not too long. -/
theorem IsTree.resolve_join_iff (hd : d.IsTree) (hpath : d.resolve path = .ok l)
    (hfolder : d.get? l = some .folder) (hentry : (d.get? (l ++ [name])).isSome) :
    d.resolve (join path name) = .ok (l ++ [name]) ↔
      (join path name).utf8ByteSize < maxPathSize := by
  have hname : IsName name := hd.isName_of_isSome hentry
  obtain ⟨hcheck, hwalk⟩ := resolve_eq_ok_iff.mp hpath
  obtain ⟨hnul, hne, -⟩ := checkPath_eq_ok_iff.mp hcheck
  obtain ⟨before, hjoin, hbefore⟩ := exists_parts_join path hname.2.2.2.1
  have hbefore : d.walk (d.origin path) before = .ok l := by
    rcases hbefore with h | h
    · rwa [← h]
    · exact walk_of_append_empty (by rwa [← h])
  have hfound :
      d.walk (d.origin (join path name)) (parts (join path name)) = .ok (l ++ [name]) := by
    rw [origin_join hne, hjoin, walk_append, hbefore]
    exact walk_entry hname hfolder hentry
  have hnul' : '\x00' ∉ (join path name).toList := by
    rw [join]
    split <;> simp [hnul, hname.2.2.2.2.1]
  have hne' : join path name ≠ "" := by
    rw [join]
    split <;> simp [hne]
  rw [resolve_eq_ok_iff, checkPath_eq_ok_iff]
  exact ⟨fun h => h.1.2.2, fun h => ⟨⟨hnul', hne', h⟩, hfound⟩⟩

/-! ### What a path stands for -/

/-- Whether the entries of the folder that a path may lead to are found under their paths. -/
def ListsReadably (d : Disk) (path : String) : Prop :=
  ∀ l name, d.resolve path = .ok l → d.get? l = some .folder → (d.get? (l ++ [name])).isSome →
    d.resolve (join path name) = .ok (l ++ [name])

theorem IsTree.listsReadably_iff (hd : d.IsTree) :
    d.ListsReadably path ↔
      ∀ l name, d.resolve path = .ok l → d.get? l = some .folder →
        (d.get? (l ++ [name])).isSome → (join path name).utf8ByteSize < maxPathSize := by
  constructor
  · intro h l name hpath hfolder hentry
    exact (hd.resolve_join_iff hpath hfolder hentry).mp (h l name hpath hfolder hentry)
  · intro h l name hpath hfolder hentry
    exact (hd.resolve_join_iff hpath hfolder hentry).mpr (h l name hpath hfolder hentry)

theorem IsTree.listsReadably_of_size (hd : d.IsTree)
    (hsize : path.utf8ByteSize + 1 + maxNameSize < maxPathSize) : d.ListsReadably path := by
  refine hd.listsReadably_iff.mpr ?_
  intro l name _ _ hentry
  have hname : name.utf8ByteSize ≤ maxNameSize := (hd.isName_of_isSome hentry).2.2.2.2.2
  have hslash : "/".utf8ByteSize = 1 := rfl
  rw [join]
  split <;> simp only [String.utf8ByteSize_append] <;> omega

/-- The files that a path stands for: in the order of the bytes of their names the Go files directly
in the folder that it leads to, or else itself. -/
structure Expands (d : Disk) (path : String) (files : List String) : Prop where
  folder : ∀ l, d.resolve path = .ok l → d.get? l = some .folder →
    ∃ names : List String, files = names.map (join path) ∧
      names.Pairwise (fun name other => name.toUTF8.data.toList < other.toUTF8.data.toList) ∧
      ∀ name, name ∈ names ↔
        (∃ content, d.get? (l ++ [name]) = some (.file content)) ∧
          ∃ stem, stem ≠ "" ∧ name = stem ++ ".go"
  other : d.isFolder path = false → files = [path]

theorem expand_of_not_isFolder (h : d.isFolder path = false) : d.expand path = [path] := by
  rw [isFolder] at h
  rw [expand]
  cases hpath : d.resolve path with
  | error fault => rfl
  | ok l =>
      rw [hpath] at h
      exact if_neg (by simpa using h)

theorem IsTree.expand_of_folder (hd : d.IsTree) (hreadable : d.ListsReadably path)
    (hpath : d.resolve path = .ok l) (hfolder : d.get? l = some .folder) :
    d.expand path = (d.sourceNames l).map (join path) := by
  rw [expand, hpath]
  refine (if_pos hfolder).trans (List.filter_eq_self.mpr ?_)
  intro file hfile
  obtain ⟨name, hname, rfl⟩ := List.mem_map.mp hfile
  obtain ⟨⟨content, hcontent⟩, -⟩ := hd.mem_sourceNames_iff.mp hname
  have hfound := hreadable l name hpath hfolder (by simp [hcontent])
  simp [isFile, hfound, hcontent]

theorem IsTree.expands (hd : d.IsTree) (hreadable : d.ListsReadably path) :
    d.Expands path (d.expand path) := by
  constructor
  · intro l hpath hfolder
    refine ⟨d.sourceNames l, hd.expand_of_folder hreadable hpath hfolder, ?_, ?_⟩
    · exact (hd.pairwise_sourceNames l).imp Text.data_toUTF8_lt
    · intro name
      rw [hd.mem_sourceNames_iff, isSourceName_iff]
  · exact expand_of_not_isFolder

end DeclBridge.Disk
