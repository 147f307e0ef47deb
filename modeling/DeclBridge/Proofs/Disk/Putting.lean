import DeclBridge.Proofs.Disk.Expansion
import Mathlib.Data.List.Sort

/-!
Disks with one more file, or with another content of a file. Paths lead where they led before, apart
from those that lead to the file.
-/

namespace DeclBridge.Disk

variable {d : Disk} {l m k : Location} {e e' : Entry} {content : ByteArray} {path name : String}

theorem get?_put_self (hl : l ≠ []) : (d.put l e).get? l = some e := by
  rw [get?, if_neg hl, put, List.lookup_cons_self]

theorem lookup_filter_of_ne (entries : List (Location × Entry)) (h : m ≠ l) :
    (entries.filter (·.1 ≠ l)).lookup m = entries.lookup m := by
  induction entries with
  | nil => rfl
  | cons entry entries ih =>
      obtain ⟨n, e⟩ := entry
      by_cases hn : n = l
      · rw [List.filter_cons_of_neg (by simpa using hn), ih, List.lookup_cons,
          beq_false_of_ne (by rwa [hn])]
      · rw [List.filter_cons_of_pos (by simpa using hn), List.lookup_cons, List.lookup_cons, ih]

theorem get?_put_of_ne (h : m ≠ l) : (d.put l e).get? m = d.get? m := by
  rw [get?, get?, put, List.lookup_cons, beq_false_of_ne h, lookup_filter_of_ne _ h]

theorem put_put : (d.put l e).put l e' = d.put l e' := by
  simp [put]

theorem IsTree.put (hd : d.IsTree) (hl : ∀ name ∈ l, IsName name) : (d.put l e).IsTree := by
  constructor
  · rw [Disk.put, List.map_cons, List.nodup_cons]
    refine ⟨by simp, ?_⟩
    exact (List.filter_sublist.map Prod.fst).nodup hd.nodup
  · intro entry hentry
    rcases List.mem_cons.mp hentry with rfl | hentry
    · exact hl
    · exact hd.isName entry (List.mem_of_mem_filter hentry)

theorem ne_nil_of_get? (hl : d.get? l ≠ some .folder) : l ≠ [] := by
  rintro rfl
  exact hl rfl

theorem get?_put_eq_folder (hl : d.get? l ≠ some .folder) :
    (d.put l (.file content)).get? m = some .folder ↔ d.get? m = some .folder := by
  by_cases hm : m = l
  · subst hm
    simp [get?_put_self (ne_nil_of_get? hl), hl]
  · rw [get?_put_of_ne hm]

theorem walk_eq_ok_of_not_folder {names : List String} (hm : d.get? m ≠ some .folder) :
    d.walk m names = .ok k ↔ names = [] ∧ k = m := by
  cases names with
  | nil => exact ⟨fun h => ⟨rfl, (Except.ok.inj h).symm⟩, fun h => congrArg _ h.2.symm⟩
  | cons name names =>
      rw [walk, if_pos hm]
      constructor
      · intro h
        cases h
      · intro h
        cases h.1

theorem walk_cons_eq_ok {names : List String} :
    d.walk m (name :: names) = .ok k ↔ d.get? m = some .folder ∧
      ((name = "" ∨ name = ".") ∧ d.walk m names = .ok k ∨
        name = ".." ∧ d.walk m.dropLast names = .ok k ∨
        ((name ≠ "" ∧ name ≠ "." ∧ name ≠ "..") ∧ name.utf8ByteSize ≤ maxNameSize) ∧
          (d.get? (m ++ [name])).isSome ∧ d.walk (m ++ [name]) names = .ok k) := by
  rw [walk]
  split_ifs with hfolder hstay hup hlong hmissing
  · constructor
    · intro h
      cases h
    · intro h
      exact absurd h.1 hfolder
  · have hdots : name ≠ ".." := by
      rcases hstay with rfl | rfl <;> decide
    have hentry : ¬ (name ≠ "" ∧ name ≠ "." ∧ name ≠ "..") := fun h => hstay.elim h.1 h.2.1
    simp only [not_not.mp hfolder, hstay, hdots, hentry, true_and, false_and, or_false]
  · simp [not_not.mp hfolder, hup]
  · simp [not_not.mp hfolder, hup, hstay, Nat.not_le.mpr hlong]
  · simp [hup, hstay, Option.isNone_iff_eq_none.mp hmissing]
  · obtain ⟨hempty, hdot⟩ := not_or.mp hstay
    have hsome : (d.get? (m ++ [name])).isSome := by
      simpa [Option.isSome_iff_ne_none] using hmissing
    simp only [not_not.mp hfolder, hup, hempty, hdot, hsome, Nat.not_lt.mp hlong, ne_eq,
      not_false_eq_true, true_and, false_or, or_self, false_and]

theorem walk_put {names : List String} (hl : d.get? l ≠ some .folder)
    (h : d.walk m names = .ok k) : (d.put l (.file content)).walk m names = .ok k := by
  induction names generalizing m with
  | nil => exact h
  | cons name names ih =>
      rw [walk_cons_eq_ok] at h ⊢
      rw [get?_put_eq_folder hl]
      refine ⟨h.1, ?_⟩
      rcases h.2 with ⟨hstay, h⟩ | ⟨hup, h⟩ | ⟨hname, hentry, h⟩
      · exact .inl ⟨hstay, ih h⟩
      · exact .inr (.inl ⟨hup, ih h⟩)
      · refine .inr (.inr ⟨hname, ?_, ih h⟩)
        by_cases hm : m ++ [name] = l
        · rw [hm, get?_put_self (ne_nil_of_get? hl)]
          rfl
        · rwa [get?_put_of_ne hm]

theorem walk_put_of_ne {names : List String} (hl : d.get? l ≠ some .folder) (hk : k ≠ l) :
    (d.put l (.file content)).walk m names = .ok k ↔ d.walk m names = .ok k := by
  refine ⟨fun h => ?_, walk_put hl⟩
  induction names generalizing m with
  | nil => exact h
  | cons name names ih =>
      rw [walk_cons_eq_ok] at h ⊢
      rw [get?_put_eq_folder hl] at h
      refine ⟨h.1, ?_⟩
      rcases h.2 with ⟨hstay, h⟩ | ⟨hup, h⟩ | ⟨hname, hentry, h⟩
      · exact .inl ⟨hstay, ih h⟩
      · exact .inr (.inl ⟨hup, ih h⟩)
      · -- A walk that comes to the file ends there.
        have hm : m ++ [name] ≠ l := by
          intro hm
          have hfile : (d.put l (.file content)).get? (m ++ [name]) ≠ some .folder := by
            rwa [ne_eq, get?_put_eq_folder hl, hm]
          exact hk (((walk_eq_ok_of_not_folder hfile).mp h).2.trans hm)
        rw [get?_put_of_ne hm] at hentry
        exact .inr (.inr ⟨hname, hentry, ih h⟩)

/-! ### Paths -/

/-- Whether a path leads to a location. -/
def leadsTo (d : Disk) (l : Location) (path : String) : Bool :=
  (d.resolve path).toOption == some l

theorem leadsTo_iff : d.leadsTo l path = true ↔ d.resolve path = .ok l := by
  rw [leadsTo]
  cases d.resolve path <;> simp [Except.toOption]

theorem resolve_put (hl : d.get? l ≠ some .folder) (h : d.resolve path = .ok k) :
    (d.put l (.file content)).resolve path = .ok k := by
  obtain ⟨hcheck, hwalk⟩ := resolve_eq_ok_iff.mp h
  exact resolve_eq_ok_iff.mpr ⟨hcheck, walk_put hl hwalk⟩

theorem resolve_put_of_ne (hl : d.get? l ≠ some .folder) (hk : k ≠ l) :
    (d.put l (.file content)).resolve path = .ok k ↔ d.resolve path = .ok k := by
  rw [resolve_eq_ok_iff, resolve_eq_ok_iff]
  exact and_congr_right fun _ => walk_put_of_ne hl hk

theorem isFolder_iff :
    d.isFolder path = true ↔ ∃ k, d.resolve path = .ok k ∧ d.get? k = some .folder := by
  rw [isFolder]
  cases d.resolve path <;> simp

theorem isFile_iff :
    d.isFile path = true ↔
      ∃ k content, d.resolve path = .ok k ∧ d.get? k = some (.file content) := by
  rw [isFile]
  cases d.resolve path with
  | error fault => simp
  | ok k =>
      rcases hk : d.get? k with _ | content | _ <;> simp [hk]

theorem isFolder_put (hl : d.get? l ≠ some .folder) :
    (d.put l (.file content)).isFolder path = d.isFolder path := by
  rw [Bool.eq_iff_iff, isFolder_iff, isFolder_iff]
  simp only [get?_put_eq_folder hl]
  refine exists_congr fun k => and_congr_left fun hk => resolve_put_of_ne hl ?_
  rintro rfl
  exact hl hk

theorem isFile_put (hl : d.get? l ≠ some .folder)
    (h : (d.put l (.file content)).leadsTo l path = false) :
    (d.put l (.file content)).isFile path = d.isFile path := by
  rw [Bool.eq_iff_iff, isFile_iff, isFile_iff]
  refine exists_congr fun k => exists_congr fun other => ?_
  by_cases hk : k = l
  · -- A path that leads to the file on either disk leads there when it is put.
    subst hk
    rw [← Bool.not_eq_true, leadsTo_iff] at h
    exact iff_of_false (fun hfile => h hfile.1) (fun hfile => h (resolve_put hl hfile.1))
  · rw [resolve_put_of_ne hl hk, get?_put_of_ne hk]

theorem expand_of_resolve (hpath : d.resolve path = .ok k) (hfolder : d.get? k = some .folder) :
    d.expand path = ((d.sourceNames k).map (join path)).filter d.isFile := by
  rw [expand, hpath]
  exact if_pos hfolder

/-- A name under which the file is put is that of a path that leads to the file. -/
theorem IsTree.ne_of_isFile_join (hd : d.IsTree) (hpath : d.resolve path = .ok k)
    (hfolder : d.get? k = some .folder) (hl : (d.get? l).isSome)
    (hleads : d.leadsTo l (join path name) = false) (hfile : d.isFile (join path name) = true) :
    k ++ [name] ≠ l := by
  rintro rfl
  obtain ⟨m, content, hresolve, -⟩ := isFile_iff.mp hfile
  have hsize := (checkPath_eq_ok_iff.mp (resolve_eq_ok_iff.mp hresolve).1).2.2
  rw [← Bool.not_eq_true, leadsTo_iff] at hleads
  exact hleads ((hd.resolve_join_iff hpath hfolder hl).mpr hsize)

/-- Where a file is put, a path stands for the same other files in the same order. -/
theorem filter_expand_put (hd : d.IsTree) (hl : d.get? l ≠ some .folder)
    (hnames : ∀ name ∈ l, IsName name) (path : String) :
    ((d.put l (.file content)).expand path).filter
        (fun file => !(d.put l (.file content)).leadsTo l file) =
      (d.expand path).filter (fun file => !(d.put l (.file content)).leadsTo l file) := by
  cases hfolder : d.isFolder path with
  | false =>
      rw [expand_of_not_isFolder hfolder, expand_of_not_isFolder (by rwa [isFolder_put hl])]
  | true =>
      obtain ⟨k, hpath, hk⟩ := isFolder_iff.mp hfolder
      have hput := hd.put (e := .file content) hnames
      have hput' : ((d.put l (.file content)).get? l).isSome := by
        rw [get?_put_self (ne_nil_of_get? hl)]
        rfl
      have hk' : (d.put l (.file content)).get? k = some .folder := (get?_put_eq_folder hl).mpr hk
      have hpath' : (d.put l (.file content)).resolve path = .ok k := resolve_put hl hpath
      rw [expand_of_resolve hpath hk, expand_of_resolve hpath' hk', List.filter_map,
        List.filter_map, List.filter_map, List.filter_map, List.filter_filter, List.filter_filter]
      -- Both lists of names are sorted, so it is enough that they hold the same names.
      refine congrArg _ (((hput.pairwise_sourceNames k).filter _).eq_of_mem_iff
        ((hd.pairwise_sourceNames k).filter _) ?_)
      intro name
      simp only [List.mem_filter, Function.comp_apply, Bool.and_eq_true, Bool.not_eq_true',
        hput.mem_sourceNames_iff, hd.mem_sourceNames_iff]
      constructor
      · rintro ⟨hname, hleads, hfile⟩
        rw [get?_put_of_ne (hput.ne_of_isFile_join hpath' hk' hput' hleads hfile)] at hname
        exact ⟨hname, hleads, by rwa [isFile_put hl hleads] at hfile⟩
      · rintro ⟨hname, hleads, hfile⟩
        rw [← isFile_put hl hleads] at hfile
        refine ⟨?_, hleads, hfile⟩
        rwa [get?_put_of_ne (hput.ne_of_isFile_join hpath' hk' hput' hleads hfile)]

theorem resolve_put_content (hl : d.get? l ≠ some .folder) (content other : ByteArray) :
    (d.put l (.file content)).resolve path = .ok k ↔
      (d.put l (.file other)).resolve path = .ok k := by
  have hput (content other : ByteArray) (h : (d.put l (.file content)).resolve path = .ok k) :
      (d.put l (.file other)).resolve path = .ok k := by
    rw [← put_put (e := .file content)]
    exact resolve_put (by rwa [ne_eq, get?_put_eq_folder hl]) h
  exact ⟨hput content other, hput other content⟩

theorem leadsTo_put_content (hl : d.get? l ≠ some .folder) (content other : ByteArray) :
    (d.put l (.file content)).leadsTo l path = (d.put l (.file other)).leadsTo l path := by
  rw [Bool.eq_iff_iff, leadsTo_iff, leadsTo_iff]
  exact resolve_put_content hl content other

theorem isFile_of_leadsTo (hl : l ≠ []) (h : (d.put l (.file content)).leadsTo l path = true) :
    (d.put l (.file content)).isFile path = true :=
  isFile_iff.mpr ⟨l, content, leadsTo_iff.mp h, get?_put_self hl⟩

/-- What a path stands for does not depend on the content of a file. -/
theorem expand_put_content (hl : d.get? l ≠ some .folder) (content other : ByteArray)
    (path : String) :
    (d.put l (.file content)).expand path = (d.put l (.file other)).expand path := by
  cases hfolder : d.isFolder path with
  | false =>
      rw [expand_of_not_isFolder (by rwa [isFolder_put hl]),
        expand_of_not_isFolder (by rwa [isFolder_put hl])]
  | true =>
      obtain ⟨k, hpath, hk⟩ := isFolder_iff.mp hfolder
      have hnames : (d.put l (.file content)).sourceNames k =
          (d.put l (.file other)).sourceNames k := by
        simp only [sourceNames, put, List.filterMap_cons, sourceName?]
      have hfile : (d.put l (.file content)).isFile = (d.put l (.file other)).isFile := by
        funext file
        have hleads := @leadsTo_put_content _ _ file hl content other
        cases h : (d.put l (.file content)).leadsTo l file with
        | false => rw [isFile_put hl h, isFile_put hl (hleads.symm.trans h)]
        | true =>
            rw [isFile_of_leadsTo (ne_nil_of_get? hl) h,
              isFile_of_leadsTo (ne_nil_of_get? hl) (hleads.symm.trans h)]
      rw [expand_of_resolve (resolve_put hl hpath) ((get?_put_eq_folder hl).mpr hk),
        expand_of_resolve (resolve_put hl hpath) ((get?_put_eq_folder hl).mpr hk), hnames, hfile]

/-! ### Where an output goes -/

/-- The names on the way to a folder are names of entries. -/
theorem IsTree.isName_of_folder (hd : d.IsTree) (h : d.get? k = some .folder) :
    ∀ name ∈ k, IsName name := by
  rcases List.eq_nil_or_concat' k with rfl | ⟨l, name, rfl⟩
  · simp
  · exact hd.isName _ (hd.get?_eq_some_iff.mp h)

/-- The last part of a path is a name that an entry can have, unless it is empty or made of dots, or
too long. -/
theorem isName_of_mem_parts {part : String} (h : part ∈ parts path) (hnul : '\x00' ∉ path.toList)
    (hempty : part ≠ "") (hdots : ¬ (part = "." ∨ part = ".."))
    (hsize : part.utf8ByteSize ≤ maxNameSize) : IsName part := by
  obtain ⟨piece, hpiece, rfl⟩ := List.mem_map.mp h
  obtain ⟨first, pieces, hsplit, -, hslash⟩ := Text.exists_split '/' path.toList
  refine ⟨hempty, fun hdot => hdots (.inl hdot), fun hdot => hdots (.inr hdot), ?_, ?_, hsize⟩
  · rw [String.toList_ofList]
    exact hslash piece (hsplit ▸ hpiece)
  · rw [String.toList_ofList]
    exact fun hmem => hnul ((Text.isInfix_of_mem_split hpiece).subset hmem)

/-- A file is created where there is no folder, and under a name that an entry can have. -/
theorem create_eq_ok {created : Disk} (hd : d.IsTree) (h : d.create path = .ok (created, l)) :
    created = d.put l (.file .empty) ∧ d.get? l ≠ some .folder ∧ ∀ name ∈ l, IsName name := by
  rw [create] at h
  cases hcheck : checkPath path with
  | error fault =>
      rw [hcheck] at h
      cases h
  | ok _ =>
      obtain ⟨hnul, -, -⟩ := checkPath_eq_ok_iff.mp hcheck
      rw [hcheck] at h
      generalize hway : (parts path).reverse = way at h
      cases hwalk : d.walk (d.origin path) (way.dropWhile (· = "")).tail.reverse with
      | error fault =>
          simp only [hwalk, bind, Except.bind] at h
          cases h
      | ok folder =>
          simp only [hwalk, bind, Except.bind] at h
          split_ifs at h with hfolder hlast hlong hplace
          obtain ⟨hnamed, hdots⟩ := not_or.mp hlast
          rw [← not_not.mp hnamed] at hdots hlong hplace h
          cases way with
          | nil =>
              obtain ⟨first, pieces, hsplit, -⟩ := Text.exists_split '/' path.toList
              simp [parts, hsplit] at hway
          | cons name rest =>
              have hname : IsName name := by
                refine isName_of_mem_parts ?_ hnul ?_ hdots (Nat.not_lt.mp hlong)
                · rw [← List.mem_reverse, hway]
                  exact List.mem_cons_self
                · rintro rfl
                  -- An empty last part would have been dropped.
                  have hshorter := (List.dropWhile_sublist (· = "") (l := rest)).length_le
                  have hlength := congrArg List.length (not_not.mp hnamed)
                  rw [List.dropWhile_cons_of_pos (by simp), List.length_cons] at hlength
                  omega
              obtain ⟨rfl, rfl⟩ := Prod.mk.inj (Except.ok.inj h)
              refine ⟨rfl, hplace, ?_⟩
              intro other hother
              rcases List.mem_append.mp hother with hother | hother
              · exact hd.isName_of_folder (not_not.mp hfolder) other hother
              · rwa [List.mem_singleton.mp hother]

end DeclBridge.Disk
