/-!
Tables of names that are replaced as wholes, sorted by name.
-/

namespace DeclBridge

/-- A table from names to their replacements. -/
structure Overrides where
  entries : List (String × String)
  sorted : entries.Pairwise fun a b => a.1 < b.1

namespace Overrides

instance : DecidableEq Overrides := fun a b =>
  if h : a.entries = b.entries then isTrue (by cases a; cases b; simp_all)
  else isFalse fun heq => h (heq ▸ rfl)

def empty : Overrides := ⟨[], .nil⟩

def get? (o : Overrides) (name : String) : Option String :=
  o.entries.lookup name

/-- Entries with one more, which takes the place of an entry for the same name. -/
def insertSorted (name replacement : String) : List (String × String) → List (String × String)
  | [] => [(name, replacement)]
  | entry :: entries =>
      if name < entry.1 then (name, replacement) :: entry :: entries
      else if entry.1 < name then entry :: insertSorted name replacement entries
      else (name, replacement) :: entries

theorem mem_insertSorted {name replacement : String} {entries : List (String × String)}
    {e : String × String} (h : e ∈ insertSorted name replacement entries) :
    e = (name, replacement) ∨ e ∈ entries := by
  induction entries with
  | nil => simpa [insertSorted] using h
  | cons entry entries ih =>
      simp only [insertSorted] at h
      split at h
      · simpa using h
      · split at h
        · rcases List.mem_cons.1 h with rfl | h
          · simp
          · rcases ih h with h | h <;> simp [h]
        · rcases List.mem_cons.1 h with h | h <;> simp [h]

theorem pairwise_insertSorted {name replacement : String} {entries : List (String × String)}
    (h : entries.Pairwise fun a b => a.1 < b.1) :
    (insertSorted name replacement entries).Pairwise fun a b => a.1 < b.1 := by
  induction entries with
  | nil => simp [insertSorted]
  | cons entry entries ih =>
      obtain ⟨hentry, hentries⟩ := List.pairwise_cons.1 h
      simp only [insertSorted]
      split
      · rename_i hlt
        refine List.pairwise_cons.2 ⟨fun e he => ?_, h⟩
        rcases List.mem_cons.1 he with rfl | he
        · exact hlt
        · exact String.lt_trans hlt (hentry e he)
      · split
        · rename_i hgt
          refine List.pairwise_cons.2 ⟨fun e he => ?_, ih hentries⟩
          rcases mem_insertSorted he with rfl | he
          · exact hgt
          · exact hentry e he
        · rename_i hnlt hngt
          have heq : name = entry.1 :=
            String.le_antisymm (String.not_lt.1 hngt) (String.not_lt.1 hnlt)
          exact List.pairwise_cons.2 ⟨fun e he => heq ▸ hentry e he, hentries⟩

/-- The table with one more entry, which takes the place of an entry for the same name. -/
def insert (o : Overrides) (name replacement : String) : Overrides :=
  ⟨insertSorted name replacement o.entries, pairwise_insertSorted o.sorted⟩

/-- The table of a list of entries; of two for one name the later counts. -/
def ofList (entries : List (String × String)) : Overrides :=
  entries.foldl (fun o e => o.insert e.1 e.2) empty

end Overrides

end DeclBridge
