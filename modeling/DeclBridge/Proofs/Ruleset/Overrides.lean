import DeclBridge.Ruleset.Overrides
import Mathlib.Data.List.Induction
import Mathlib.Data.List.Sort

/-!
Tables of names and their entries. A table is known by what it replaces names with, and one that is
made of a list of entries replaces a name as the last entry for it says.
-/

namespace DeclBridge.Overrides

variable {o o' : Overrides} {name other replacement : String} {entries : List (String × String)}

theorem lookup_cons (entry : String × String) (entries : List (String × String)) :
    (entry :: entries).lookup name =
      if name = entry.1 then some entry.2 else entries.lookup name := by
  rw [List.lookup_cons]
  by_cases h : name = entry.1
  · rw [if_pos h, beq_iff_eq.mpr h]
  · rw [if_neg h, beq_false_of_ne h]

theorem lookup_insertSorted (entries : List (String × String)) :
    (insertSorted name replacement entries).lookup other =
      if other = name then some replacement else entries.lookup other := by
  induction entries with
  | nil => exact lookup_cons _ _
  | cons entry entries ih =>
      rw [insertSorted]
      split
      · exact lookup_cons _ _
      · rename_i hnotLess
        split
        · rename_i hless
          rw [lookup_cons, lookup_cons, ih]
          by_cases hother : other = entry.1
          · have hne : other ≠ name := fun heq => String.lt_irrefl _ (heq ▸ hother ▸ hless)
            rw [if_pos hother, if_neg hne, if_pos hother]
          · rw [if_neg hother, if_neg hother]
        · rename_i hnotMore
          have hname : name = entry.1 :=
            String.le_antisymm (String.not_lt.mp hnotMore) (String.not_lt.mp hnotLess)
          rw [lookup_cons, lookup_cons, ← hname]
          split <;> rfl

theorem get?_insert : (o.insert name replacement).get? other =
    if other = name then some replacement else o.get? other :=
  lookup_insertSorted o.entries

/-- Of two entries for one name the later counts. -/
theorem get?_ofList (entries : List (String × String)) :
    (ofList entries).get? name = entries.reverse.lookup name := by
  induction entries using List.reverseRecOn with
  | nil => rfl
  | append_singleton entries entry ih =>
      have hfold : ofList (entries ++ [entry]) = (ofList entries).insert entry.1 entry.2 := by
        rw [ofList, List.foldl_append]
        rfl
      rw [hfold, get?_insert, ih, List.reverse_append, List.reverse_singleton,
        List.singleton_append, lookup_cons]

theorem mem_entries_iff {entry : String × String} :
    entry ∈ o.entries ↔ o.get? entry.1 = some entry.2 := by
  rw [get?, List.lookup_eq_some_iff]
  constructor
  · intro h
    obtain ⟨before, after, hentries⟩ := List.append_of_mem h
    refine ⟨before, after, hentries, fun other hother => ?_⟩
    have hsorted := o.sorted
    rw [hentries, List.pairwise_append] at hsorted
    have hless := hsorted.2.2 other hother entry (by simp)
    rw [bne_iff_ne]
    exact fun heq => String.lt_irrefl _ (heq ▸ hless)
  · rintro ⟨before, after, hentries, -⟩
    rw [hentries]
    simp

theorem ext_get? (h : ∀ name, o.get? name = o'.get? name) : o = o' := by
  have hirrefl : Std.Irrefl fun a b : String × String => a.1 < b.1 :=
    ⟨fun a => String.lt_irrefl a.1⟩
  have hantisymm : Std.Antisymm fun a b : String × String => a.1 < b.1 :=
    ⟨fun a b hab hba => absurd (String.lt_trans hab hba) (String.lt_irrefl a.1)⟩
  have hentries : o.entries = o'.entries := by
    refine o.sorted.eq_of_mem_iff o'.sorted fun entry => ?_
    rw [mem_entries_iff, mem_entries_iff, h]
  cases o
  cases o'
  cases hentries
  rfl

end DeclBridge.Overrides
