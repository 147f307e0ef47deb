import DeclBridge.Proofs.Text.CaseMap
import DeclBridge.Ruleset.Basic

/-!
The names of fields. Under a preset a name is in snake case, and a replacement from the table only
marks it as a raw identifier.
-/

namespace DeclBridge

namespace Text

theorem mem_replaceAll {pattern replacement cs : List Char} {d : Char}
    (h : d ∈ replaceAll pattern replacement cs) : d ∈ replacement ∨ d ∈ cs := by
  fun_induction replaceAll pattern replacement cs with
  | case1 => exact .inr h
  | case2 c cs _ ih =>
      rcases List.mem_append.mp h with hd | hd
      · exact .inl hd
      · exact (ih hd).imp_right fun hdrop => List.mem_cons_of_mem _ (List.mem_of_mem_drop hdrop)
  | case3 c cs _ ih =>
      rcases List.mem_cons.mp h with rfl | hd
      · exact .inr (by simp)
      · exact (ih hd).imp_right (List.mem_cons_of_mem _)

theorem replaceAll_of_not_infix {pattern replacement cs : List Char} (h : ¬ pattern <:+: cs) :
    replaceAll pattern replacement cs = cs := by
  fun_induction replaceAll pattern replacement cs with
  | case1 => rfl
  | case2 c cs hprefix _ => exact absurd (List.isPrefixOf_iff_prefix.mp hprefix.2).isInfix h
  | case3 c cs _ ih => rw [ih fun hinfix => h (List.infix_cons hinfix)]

end Text

namespace Naming

open Text (lower upper isUppercase)

theorem mem_snakeCase {cs : List Char} {d : Char} (h : d ∈ snakeCase cs) :
    d = '_' ∨ (∃ c ∈ cs, d ∈ lower c) ∨ d ∈ cs ∧ isUppercase d = false := by
  cases cs with
  | nil => cases h
  | cons c cs =>
      rcases List.mem_append.mp h with hfirst | hrest
      · exact .inr (.inl ⟨c, by simp, hfirst⟩)
      · obtain ⟨e, he, hd⟩ := List.mem_flatMap.mp hrest
        split at hd
        · exact (List.mem_cons.mp hd).imp_right fun hlower =>
            .inl ⟨e, List.mem_cons_of_mem _ he, hlower⟩
        · next hcase =>
            rw [List.mem_singleton.mp hd]
            exact .inr (.inr ⟨List.mem_cons_of_mem _ he, Bool.eq_false_iff.mpr hcase⟩)

theorem isUpper_of_mem_snakeCase {cs : List Char} {d : Char} (h : d ∈ snakeCase cs) :
    d.isUpper = false := by
  rcases mem_snakeCase h with rfl | ⟨c, -, hd⟩ | ⟨-, hcase⟩
  · rfl
  · exact Text.isUpper_of_mem_lower hd
  · rw [Bool.eq_false_iff]
    intro hd
    rw [Text.isUppercase_ascii (Text.toNat_lt_of_isUpper hd), hd] at hcase
    cases hcase

section Punctuation

variable {d : Char} (hd : d.toNat < 'A'.toNat)

include hd

theorem mem_of_mem_titleCase {cs : List Char} (h : d ∈ titleCase cs) : d ∈ cs := by
  cases cs with
  | nil => cases h
  | cons c cs =>
      rcases List.mem_append.mp h with hfirst | hrest
      · rw [Text.eq_of_mem_upper hd hfirst]
        exact List.mem_cons_self
      · obtain ⟨e, he, hlower⟩ := List.mem_flatMap.mp hrest
        rw [Text.eq_of_mem_lower hd hlower]
        exact List.mem_cons_of_mem _ he

theorem mem_of_mem_snakeCase {cs : List Char} (h : d ∈ snakeCase cs) : d ∈ cs := by
  rcases mem_snakeCase h with rfl | ⟨c, hc, hlower⟩ | ⟨hmem, -⟩
  · exact absurd hd (by decide)
  · rwa [Text.eq_of_mem_lower hd hlower]
  · exact hmem

theorem mem_of_mem_normalizeAcronyms {acronyms : List String} {name : List Char}
    (h : d ∈ normalizeAcronyms acronyms name) : d ∈ name ∨ ∃ a ∈ acronyms, d ∈ a.toList := by
  induction acronyms generalizing name with
  | nil => exact .inl h
  | cons a acronyms ih =>
      rcases ih h with hreplaced | ⟨b, hb, hmem⟩
      · rcases Text.mem_replaceAll hreplaced with htitle | hname
        · exact .inr ⟨a, by simp, mem_of_mem_titleCase hd htitle⟩
        · exact .inl hname
      · exact .inr ⟨b, List.mem_cons_of_mem _ hb, hmem⟩

end Punctuation

theorem normalizeAcronyms_of_not_infix {acronyms : List String} {name : List Char}
    (h : ∀ a ∈ acronyms, ¬ a.toList <:+: name) : normalizeAcronyms acronyms name = name := by
  induction acronyms with
  | nil => rfl
  | cons a acronyms ih =>
      rw [normalizeAcronyms, List.foldl_cons, Text.replaceAll_of_not_infix (h a (by simp))]
      exact ih fun b hb => h b (List.mem_cons_of_mem _ hb)

end Naming

namespace Overrides

theorem mem_of_get? {o : Overrides} {name replacement : String}
    (h : o.get? name = some replacement) : (name, replacement) ∈ o.entries := by
  obtain ⟨before, after, hentries, -⟩ := List.lookup_eq_some_iff.mp h
  rw [hentries]
  simp

theorem mem_ofList {entries : List (String × String)} {e : String × String}
    (h : e ∈ (ofList entries).entries) : e ∈ entries := by
  have hfold : ∀ o : Overrides,
      e ∈ (entries.foldl (fun o e => o.insert e.1 e.2) o).entries → e ∈ o.entries ∨ e ∈ entries := by
    clear h
    induction entries with
    | nil => exact fun o h => .inl h
    | cons entry entries ih =>
        intro o h
        rcases ih _ h with hinsert | hmem
        · rcases mem_insertSorted hinsert with rfl | hold
          · exact .inr (by simp)
          · exact .inl hold
        · exact .inr (List.mem_cons_of_mem _ hmem)
  exact (hfold empty h).resolve_left (by simp [empty])

end Overrides

namespace Ruleset

/-- A name in snake case with acronyms as words, without its underscores. -/
def snakeName (r : Ruleset) (name : String) : String :=
  String.ofList (Naming.snakeCase (Naming.normalizeAcronyms r.acronyms
    (name.toList.filter (· != '_'))))

theorem fieldName_of_get? {r : Ruleset} {name replacement : String}
    (h : r.overrides.get? name = some replacement) : r.fieldName name = replacement := by
  rw [fieldName, h]

theorem fieldName_of_get?_none {r : Ruleset} {name : String} (h : r.overrides.get? name = none) :
    r.fieldName name = (r.overrides.get? (r.snakeName name)).getD (r.snakeName name) := by
  rw [fieldName, h]
  rfl

variable {p : Preset}

theorem acronyms_subset : (ofPreset p).acronyms ⊆ current.acronyms := by
  cases p <;> decide

/-- A preset replaces keywords and their capitalized forms, and marks them as raw. -/
theorem mem_overrides {e : String × String} (h : e ∈ (ofPreset p).overrides.entries) :
    ∃ word ∈ keywords, e.2 = "r#" ++ word ∧
      (e.1 = word ∨ e.1 = String.ofList (Naming.capitalize word.toList)) := by
  have hwords : ∃ words ⊆ keywords, (ofPreset p).overrides = rawIdentifiers words := by
    cases p with
    | current => exact ⟨keywords, fun _ h => h, rfl⟩
    | legacy => exact ⟨["type", "ref"], by decide, rfl⟩
  obtain ⟨words, hsubset, htable⟩ := hwords
  rw [htable] at h
  obtain ⟨word, hword, he⟩ := List.mem_flatMap.mp (Overrides.mem_ofList h)
  refine ⟨word, hsubset hword, ?_⟩
  rcases List.mem_cons.mp he with rfl | he
  · exact ⟨rfl, .inl rfl⟩
  · rw [List.mem_singleton.mp he]
    exact ⟨rfl, .inr rfl⟩

theorem snakeName_keyword {word name : String} (hword : word ∈ keywords)
    (hname : name = word ∨ name = String.ofList (Naming.capitalize word.toList)) :
    (ofPreset p).snakeName name = word := by
  have hforms : ∀ word ∈ keywords,
      ∀ name ∈ [word, String.ofList (Naming.capitalize word.toList)],
        (∀ a ∈ current.acronyms, ¬ a.toList <:+: name.toList.filter (· != '_')) ∧
          String.ofList (Naming.snakeCase (name.toList.filter (· != '_'))) = word := by
    decide +kernel
  obtain ⟨hacronyms, hsnake⟩ := hforms word hword name (by simpa using hname)
  rw [snakeName, Naming.normalizeAcronyms_of_not_infix fun a ha =>
    hacronyms a (acronyms_subset ha), hsnake]

theorem snakeName_ne_capitalized {r : Ruleset} {word name : String} (hword : word ∈ keywords) :
    r.snakeName name ≠ String.ofList (Naming.capitalize word.toList) := by
  have hcapital : ∀ word ∈ keywords, (Naming.capitalize word.toList).any Char.isUpper = true := by
    decide +kernel
  obtain ⟨c, hc, hupper⟩ := List.any_eq_true.mp (hcapital word hword)
  intro heq
  rw [← String.ofList_inj.mp heq] at hc
  rw [Naming.isUpper_of_mem_snakeCase hc] at hupper
  cases hupper

/-- The name of a field is the Go name in snake case, marked as raw if it is replaced. -/
theorem fieldName_cases (p : Preset) (name : String) :
    (ofPreset p).fieldName name = (ofPreset p).snakeName name ∨
      (ofPreset p).fieldName name = "r#" ++ (ofPreset p).snakeName name := by
  cases hget : (ofPreset p).overrides.get? name with
  | some replacement =>
      obtain ⟨word, hword, hraw, hname⟩ := mem_overrides (Overrides.mem_of_get? hget)
      rw [fieldName_of_get? hget, snakeName_keyword hword hname]
      exact .inr hraw
  | none =>
      rw [fieldName_of_get?_none hget]
      cases hsnake : (ofPreset p).overrides.get? ((ofPreset p).snakeName name) with
      | none => exact .inl rfl
      | some replacement =>
          obtain ⟨word, hword, hraw, hname⟩ := mem_overrides (Overrides.mem_of_get? hsnake)
          have heq : (ofPreset p).snakeName name = word :=
            hname.resolve_right (snakeName_ne_capitalized hword)
          rw [heq]
          exact .inr hraw

/-- Punctuation and digits in snake case are those of the name. -/
theorem mem_of_mem_snakeName {name : String} {d : Char} (hd : d.toNat < 'A'.toNat)
    (h : d ∈ ((ofPreset p).snakeName name).toList) : d ∈ name.toList := by
  rw [snakeName, String.toList_ofList] at h
  rcases Naming.mem_of_mem_normalizeAcronyms hd (Naming.mem_of_mem_snakeCase hd h) with
    hname | ⟨a, ha, hmem⟩
  · exact (List.mem_filter.mp hname).1
  · have hcapitals : ∀ a ∈ current.acronyms, a.toList.all ('A' ≤ ·) = true := by decide
    have hle := List.all_eq_true.mp (hcapitals a (acronyms_subset ha)) d hmem
    exact absurd hd (Nat.not_lt_of_le (of_decide_eq_true hle))

end Ruleset

end DeclBridge
