import DeclBridge.Proofs.Naming
import Mathlib

/-!
What the names of fields keep. On ASCII the acronyms change the case of letters only, and snake case
adds single underscores in front of what was a capital.
-/

namespace DeclBridge

namespace Text

def IsAscii (cs : List Char) : Prop :=
  ∀ c ∈ cs, c.toNat < 0x80

instance (cs : List Char) : Decidable (IsAscii cs) :=
  List.decidableBAll (fun c : Char => c.toNat < 0x80) cs

variable {c d : Char} {cs ds : List Char}

theorem append_drop_of_prefix {pattern : List Char} (hne : pattern ≠ [])
    (h : pattern <+: c :: cs) : pattern ++ cs.drop (pattern.length - 1) = c :: cs := by
  have heq := List.prefix_iff_eq_append.mp h
  cases pattern with
  | nil => exact absurd rfl hne
  | cons p ps => exact heq

/-- What sees no difference between a pattern and its replacement sees none between a text before
and after. -/
theorem map_replaceAll {α : Type} {f : Char → α} {pattern replacement : List Char}
    (h : replacement.map f = pattern.map f) (cs : List Char) :
    (replaceAll pattern replacement cs).map f = cs.map f := by
  fun_induction replaceAll pattern replacement cs with
  | case1 => rfl
  | case2 c cs hprefix ih =>
      have hcs := append_drop_of_prefix hprefix.1 (List.isPrefixOf_iff_prefix.mp hprefix.2)
      rw [List.map_append, ih, h, ← List.map_append, hcs]
  | case3 c cs _ ih => rw [List.map_cons, ih, List.map_cons]

theorem toNat_toLower (hc : c.toNat < 0x80) : c.toLower.toNat < 0x80 :=
  ascii_cases (P := fun c => c.toLower.toNat < 0x80) (by decide +kernel) hc

theorem map_toLower_upper (hc : c.toNat < 0x80) : (upper c).map Char.toLower = [c.toLower] :=
  ascii_cases (P := fun c => (upper c).map Char.toLower = [c.toLower]) (by decide +kernel) hc

theorem eq_underscore_of_toLower (hc : c.toNat < 0x80) : c.toLower = '_' → c = '_' :=
  ascii_cases (P := fun c => c.toLower = '_' → c = '_') (by decide +kernel) hc

theorem flatMap_lower_ascii (h : IsAscii cs) : cs.flatMap lower = cs.map Char.toLower := by
  rw [List.map_eq_flatMap]
  exact List.flatMap_congr fun c hc => lower_ascii (h c hc)

theorem toNat_lt_of_toLower_eq (hd : d.toNat < 0x80) (h : c.toLower = d.toLower) :
    c.toNat < 0x80 := by
  by_cases hc : c.isUpper = true
  · exact toNat_lt_of_isUpper hc
  · rw [← Char.toLower_eq_of_not_isUpper hc, h]
    exact toNat_toLower hd

theorem IsAscii.of_map_toLower (hds : IsAscii ds)
    (h : cs.map Char.toLower = ds.map Char.toLower) : IsAscii cs := by
  intro c hc
  have hmem : c.toLower ∈ ds.map Char.toLower := h ▸ List.mem_map_of_mem hc
  obtain ⟨d, hd, hlower⟩ := List.mem_map.mp hmem
  exact toNat_lt_of_toLower_eq (hds d hd) hlower.symm

theorem underscore_not_mem_of_map_toLower (hds : IsAscii ds)
    (h : cs.map Char.toLower = ds.map Char.toLower) (hbare : '_' ∉ ds) : '_' ∉ cs := by
  intro hmem
  have hlower : Char.toLower '_' ∈ ds.map Char.toLower := h ▸ List.mem_map_of_mem hmem
  obtain ⟨d, hd, heq⟩ := List.mem_map.mp hlower
  rw [eq_underscore_of_toLower (hds d hd) heq] at hd
  exact hbare hd

end Text

namespace Naming

open Text (IsAscii isUppercase lower upper)

variable {c : Char} {cs : List Char}

theorem map_toLower_titleCase (h : IsAscii cs) :
    (titleCase cs).map Char.toLower = cs.map Char.toLower := by
  cases cs with
  | nil => rfl
  | cons c cs =>
      obtain ⟨hc, hcs⟩ := List.forall_mem_cons.mp h
      rw [titleCase, List.map_append, Text.map_toLower_upper hc, Text.flatMap_lower_ascii hcs,
        List.map_map, List.map_cons, List.singleton_append]
      congr 1
      exact List.map_congr_left fun d _ => Char.toLower_toLower_eq_toLower d

theorem map_toLower_normalizeAcronyms {acronyms : List String}
    (h : ∀ a ∈ acronyms, IsAscii a.toList) (name : List Char) :
    (normalizeAcronyms acronyms name).map Char.toLower = name.map Char.toLower := by
  induction acronyms generalizing name with
  | nil => rfl
  | cons a acronyms ih =>
      obtain ⟨ha, hacronyms⟩ := List.forall_mem_cons.mp h
      rw [normalizeAcronyms, List.foldl_cons]
      apply (ih hacronyms _).trans
      exact Text.map_replaceAll (map_toLower_titleCase ha) name

/-- What becomes in snake case of an ASCII character behind others. -/
def snakeChar (c : Char) : List Char :=
  if c.isUpper then ['_', c.toLower] else [c.toLower]

theorem snakeCase_ascii (h : IsAscii (c :: cs)) :
    snakeCase (c :: cs) = c.toLower :: cs.flatMap snakeChar := by
  obtain ⟨hc, hcs⟩ := List.forall_mem_cons.mp h
  rw [snakeCase, Text.lower_ascii hc, List.singleton_append]
  congr 1
  apply List.flatMap_congr
  intro d hd
  rw [Text.isUppercase_ascii (hcs d hd), Text.lower_ascii (hcs d hd), snakeChar]
  split
  · rfl
  · next hcase => rw [Char.toLower_eq_of_not_isUpper hcase]

/-- The text is the name in small letters, but for underscores, and these stand one by one between
other characters. -/
structure Recased (name text : List Char) : Prop where
  small : ∀ c ∈ text, isUppercase c = false
  head : text.head? ≠ some '_'
  last : text.getLast? ≠ some '_'
  single : text.IsChain fun c d => ¬ (c = '_' ∧ d = '_')
  letters : text.filter (· != '_') = (name.filter (· != '_')).map Char.toLower

/-- Behind another character, snake case puts single underscores, each with a character behind it. -/
theorem single_flatMap_snakeChar (hc : c ≠ '_') (h : ∀ d ∈ cs, d.toLower ≠ '_') :
    (c :: cs.flatMap snakeChar).IsChain (fun c d => ¬ (c = '_' ∧ d = '_')) ∧
      (c :: cs.flatMap snakeChar).getLast? ≠ some '_' := by
  induction cs generalizing c with
  | nil => simpa using hc
  | cons d cs ih =>
      obtain ⟨hd, hcs⟩ := List.forall_mem_cons.mp h
      obtain ⟨hchain, hlast⟩ := ih hd hcs
      rw [List.flatMap_cons, snakeChar]
      split
      · constructor
        · exact .cons_cons (by simp [hc]) (.cons_cons (by simp [hd]) hchain)
        · simpa [List.getLast?_cons] using hlast
      · constructor
        · exact .cons_cons (by simp [hc]) hchain
        · simpa [List.getLast?_cons] using hlast

theorem filter_flatMap_snakeChar (h : ∀ d ∈ cs, d.toLower ≠ '_') :
    (cs.flatMap snakeChar).filter (· != '_') = cs.map Char.toLower := by
  induction cs with
  | nil => rfl
  | cons d cs ih =>
      obtain ⟨hd, hcs⟩ := List.forall_mem_cons.mp h
      have hfirst : (snakeChar d).filter (· != '_') = [d.toLower] := by
        rw [snakeChar]
        split <;> simp [hd]
      rw [List.flatMap_cons, List.filter_append, hfirst, ih hcs, List.map_cons,
        List.singleton_append]

theorem isUppercase_of_mem_snakeCase (hascii : IsAscii cs) {d : Char} (h : d ∈ snakeCase cs) :
    isUppercase d = false := by
  rcases mem_snakeCase h with rfl | ⟨c, hc, hd⟩ | ⟨-, hcase⟩
  · decide
  · rw [Text.lower_ascii (hascii c hc), List.mem_singleton] at hd
    rw [hd, Text.isUppercase_ascii (Text.toNat_toLower (hascii c hc))]
    exact Char.isUpper_toLower_eq_false c
  · exact hcase

/-- An ASCII name without underscores is recased by snake case. -/
theorem recased_snakeCase (hascii : IsAscii cs) (hbare : '_' ∉ cs) : Recased cs (snakeCase cs) := by
  have hlower : ∀ d ∈ cs, d.toLower ≠ '_' := by
    intro d hd heq
    rw [Text.eq_underscore_of_toLower (hascii d hd) heq] at hd
    exact hbare hd
  have hfilter := List.filter_bne_eq_self_of_not_mem hbare
  cases cs with
  | nil =>
      exact ⟨by simp [snakeCase], by simp [snakeCase], by simp [snakeCase], .nil, rfl⟩
  | cons c cs =>
      obtain ⟨hc, hcs⟩ := List.forall_mem_cons.mp hlower
      obtain ⟨hchain, hlast⟩ := single_flatMap_snakeChar hc hcs
      have hletters := filter_flatMap_snakeChar hcs
      refine ⟨fun d hd => isUppercase_of_mem_snakeCase hascii hd, ?_, ?_, ?_, ?_⟩
      all_goals rw [snakeCase_ascii hascii]
      · simpa using hc
      · exact hlast
      · exact hchain
      · rw [hfilter, List.filter_cons_of_pos (by simpa using hc), hletters, List.map_cons]

end Naming

namespace Ruleset

open Naming (Recased)
open Text (IsAscii)

variable {r : Ruleset} {name : String}

theorem recased_snakeName (hacronyms : ∀ a ∈ r.acronyms, IsAscii a.toList)
    (hname : IsAscii name.toList) : Recased name.toList (r.snakeName name).toList := by
  have hbare : IsAscii (name.toList.filter (· != '_')) :=
    fun c hc => hname c (List.mem_of_mem_filter hc)
  have hlower := Naming.map_toLower_normalizeAcronyms hacronyms (name.toList.filter (· != '_'))
  have hmem := Text.underscore_not_mem_of_map_toLower hbare hlower (by simp)
  have hrecased := Naming.recased_snakeCase (hbare.of_map_toLower hlower) hmem
  rw [snakeName, String.toList_ofList]
  refine { hrecased with letters := ?_ }
  rw [hrecased.letters, List.filter_bne_eq_self_of_not_mem hmem, hlower]

/-- A name that no replacement of the table replaces is only recased. -/
theorem fieldName_recased (hacronyms : ∀ a ∈ r.acronyms, IsAscii a.toList)
    (hname : IsAscii name.toList) :
    (∃ key, (key, r.fieldName name) ∈ r.overrides.entries) ∨
      Recased name.toList (r.fieldName name).toList := by
  cases hget : r.overrides.get? name with
  | some replacement =>
      left
      rw [fieldName_of_get? hget]
      exact ⟨name, Overrides.mem_of_get? hget⟩
  | none =>
      rw [fieldName_of_get?_none hget]
      cases hsnake : r.overrides.get? (r.snakeName name) with
      | some replacement =>
          left
          exact ⟨r.snakeName name, Overrides.mem_of_get? hsnake⟩
      | none =>
          right
          exact recased_snakeName hacronyms hname

theorem fieldName_recased_mixedCase : Recased "UsERs_ID".toList "u_sers_i_d".toList := by
  have hname : { current with acronyms := ["sER", "Id_", ""], overrides := .empty }.fieldName
      "UsERs_ID" = "u_sers_i_d" := by
    decide +kernel
  rw [← hname]
  exact (fieldName_recased (by decide) (by decide)).resolve_left (by simp [Overrides.empty])

end Ruleset

end DeclBridge
