import DeclBridge.Proofs.Naming.Acronyms
import DeclBridge.Proofs.Naming.Words
import DeclBridge.Proofs.Text.Numeral
import DeclBridge.Proofs.WireName

/-!
Identifiers of fields. A field can be named in Rust by what snake case gives, unless nothing is left
of the Go name, a digit comes first, or the name is one of the keywords that are neither replaced
nor given an underscore.
-/

namespace DeclBridge

namespace Text

variable {c : Char}

theorem replaceAll_eq_or_infix (pattern replacement cs : List Char) :
    replaceAll pattern replacement cs = cs ∨
      replacement <:+: replaceAll pattern replacement cs := by
  fun_induction replaceAll pattern replacement cs with
  | case1 => exact .inl rfl
  | case2 c cs _ _ => exact .inr (List.prefix_append _ _).isInfix
  | case3 c cs _ ih => exact ih.imp (congrArg (c :: ·)) List.infix_cons

theorem upper_toLower (h : c.isUpper = true) : upper c.toLower = [c] :=
  ascii_cases (P := fun c => c.isUpper = true → upper c.toLower = [c]) (by decide +kernel)
    (toNat_lt_of_isUpper h) h

theorem isNumeral_toLower (c : Char) : isNumeral c.toLower = isNumeral c := by
  by_cases h : c.isUpper = true
  · exact isNumeral_of_lower (lower_ascii (toNat_lt_of_isUpper h))
  · rw [Char.toLower_eq_of_not_isUpper h]

/-- Whether a text begins with a numeral. -/
def beginsNumeral (cs : List Char) : Bool :=
  cs.head?.any isNumeral

theorem Lowered.beginsNumeral {cs ds : List Char} (h : Lowered cs ds) :
    Text.beginsNumeral ds = Text.beginsNumeral cs := by
  cases h with
  | nil => rfl
  | cons hd _ =>
      rcases hd with rfl | rfl
      · rfl
      · exact isNumeral_toLower _

end Text

namespace Naming

open Text (isUppercase lower upper)

variable {c : Char} {cs word : List Char}

/-- A name is as it was if no acronym is in title case afterwards. -/
theorem eq_of_normalizeAcronyms {acronyms : List String} {name text : List Char}
    (hfree : ∀ a ∈ acronyms, ¬ titleCase a.toList <:+: text)
    (h : normalizeAcronyms acronyms name = text) : name = text := by
  induction acronyms generalizing name with
  | nil => exact h
  | cons a acronyms ih =>
      obtain ⟨ha, hfree⟩ := List.forall_mem_cons.mp hfree
      have hfirst := ih hfree h
      rcases Text.replaceAll_eq_or_infix a.toList (titleCase a.toList) name with heq | hinfix
      · exact heq.symm.trans hfirst
      · exact absurd (hfirst ▸ hinfix) ha

theorem snakeCase_eq_nil_iff : snakeCase cs = [] ↔ cs = [] := by
  cases cs with
  | nil => simp [snakeCase]
  | cons c cs => simp [snakeCase, Text.lower_ne_nil]

theorem snakeCase_of_not_mem (h : '_' ∉ snakeCase (c :: cs)) :
    snakeCase (c :: cs) = lower c ++ cs := by
  have hsmall : ∀ d ∈ cs, isUppercase d = false := by
    intro d hd
    rw [Bool.eq_false_iff]
    intro hupper
    apply h
    exact List.mem_append_right _ (List.mem_flatMap.mpr ⟨d, hd, by simp [hupper]⟩)
  rw [snakeCase, List.append_cancel_left_eq]
  calc cs.flatMap (fun d => if isUppercase d then '_' :: lower d else [d])
      = cs.flatMap ([·]) := List.flatMap_congr fun d hd => by simp [hsmall d hd]
    _ = cs := List.flatMap_singleton' cs

theorem toNat_lt_of_isLower (h : c.isLower = true) : c.toNat < 0x80 :=
  (small_of_isLower_or_isDigit (by simp [h])).2

/-- A word in small letters comes from itself or from its capitalized form. There are other capitals
of i and k, which are not ASCII. -/
theorem eq_of_snakeCase (hne : word ≠ []) (hsmall : ∀ c ∈ word, c.isLower = true)
    (hi : word.head? ≠ some 'i') (hk : word.head? ≠ some 'k') (h : snakeCase cs = word) :
    cs = word ∨ cs = capitalize word := by
  cases cs with
  | nil => exact absurd h.symm hne
  | cons c cs =>
      have hmem : '_' ∉ word := fun hmem => absurd (hsmall '_' hmem) (by decide)
      rw [← h] at hmem
      rw [snakeCase_of_not_mem hmem] at h
      obtain ⟨d, ds, hlower⟩ := List.exists_cons_of_ne_nil (Text.lower_ne_nil (c := c))
      rw [hlower, List.cons_append] at h
      subst h
      -- Only i and k have capitals that are not ASCII.
      have hc : c.toNat < 0x80 := by
        apply Text.toNat_lt_of_mem_lower (toNat_lt_of_isLower (hsmall d (by simp)))
          (fun heq => hi (by simp [heq])) (fun heq => hk (by simp [heq]))
        simp [hlower]
      rw [Text.lower_ascii hc] at hlower
      obtain ⟨rfl, rfl⟩ := List.cons.inj hlower
      by_cases hupper : c.isUpper = true
      · right
        rw [List.nil_append, capitalize, Text.upper_toLower hupper, List.singleton_append]
      · left
        rw [Char.toLower_eq_of_not_isUpper hupper, List.nil_append]

theorem beginsNumeral_snakeCase (cs : List Char) :
    Text.beginsNumeral (snakeCase cs) = Text.beginsNumeral cs := by
  cases cs with
  | nil => rfl
  | cons c cs =>
      obtain ⟨d, ds, hlower⟩ := List.exists_cons_of_ne_nil (Text.lower_ne_nil (c := c))
      rw [snakeCase, hlower]
      exact Text.isNumeral_of_lower hlower

end Naming

/-- The keywords of Rust 2021, those in use and those that are reserved. -/
def rustKeywords : List String :=
  ["as", "async", "await", "break", "const", "continue", "crate", "dyn", "else", "enum", "extern",
   "false", "fn", "for", "if", "impl", "in", "let", "loop", "match", "mod", "move", "mut", "pub",
   "ref", "return", "self", "Self", "static", "struct", "super", "trait", "true", "type", "unsafe",
   "use", "where", "while", "abstract", "become", "box", "do", "final", "macro", "override", "priv",
   "try", "typeof", "unsized", "virtual", "yield"]

/-- The keywords of Rust 2021 in small letters that become neither raw identifiers nor names with an
underscore behind them. -/
def keptKeywords : List String :=
  ["false", "true", "abstract", "become", "box", "do", "final", "macro", "override", "priv", "try",
   "typeof", "unsized", "virtual", "yield"]

/-- Whether a field can be named so in Rust: the identifier is not empty, does not begin with a
digit, and is a raw identifier or no keyword. -/
def IsFieldIdent (ident : String) : Prop :=
  ident ≠ "" ∧ Text.beginsNumeral ident.toList = false ∧
    ("r#".toList <+: ident.toList ∨ ident ∉ rustKeywords)

instance (ident : String) : Decidable (IsFieldIdent ident) :=
  inferInstanceAs (Decidable (_ ∧ _ ∧ _))

/-- A Go name without its underscores. -/
def bareName (name : String) : List Char :=
  name.toList.filter (· != '_')

/-- Whether no field can be named after a Go name: without underscores the name is empty, begins
with a digit, or is a keyword that is kept, in small letters or with a capital at its beginning. -/
def IsUnnameable (name : String) : Prop :=
  bareName name = [] ∨ Text.beginsNumeral (bareName name) = true ∨
    ∃ word ∈ keptKeywords, bareName name = word.toList ∨
      bareName name = Naming.capitalize word.toList

theorem avoidBarred_fst (ident : String) (wire : Option String) :
    (avoidBarred ident wire).1 = if ident ∈ barredNames then ident ++ "_" else ident := by
  unfold avoidBarred
  simp only [List.contains_iff_mem]
  split <;> rfl

/-- Of the names in snake case, a raw identifier or an underscore makes identifiers of keywords, but
not of all. -/
theorem isFieldIdent_iff {text : String} (hsmall : ∀ c ∈ text.toList, c.isUpper = false)
    (wire : Option String) :
    IsFieldIdent (avoidBarred (if text ∈ Ruleset.keywords then "r#" ++ text else text) wire).1 ↔
      text ≠ "" ∧ Text.beginsNumeral text.toList = false ∧ text ∉ keptKeywords := by
  rw [avoidBarred_fst]
  by_cases hkeyword : text ∈ Ruleset.keywords
  · have hraw : ∀ word ∈ Ruleset.keywords, ("r#" ++ word ∉ barredNames ∧
        IsFieldIdent ("r#" ++ word)) ∧ word ≠ "" ∧ Text.beginsNumeral word.toList = false ∧
        word ∉ keptKeywords := by
      decide +kernel
    obtain ⟨⟨hbarred, hident⟩, hword⟩ := hraw text hkeyword
    rw [if_pos hkeyword, if_neg hbarred]
    exact iff_of_true hident hword
  rw [if_neg hkeyword]
  by_cases hbarred : text ∈ barredNames
  · have hescaped : ∀ word ∈ barredNames, IsFieldIdent (word ++ "_") ∧ word ≠ "" ∧
        Text.beginsNumeral word.toList = false ∧ word ∉ keptKeywords := by
      decide +kernel
    rw [if_pos hbarred]
    exact iff_of_true (hescaped text hbarred).1 (hescaped text hbarred).2
  rw [if_neg hbarred]
  refine and_congr_right fun _ => and_congr_right fun _ => ⟨?_, ?_⟩
  · have hkept : ∀ word ∈ keptKeywords, ¬ "r#".toList <+: word.toList ∧ word ∈ rustKeywords := by
      decide
    rintro (hraw | hnot) hmem
    · exact (hkept text hmem).1 hraw
    · exact hnot (hkept text hmem).2
  · -- Of the keywords only `Self` is neither raw nor barred nor kept, and it has a capital.
    have hlisted : ∀ word ∈ rustKeywords, word ∈ Ruleset.keywords ∨ word ∈ barredNames ∨
        word ∈ keptKeywords ∨ 'S' ∈ word.toList := by
      decide
    intro hkept
    refine .inr fun hmem => ?_
    rcases hlisted text hmem with hword | hword | hword | hcapital
    · exact hkeyword hword
    · exact hbarred hword
    · exact hkept hword
    · exact absurd (hsmall 'S' hcapital) (by decide)

namespace Ruleset

theorem snakeName_eq (r : Ruleset) (name : String) :
    (r.snakeName name).toList =
      Naming.snakeCase (Naming.normalizeAcronyms r.acronyms (bareName name)) := by
  rw [snakeName, String.toList_ofList]
  rfl

theorem lowered_bareName (name : String) :
    Text.Lowered (bareName name) (Naming.normalizeAcronyms current.acronyms (bareName name)) :=
  Naming.lowered_normalizeAcronyms (by decide) _

theorem snakeName_eq_iff {word : String} (hword : word ∈ keptKeywords) (name : String) :
    current.snakeName name = word ↔
      bareName name = word.toList ∨ bareName name = Naming.capitalize word.toList := by
  have hforms : ∀ word ∈ keptKeywords,
      ∀ form ∈ [word.toList, Naming.capitalize word.toList],
        (∀ a ∈ current.acronyms, ¬ a.toList <:+: form ∧ ¬ Naming.titleCase a.toList <:+: form) ∧
          Naming.snakeCase form = word.toList := by
    decide +kernel
  have hsmall : ∀ word ∈ keptKeywords, word.toList ≠ [] ∧ word.toList.all Char.isLower = true ∧
      word.toList.head? ≠ some 'i' ∧ word.toList.head? ≠ some 'k' := by
    decide +kernel
  rw [← String.toList_inj, snakeName_eq]
  constructor
  · intro h
    obtain ⟨hne, hlower, hi, hk⟩ := hsmall word hword
    have hnormalized := Naming.eq_of_snakeCase hne (List.all_eq_true.mp hlower) hi hk h
    have hfree := (hforms word hword _ (by simpa using hnormalized)).1
    rwa [← Naming.eq_of_normalizeAcronyms (fun a ha => (hfree a ha).2) rfl] at hnormalized
  · intro h
    obtain ⟨hfree, hsnake⟩ := hforms word hword (bareName name) (by simpa using h)
    rw [Naming.normalizeAcronyms_of_not_infix fun a ha => (hfree a ha).1, hsnake]

/-- A field is named after any Go name but those after which no field can be named. -/
theorem isFieldIdent_fieldName_iff (name : String) (wire : Option String) :
    IsFieldIdent (avoidBarred (current.fieldName name) wire).1 ↔ ¬ IsUnnameable name := by
  have hsmall : ∀ c ∈ (current.snakeName name).toList, c.isUpper = false := by
    intro c hc
    rw [snakeName_eq] at hc
    exact Naming.isUpper_of_mem_snakeCase hc
  have hempty : current.snakeName name = "" ↔ bareName name = [] := by
    rw [← String.toList_inj, snakeName_eq, String.toList_empty, Naming.snakeCase_eq_nil_iff,
      ← List.length_eq_zero_iff, ← (lowered_bareName name).length_eq, List.length_eq_zero_iff]
  have hnumeral : Text.beginsNumeral (current.snakeName name).toList =
      Text.beginsNumeral (bareName name) := by
    rw [snakeName_eq, Naming.beginsNumeral_snakeCase, (lowered_bareName name).beginsNumeral]
  have hkept : current.snakeName name ∈ keptKeywords ↔ ∃ word ∈ keptKeywords,
      bareName name = word.toList ∨ bareName name = Naming.capitalize word.toList := by
    constructor
    · exact fun hmem => ⟨_, hmem, (snakeName_eq_iff hmem name).mp rfl⟩
    · rintro ⟨word, hword, hform⟩
      rwa [(snakeName_eq_iff hword name).mpr hform]
  rw [fieldName_current, isFieldIdent_iff hsmall, IsUnnameable, hnumeral, not_or, not_or, ← hkept,
    ← hempty, Bool.not_eq_true]

/-- The identifier of a field that has a Go name. -/
def fieldIdent (r : Ruleset) (name : String) : String :=
  (avoidBarred (r.fieldName name) none).1

variable {r : Ruleset} {f : Field}

/-- What a field is rendered to is named after its Go names, if they are not left out. -/
theorem fieldOutputs_idents {outputs : List FieldOutput} (h : r.fieldOutputs f = .ok outputs) :
    (∀ output ∈ outputs, ∃ ident, output = .omitted ident) ∨
      ∃ items : List FieldItem, outputs = items.map .active ∧
        items.map FieldItem.ident = f.declaredNames.map r.fieldIdent := by
  cases hf : f.isEmbedded with
  | true =>
      obtain ⟨item, hitem, rfl⟩ := (fieldOutputs_eq_ok_of_embedded hf).mp h
      obtain ⟨name, hname, rust, -, rfl⟩ := embeddedField_eq_ok.mp hitem
      refine .inr ⟨[_], rfl, ?_⟩
      rw [Field.declaredNames, hf, hname]
      rfl
  | false =>
      obtain ⟨entry, -, houtputs⟩ := (fieldOutputs_eq_ok_of_named hf).mp h
      rcases houtputs with ⟨-, rfl⟩ | ⟨-, rust, -, rfl⟩
      · left
        intro output hmem
        obtain ⟨name, -, rfl⟩ := List.mem_map.mp hmem
        exact ⟨r.fieldName name, rfl⟩
      · refine .inr ⟨_, List.map_map.symm, ?_⟩
        rw [Field.declaredNames, hf, List.map_map]
        refine List.map_congr_left fun name _ => ?_
        exact (avoidBarred_fst _ _).trans (avoidBarred_fst _ none).symm

end Ruleset

namespace Field

open Ruleset

/-- Whether something is rendered for the field under the current ruleset. -/
def IsRendered (f : Field) : Prop :=
  ∃ outputs item, current.fieldOutputs f = .ok outputs ∧ .active item ∈ outputs

/-- Whether all that is rendered for the field under the current ruleset can be named so. -/
def HasFieldIdents (f : Field) : Prop :=
  ∀ outputs, current.fieldOutputs f = .ok outputs →
    ∀ item, .active item ∈ outputs → IsFieldIdent item.ident

/-- The identifiers of a field are usable exactly if a field can be named after each of its Go
names. -/
theorem hasFieldIdents_iff (f : Field) :
    f.HasFieldIdents ↔ (f.IsRendered → ∀ name ∈ f.declaredNames, ¬ IsUnnameable name) := by
  constructor
  · rintro h ⟨outputs, item, houtputs, hitem⟩ name hname
    rcases fieldOutputs_idents houtputs with homitted | ⟨items, rfl, hidents⟩
    · obtain ⟨ident, hident⟩ := homitted _ hitem
      cases hident
    · have hmem : current.fieldIdent name ∈ items.map FieldItem.ident :=
        hidents ▸ List.mem_map_of_mem hname
      obtain ⟨item, hitem, hident⟩ := List.mem_map.mp hmem
      have husable := h _ houtputs item (List.mem_map_of_mem hitem)
      rw [hident] at husable
      exact (isFieldIdent_fieldName_iff name none).mp husable
  · intro h outputs houtputs item hitem
    have hnames := h ⟨outputs, item, houtputs, hitem⟩
    rcases fieldOutputs_idents houtputs with homitted | ⟨items, rfl, hidents⟩
    · obtain ⟨ident, hident⟩ := homitted _ hitem
      cases hident
    · obtain ⟨_, hitem, ⟨⟩⟩ := List.mem_map.mp hitem
      have hmem : item.ident ∈ f.declaredNames.map current.fieldIdent :=
        hidents ▸ List.mem_map_of_mem hitem
      obtain ⟨name, hname, hident⟩ := List.mem_map.mp hmem
      rw [← hident]
      exact (isFieldIdent_fieldName_iff name none).mpr (hnames name hname)

/-- A field that is named Yield gets the identifier `yield`, which is reserved. -/
theorem not_hasFieldIdents_yield : ¬ HasFieldIdents ⟨["Yield"], .named "int", none, []⟩ := by
  have houtputs : current.fieldOutputs ⟨["Yield"], .named "int", none, []⟩ =
      .ok [.active ⟨[], some "#[serde(default)]", "yield", "i32"⟩] :=
    eq_ok_of_toOption (by decide +kernel)
  intro h
  have husable := h _ houtputs _ List.mem_cons_self
  revert husable
  decide +kernel

end Field

end DeclBridge
