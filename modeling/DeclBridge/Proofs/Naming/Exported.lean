import DeclBridge.Proofs.Naming.Words
import DeclBridge.Proofs.WireName

/-!
Names of exported fields. Snake case marks every capital of such a name by an underscore, so that
the name can be read back: two of them never give one field.
-/

namespace DeclBridge

namespace Naming

variable {c : Char} {cs : List Char}

/-- The text with a capital for every underscore and the character behind it. -/
def camelCase : List Char → List Char
  | '_' :: c :: cs => c.toUpper :: camelCase cs
  | c :: cs => c :: camelCase cs
  | [] => []

theorem camelCase_cons (hc : c ≠ '_') (cs : List Char) :
    camelCase (c :: cs) = c :: camelCase cs := by
  rw [camelCase]
  exact fun _ _ heq => absurd heq hc

theorem camelCase_snakeChar (hc : c ≠ '_') (cs : List Char) :
    camelCase (snakeChar c ++ cs) = c :: camelCase cs := by
  rw [snakeChar]
  split
  · next hupper =>
    have hlower : ¬ c.isLower = true := Char.not_isLower_of_isUpper hupper
    change c.toLower.toUpper :: camelCase cs = c :: camelCase cs
    rw [Char.toUpper_toLower_eq_toUpper, Char.toUpper_eq_of_not_isLower hlower]
  · next hupper =>
    rw [Char.toLower_eq_of_not_isUpper hupper]
    exact camelCase_cons hc cs

theorem camelCase_flatMap_snakeChar (h : '_' ∉ cs) : camelCase (cs.flatMap snakeChar) = cs := by
  induction cs with
  | nil => rfl
  | cons c cs ih =>
      rw [List.mem_cons, not_or] at h
      rw [List.flatMap_cons, camelCase_snakeChar (Ne.symm h.1), ih h.2]

end Naming

/-- Whether a name is an ASCII capital with ASCII letters and digits behind it. -/
structure IsExported (name : String) : Prop where
  capital : name.toList.head?.any Char.isUpper = true
  plain : name.toList.all Char.isAlphanum = true

namespace IsExported

variable {name : String}

theorem cases (h : IsExported name) : ∃ c cs, name.toList = c :: cs ∧ c.isUpper = true := by
  have hcapital := h.capital
  cases hname : name.toList with
  | nil => simp [hname] at hcapital
  | cons c cs => exact ⟨c, cs, rfl, by simpa [hname] using hcapital⟩

theorem isAscii (h : IsExported name) : Text.IsAscii name.toList := by
  intro c hc
  have hplain := List.all_eq_true.mp h.plain c hc
  rw [Char.isAlphanum, Char.isAlpha, Bool.or_assoc, Bool.or_eq_true] at hplain
  rcases hplain with hupper | hsmall
  · exact Text.toNat_lt_of_isUpper hupper
  · exact (Naming.small_of_isLower_or_isDigit hsmall).2

theorem not_mem {c : Char} (h : IsExported name) (hc : c.isAlphanum = false) : c ∉ name.toList := by
  intro hmem
  rw [List.all_eq_true.mp h.plain c hmem] at hc
  cases hc

end IsExported

namespace Ruleset

variable {r : Ruleset} {p : Preset} {a b name : String}

/-- Without acronyms, snake case sees a name character by character, the first one as any other. -/
theorem snakeName_of_isExported (h : IsExported name)
    (hacronyms : ∀ a ∈ r.acronyms, ¬ a.toList <:+: name.toList) :
    '_' :: (r.snakeName name).toList = name.toList.flatMap Naming.snakeChar := by
  have hbare := List.filter_bne_eq_self_of_not_mem (h.not_mem (c := '_') (by decide))
  have hascii := h.isAscii
  obtain ⟨c, cs, hname, hc⟩ := h.cases
  rw [snakeName, String.toList_ofList, hbare, Naming.normalizeAcronyms_of_not_infix hacronyms]
  rw [hname] at hascii ⊢
  rw [Naming.snakeCase_ascii hascii, List.flatMap_cons, Naming.snakeChar, if_pos hc]
  rfl

theorem camelCase_snakeName (h : IsExported name)
    (hacronyms : ∀ a ∈ r.acronyms, ¬ a.toList <:+: name.toList) :
    Naming.camelCase ('_' :: (r.snakeName name).toList) = name.toList := by
  rw [snakeName_of_isExported h hacronyms]
  exact Naming.camelCase_flatMap_snakeChar (h.not_mem (by decide))

/-- Names of exported fields that differ and hold no acronym give fields that differ. -/
theorem fieldName_ne_of_isExported (ha : IsExported a) (hb : IsExported b)
    (hacronymsA : ∀ x ∈ (ofPreset p).acronyms, ¬ x.toList <:+: a.toList)
    (hacronymsB : ∀ x ∈ (ofPreset p).acronyms, ¬ x.toList <:+: b.toList) (hne : a ≠ b) :
    (ofPreset p).fieldName a ≠ (ofPreset p).fieldName b := by
  intro heq
  have hsnake : (ofPreset p).snakeName a = (ofPreset p).snakeName b := by
    rw [← withoutRaw_fieldName p (ha.not_mem (by decide)),
      ← withoutRaw_fieldName p (hb.not_mem (by decide)), heq]
  apply hne
  rw [← String.toList_inj, ← camelCase_snakeName ha hacronymsA, hsnake,
    camelCase_snakeName hb hacronymsB]

/-- Neither a keyword nor a digit in a run of capitals brings two names together. -/
theorem fieldName_ne_of_isExported_capitals :
    legacy.fieldName "Ref" ≠ legacy.fieldName "REF" ∧
      current.fieldName "HTTP2Ok" ≠ current.fieldName "HTTP2OK" :=
  ⟨fieldName_ne_of_isExported (p := .legacy) ⟨by decide, by decide⟩ ⟨by decide, by decide⟩
      (by decide) (by decide) (by decide),
    fieldName_ne_of_isExported (p := .current) ⟨by decide, by decide⟩ ⟨by decide, by decide⟩
      (by decide) (by decide) (by decide)⟩

end Ruleset

end DeclBridge
