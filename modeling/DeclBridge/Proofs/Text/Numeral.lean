import DeclBridge.Proofs.Text.CaseMap
import DeclBridge.Text.Alphabetic
import DeclBridge.Text.Numeric

/-!
Digits and other numbers that are no letters. None of them has a case, and none is in the small form
of another character.
-/

namespace DeclBridge.Text

/-- Whether a code point is a number but no letter. -/
def isNumeralCode (n : Nat) : Bool :=
  inRanges numericRanges n && !inRanges alphabeticRanges n

/-- A number that is no letter, such as a digit or a fraction: it may stand in a word, but not begin
one. -/
def isNumeral (c : Char) : Bool :=
  isNumeralCode c.toNat

theorem exists_of_inRanges {ranges : List (Nat × Nat)} {n : Nat} (h : inRanges ranges n = true) :
    ∃ r ∈ ranges, r.1 ≤ n ∧ n ≤ r.2 := by
  induction ranges with
  | nil => cases h
  | cons r ranges ih =>
      rw [inRanges] at h
      split at h
      · cases h
      split at h
      · next hfirst hlast => exact ⟨r, by simp, Nat.le_of_not_lt hfirst, hlast⟩
      · obtain ⟨q, hq, hn⟩ := ih h
        exact ⟨q, List.mem_cons_of_mem r hq, hn⟩

theorem inRanges_roman {n : Nat} (hfirst : 0x2160 ≤ n) (hlast : n ≤ 0x2188) :
    inRanges alphabeticRanges n = true := by
  have hletters : ∀ k ≤ 0x2188 - 0x2160, inRanges alphabeticRanges (0x2160 + k) = true := by
    decide +kernel
  have hn := hletters (n - 0x2160) (by omega)
  rwa [Nat.add_sub_cancel' hfirst] at hn

/-- Whether there are no numbers between two code points, or only Roman numerals. -/
def liesApart (first last : Nat) : Bool :=
  numericRanges.all fun r =>
    last.blt r.1 || r.2.blt first || Nat.ble 0x2160 first && last.ble 0x2188

theorem isNumeralCode_of_liesApart {first last n : Nat} (h : liesApart first last = true)
    (hfirst : first ≤ n) (hlast : n ≤ last) : isNumeralCode n = false := by
  cases hnumeric : inRanges numericRanges n with
  | false => rw [isNumeralCode, hnumeric, Bool.false_and]
  | true =>
      obtain ⟨r, hr, hrfirst, hrlast⟩ := exists_of_inRanges hnumeric
      have hapart := List.all_eq_true.mp h r hr
      simp only [Bool.or_eq_true, Bool.and_eq_true, Nat.blt_eq, Nat.ble_eq] at hapart
      rw [isNumeralCode, inRanges_roman (by omega) (by omega), Bool.not_true, Bool.and_false]

theorem relates_isNumeralCode : ∀ s ∈ lowerShifts,
    s.Relates fun n code => isNumeralCode n = false ∧ isNumeralCode code = false := by
  have hapart : (lowerShifts.all fun s => liesApart s.first (s.first + (s.last - s.first)) &&
      liesApart s.image (s.image + (s.last - s.first))) = true := by
    decide +kernel
  have hvalid : ∀ s ∈ lowerShifts, s.Relates fun _ _ => True := by
    decide +kernel
  intro s hs k hk
  obtain ⟨hsource, himage⟩ := Bool.and_eq_true_iff.mp (List.all_eq_true.mp hapart s hs)
  have hreach : s.step * k ≤ s.last - s.first :=
    Nat.le_trans (Nat.mul_le_mul_left s.step (Nat.le_of_lt_succ hk)) (Nat.mul_div_le _ _)
  have hlies {first : Nat} (h : liesApart first (first + (s.last - s.first)) = true) :
      isNumeralCode (first + s.step * k) = false :=
    isNumeralCode_of_liesApart h (Nat.le_add_right _ _) (Nat.add_le_add_left hreach first)
  exact ⟨⟨hlies hsource, hlies himage⟩, (hvalid s hs k hk).2⟩

variable {c d : Char} {cs : List Char}

/-- What begins the small form of a character is a numeral if the character is one. -/
theorem isNumeral_of_lower (h : lower c = d :: cs) : isNumeral d = isNumeral c := by
  have hd : d ∈ lower c := by simp [h]
  have hrelated := mem_caseForm
    (P := fun n code => isNumeralCode n = false ∧ isNumeralCode code = false)
    (by decide +kernel) relates_isNumeralCode hd
  rcases hrelated with rfl | ⟨hc, hd⟩
  · rfl
  · rw [isNumeral, isNumeral, hc, hd]

end DeclBridge.Text
