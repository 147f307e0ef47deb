import DeclBridge.Text.CaseMap

/-!
What the case mappings can give. An image that differs from its character is a letter: no
punctuation, digit or control appears or goes when the case of a text changes. On ASCII the
mappings are the plain ones.
-/

namespace DeclBridge.Text

theorem toNat_ofNat {code : Nat} (h : code.isValidChar) : (Char.ofNat code).toNat = code := by
  rw [Char.ofNat, dif_pos h]
  rfl

/-- The images of a run are characters, and a relation holds between each code point and its
image. -/
def Shift.Relates (P : Nat → Nat → Prop) (s : Shift) : Prop :=
  ∀ k < (s.last - s.first) / s.step + 1,
    P (s.first + s.step * k) (s.image + s.step * k) ∧ (s.image + s.step * k).isValidChar

instance {P : Nat → Nat → Prop} [∀ n code, Decidable (P n code)] (s : Shift) :
    Decidable (s.Relates P) :=
  inferInstanceAs (Decidable (∀ k < (s.last - s.first) / s.step + 1,
    P (s.first + s.step * k) (s.image + s.step * k) ∧ (s.image + s.step * k).isValidChar))

variable {expansions : List (Nat × List Nat)} {shifts : List Shift} {P : Nat → Nat → Prop}
  {c d : Char}

theorem Shift.Relates.image {s : Shift} {n : Nat} (h : s.Relates P) (hn : s.contains n = true) :
    P n (s.image + (n - s.first)) ∧ (s.image + (n - s.first)).isValidChar := by
  simp only [Run.contains, Bool.and_eq_true, decide_eq_true_eq, beq_iff_eq] at hn
  obtain ⟨⟨hfirst, hlast⟩, hstep⟩ := hn
  have hk : (n - s.first) / s.step < (s.last - s.first) / s.step + 1 :=
    Nat.lt_succ_of_le (Nat.div_le_div_right (by omega))
  have hrelates := h _ hk
  rw [Nat.mul_div_cancel' (Nat.dvd_of_mod_eq_zero hstep), Nat.add_sub_cancel' hfirst] at hrelates
  exact hrelates

theorem shifted?_relates {n code : Nat} (hshifts : ∀ s ∈ shifts, s.Relates P)
    (h : shifted? shifts n = some code) : P n code ∧ code.isValidChar := by
  induction shifts with
  | nil => cases h
  | cons s shifts ih =>
      rw [shifted?] at h
      split at h
      · cases h
      split at h
      · next hn =>
          rw [← Option.some.inj h]
          exact (hshifts s (by simp)).image hn
      · exact ih (fun t ht => hshifts t (List.mem_cons_of_mem _ ht)) h

/-- What relates the code points of a table to their images relates a character to every other one
in its image. -/
theorem mem_caseForm (hexpansions : ∀ e ∈ expansions, ∀ code ∈ e.2, P e.1 code ∧ code.isValidChar)
    (hshifts : ∀ s ∈ shifts, s.Relates P) (h : d ∈ caseForm expansions shifts c) :
    d = c ∨ P c.toNat d.toNat := by
  unfold caseForm at h
  split at h
  · next codes hcodes =>
      obtain ⟨code, hcode, rfl⟩ := List.mem_map.mp h
      obtain ⟨before, after, rfl, -⟩ := List.lookup_eq_some_iff.mp hcodes
      obtain ⟨hrelated, hvalid⟩ := hexpansions (c.toNat, codes) (by simp) code hcode
      rw [toNat_ofNat hvalid]
      exact .inr hrelated
  split at h
  · next code hcode =>
      obtain ⟨hrelated, hvalid⟩ := shifted?_relates hshifts hcode
      rw [List.mem_singleton.mp h, toNat_ofNat hvalid]
      exact .inr hrelated
  · exact .inl (List.mem_singleton.mp h)

theorem caseForm_ne_nil (hexpansions : ∀ e ∈ expansions, e.2 ≠ []) :
    caseForm expansions shifts c ≠ [] := by
  unfold caseForm
  split
  · next codes hcodes =>
      obtain ⟨before, after, rfl, -⟩ := List.lookup_eq_some_iff.mp hcodes
      exact fun h => hexpansions (c.toNat, codes) (by simp) (List.map_eq_nil_iff.mp h)
  split <;> simp

theorem mem_lower (h : d ∈ lower c) : d = c ∨ 'a'.toNat ≤ d.toNat :=
  mem_caseForm (P := fun _ code => 'a'.toNat ≤ code) (by decide +kernel) (by decide +kernel) h

theorem mem_upper (h : d ∈ upper c) : d = c ∨ 'A'.toNat ≤ d.toNat :=
  mem_caseForm (P := fun _ code => 'A'.toNat ≤ code) (by decide +kernel) (by decide +kernel) h

theorem lower_ne_nil : lower c ≠ [] :=
  caseForm_ne_nil (by decide)

theorem eq_of_mem_upper_between (hfirst : 'Z'.toNat < d.toNat) (hlast : d.toNat < 'a'.toNat)
    (h : d ∈ upper c) : d = c := by
  have hletter := mem_caseForm (P := fun _ code => code ≤ 'Z'.toNat ∨ 'a'.toNat ≤ code)
    (by decide +kernel) (by decide +kernel) h
  exact hletter.resolve_right (by omega)

/-- But for two letters, what is ASCII in a small form comes from ASCII: the sign of the kelvin has
the small form k, and the dotted capital I one that begins with i. -/
theorem toNat_lt_of_mem_lower (hd : d.toNat < 0x80) (hi : d ≠ 'i') (hk : d ≠ 'k')
    (h : d ∈ lower c) : c.toNat < 0x80 := by
  have hrelated := mem_caseForm
    (P := fun n code => n < 0x80 ∨ 0x80 ≤ code ∨ code = 'i'.toNat ∨ code = 'k'.toNat)
    (by decide +kernel) (by decide +kernel) h
  rcases hrelated with rfl | hc | hle | heq | heq
  · exact hd
  · exact hc
  · exact absurd hle (Nat.not_le_of_lt hd)
  · exact absurd (Char.toNat_inj.mp heq) hi
  · exact absurd (Char.toNat_inj.mp heq) hk

theorem eq_of_mem_lower (hd : d.toNat < 'A'.toNat) (h : d ∈ lower c) : d = c := by
  apply (mem_lower h).resolve_right
  have hle : 'A'.toNat ≤ 'a'.toNat := by decide
  omega

theorem eq_of_mem_upper (hd : d.toNat < 'A'.toNat) (h : d ∈ upper c) : d = c :=
  (mem_upper h).resolve_right (Nat.not_le_of_lt hd)

theorem ascii_cases {P : Char → Prop} (h : ∀ n < 0x80, P (Char.ofNat n)) (hc : c.toNat < 0x80) :
    P c := by
  rw [← Char.ofNat_toNat c]
  exact h c.toNat hc

theorem lower_ascii (hc : c.toNat < 0x80) : lower c = [c.toLower] :=
  ascii_cases (P := fun c => lower c = [c.toLower]) (by decide +kernel) hc

theorem isUppercase_ascii (hc : c.toNat < 0x80) : isUppercase c = c.isUpper :=
  ascii_cases (P := fun c => isUppercase c = c.isUpper) (by decide +kernel) hc

theorem toNat_le_of_isUpper (h : c.isUpper = true) : c.toNat ≤ 'Z'.toNat :=
  (of_decide_eq_true h).2

theorem toNat_lt_of_isUpper (h : c.isUpper = true) : c.toNat < 0x80 :=
  Nat.lt_of_le_of_lt (toNat_le_of_isUpper h) (by decide)

theorem isUpper_of_mem_lower (h : d ∈ lower c) : d.isUpper = false := by
  rw [Bool.eq_false_iff]
  intro hd
  have hascii := toNat_lt_of_isUpper hd
  rcases mem_lower h with rfl | hle
  · have hsmall := ascii_cases (P := fun c => c.toLower.isUpper = false) (by decide +kernel) hascii
    rw [lower_ascii hascii, List.mem_singleton] at h
    rw [← h, hd] at hsmall
    cases hsmall
  · exact absurd hle (Nat.not_le_of_lt (Nat.lt_of_le_of_lt (toNat_le_of_isUpper hd) (by decide)))

end DeclBridge.Text
