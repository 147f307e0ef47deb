import DeclBridge.Text.Digit
import Mathlib.Data.Nat.Digits.Defs

/-!
Digits as they are written. Reading a count of digits gives the number that they write, and what
stands behind them; nothing else is read as digits.
-/

namespace DeclBridge.Text

/-- A digit as it is written: with a large letter or not, where it is a letter. -/
structure Digit (base : Nat) where
  value : Fin base
  large : Bool

namespace Digit

variable {base : Nat}

def char (d : Digit base) : Char :=
  if d.large then d.value.val.digitChar.toUpper else d.value.val.digitChar

/-- The number that digits write. -/
def number (ds : List (Digit base)) : Nat :=
  Nat.ofDigits base (ds.reverse.map fun d => d.value.val)

@[simp]
theorem number_nil : number ([] : List (Digit base)) = 0 := rfl

theorem number_cons (d : Digit base) (ds : List (Digit base)) :
    number (d :: ds) = d.value.val * base ^ ds.length + number ds := by
  simp only [number, List.reverse_cons, List.map_append, List.map_cons, List.map_nil,
    Nat.ofDigits_append, List.length_map, List.length_reverse, Nat.ofDigits_singleton]
  ring

theorem number_lt (hbase : 1 < base) (ds : List (Digit base)) : number ds < base ^ ds.length := by
  have hlt := Nat.ofDigits_lt_base_pow_length (l := ds.reverse.map fun d => d.value.val) hbase
    (by simp)
  rwa [List.length_map, List.length_reverse] at hlt

end Digit

theorem digit?_eq_some_iff {base v : Nat} (hbase : base ≤ 16) {c : Char} :
    digit? base c = some v ↔ digit? 16 c = some v ∧ v < base := by
  simp only [digit?, Option.ite_none_right_eq_some, Option.some.injEq]
  constructor
  · rintro ⟨hlt, rfl⟩
    exact ⟨⟨Nat.lt_of_lt_of_le hlt hbase, rfl⟩, hlt⟩
  · rintro ⟨⟨-, rfl⟩, hlt⟩
    exact ⟨hlt, rfl⟩

theorem toNat_lt_of_digit? {v : Nat} {c : Char} (h : digit? 16 c = some v) : c.toNat < 128 := by
  simp only [digit?, Option.ite_none_right_eq_some, Option.some.injEq] at h
  obtain ⟨hlt, -⟩ := h
  split_ifs at hlt with hdigit hsmall hlarge
  · have hlast : c.toNat ≤ 57 := of_decide_eq_true (Bool.and_eq_true_iff.mp hdigit).2
    omega
  · have hlast : c.toNat ≤ 102 := hsmall.2
    omega
  · have hlast : c.toNat ≤ 70 := hlarge.2
    omega
  · omega

theorem digit?_digitChar {d : Nat} (h : d < 16) : digit? 16 d.digitChar = some d := by
  have hall : ∀ d < 16, digit? 16 d.digitChar = some d := by decide
  exact hall d h

/-- A digit is the character of its value, and of no other. -/
theorem digit?_sixteen_iff {v : Nat} {c : Char} :
    digit? 16 c = some v ↔ v < 16 ∧ (c = v.digitChar ∨ c = v.digitChar.toUpper) := by
  have hread : ∀ n < 128, ∀ v ∈ digit? 16 (Char.ofNat n),
      v < 16 ∧ (Char.ofNat n = v.digitChar ∨ Char.ofNat n = v.digitChar.toUpper) := by
    decide +kernel
  have hlarge : ∀ v < 16, digit? 16 v.digitChar.toUpper = some v := by decide
  constructor
  · intro h
    have hc := hread c.toNat (toNat_lt_of_digit? h)
    rw [Char.ofNat_toNat] at hc
    exact hc v h
  · rintro ⟨hlt, rfl | rfl⟩
    · exact digit?_digitChar hlt
    · exact hlarge v hlt

theorem digit?_char {base : Nat} (hbase : base ≤ 16) (d : Digit base) :
    digit? base d.char = some d.value.val := by
  have hlt := d.value.isLt
  rw [digit?_eq_some_iff hbase, digit?_sixteen_iff, Digit.char]
  refine ⟨⟨Nat.lt_of_lt_of_le hlt hbase, ?_⟩, hlt⟩
  cases d.large with
  | false => exact .inl rfl
  | true => exact .inr rfl

theorem Digit.char_ne {base : Nat} (hbase : base ≤ 16) (d : Digit base) {c : Char}
    (h : digit? 16 c = none) : d.char ≠ c := by
  rintro rfl
  have hdigit := ((digit?_eq_some_iff hbase).mp (digit?_char hbase d)).1
  rw [h] at hdigit
  cases hdigit

theorem exists_digit {base v : Nat} (hbase : base ≤ 16) {c : Char} (h : digit? base c = some v) :
    ∃ d : Digit base, d.char = c ∧ d.value.val = v := by
  obtain ⟨hdigit, hlt⟩ := (digit?_eq_some_iff hbase).mp h
  obtain ⟨-, hc | hc⟩ := digit?_sixteen_iff.mp hdigit
  · exact ⟨⟨⟨v, hlt⟩, false⟩, hc.symm, rfl⟩
  · exact ⟨⟨⟨v, hlt⟩, true⟩, hc.symm, rfl⟩

/-- Digits are read where they are written, and nothing else is read as digits. -/
theorem digits?_eq_some_iff {base : Nat} (hbase : base ≤ 16) {n value code : Nat}
    {cs rest : List Char} :
    digits? base n value cs = some (code, rest) ↔
      ∃ ds : List (Digit base), ds.length = n ∧ cs = ds.map Digit.char ++ rest ∧
        code = value * base ^ n + Digit.number ds := by
  fun_induction digits? base n value cs with
  | case1 value cs =>
      constructor
      · rintro ⟨⟩
        exact ⟨[], rfl, rfl, by simp⟩
      · rintro ⟨ds, hlength, rfl, rfl⟩
        rw [List.eq_nil_of_length_eq_zero hlength]
        simp
  | case2 n value c cs v hv ih =>
      rw [ih]
      constructor
      · rintro ⟨ds, rfl, rfl, rfl⟩
        obtain ⟨d, rfl, rfl⟩ := exists_digit hbase hv
        refine ⟨d :: ds, rfl, rfl, ?_⟩
        rw [Digit.number_cons, Nat.pow_succ']
        ring
      · rintro ⟨_ | ⟨d, ds⟩, hlength, hcs, rfl⟩
        · cases hlength
        · obtain ⟨rfl, rfl⟩ := List.cons.inj hcs
          obtain rfl := Option.some.inj (hv.symm.trans (digit?_char hbase d))
          obtain rfl := Nat.succ.inj hlength
          refine ⟨ds, rfl, rfl, ?_⟩
          rw [Digit.number_cons, Nat.pow_succ']
          ring
  | case3 n value c cs hnone =>
      constructor
      · rintro ⟨⟩
      · rintro ⟨_ | ⟨d, ds⟩, hlength, hcs, -⟩
        · cases hlength
        · obtain ⟨rfl, -⟩ := List.cons.inj hcs
          cases hnone.symm.trans (digit?_char hbase d)
  | case4 n value =>
      constructor
      · rintro ⟨⟩
      · rintro ⟨_ | ⟨d, ds⟩, hlength, hcs, -⟩
        · cases hlength
        · cases hcs

theorem digits?_zero_iff {base : Nat} (hbase : base ≤ 16) {n code : Nat} {cs rest : List Char} :
    digits? base n 0 cs = some (code, rest) ↔
      ∃ ds : List (Digit base), ds.length = n ∧ cs = ds.map Digit.char ++ rest ∧
        code = Digit.number ds := by
  rw [digits?_eq_some_iff hbase]
  simp only [Nat.zero_mul, Nat.zero_add]

end DeclBridge.Text
