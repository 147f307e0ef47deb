/-!
Digits and the numbers that they write.
-/

namespace DeclBridge.Text

/-- The value of a character as a digit below `base`, for bases up to sixteen. -/
def digit? (base : Nat) (c : Char) : Option Nat :=
  let value :=
    if c.isDigit then c.toNat - '0'.toNat
    else if 'a' ≤ c ∧ c ≤ 'f' then c.toNat - 'a'.toNat + 10
    else if 'A' ≤ c ∧ c ≤ 'F' then c.toNat - 'A'.toNat + 10
    else 16
  if value < base then some value else none

/-- The number that a count of digits gives when they follow the digits of `value`, and the text
behind them. -/
def digits? (base : Nat) : Nat → Nat → List Char → Option (Nat × List Char)
  | 0, value, cs => some (value, cs)
  | n + 1, value, c :: cs =>
      match digit? base c with
      | some d => digits? base n (value * base + d) cs
      | none => none
  | _ + 1, _, [] => none

theorem length_of_digits? {base n value code : Nat} {cs rest : List Char}
    (h : digits? base n value cs = some (code, rest)) : rest.length + n = cs.length := by
  fun_induction digits? base n value cs with
  | case1 => simp_all
  | case2 _ _ _ _ _ _ ih => simp [← ih h]; omega
  | case3 => simp at h
  | case4 => simp at h

end DeclBridge.Text
