import DeclBridge.Error
import DeclBridge.Text.Digit

/-!
The values of Go string literals. An escape denotes one character by its code point, also where it
gives two hexadecimal or three octal digits.
-/

namespace DeclBridge.Tag.Literal

open Text (digits? length_of_digits?)

/-- The character of a code point, if it has one. -/
def character (code : Nat) : Except LiteralFault Char :=
  if code.isValidChar then .ok (Char.ofNat code) else .error (.codePoint code)

/-- The character that so many hexadecimal digits give, and the text behind them. -/
def hexCharacter (count : Nat) (cs : List Char) : Except LiteralFault (Char × List Char) :=
  match digits? 16 count 0 cs with
  | some (code, rest) => return (← character code, rest)
  | none => .error .hexDigits

/-- The character that an octal digit and the two behind it give, and the text behind them. -/
def octalCharacter (first : Char) (cs : List Char) : Except LiteralFault (Char × List Char) :=
  match digits? 8 3 0 (first :: cs) with
  | some (code, rest) => if code ≤ 0xFF then .ok (Char.ofNat code, rest) else .error .octalRange
  | none => .error .octalDigits

/-- The character that a backslash before the text gives, and the text behind the escape. -/
def escape : List Char → Except LiteralFault (Char × List Char)
  | [] => .error .trailingBackslash
  | c :: cs =>
      match c with
      | 'a' => .ok ('\x07', cs)
      | 'b' => .ok ('\x08', cs)
      | 'f' => .ok ('\x0c', cs)
      | 'n' => .ok ('\n', cs)
      | 'r' => .ok ('\r', cs)
      | 't' => .ok ('\t', cs)
      | 'v' => .ok ('\x0b', cs)
      | '\\' => .ok ('\\', cs)
      | '"' => .ok ('"', cs)
      | 'x' => hexCharacter 2 cs
      | 'u' => hexCharacter 4 cs
      | 'U' => hexCharacter 8 cs
      | _ => if '0' ≤ c ∧ c ≤ '7' then octalCharacter c cs else .error (.unknownEscape c)

theorem length_of_hexCharacter {n : Nat} {c : Char} {cs rest : List Char}
    (h : hexCharacter n cs = .ok (c, rest)) : rest.length ≤ cs.length := by
  unfold hexCharacter at h
  split at h
  · rename_i code rest' hd
    have := length_of_digits? hd
    cases hc : character code with
    | ok d =>
        simp only [hc, bind, Except.bind, pure, Except.pure, Except.ok.injEq, Prod.mk.injEq] at h
        rw [← h.2]
        omega
    | error => simp [hc, bind, Except.bind] at h
  · simp at h

theorem length_of_octalCharacter {first c : Char} {cs rest : List Char}
    (h : octalCharacter first cs = .ok (c, rest)) : rest.length ≤ cs.length := by
  unfold octalCharacter at h
  split at h
  · rename_i hd
    have := length_of_digits? hd
    split at h
    · simp only [List.length_cons, Except.ok.injEq, Prod.mk.injEq] at this h
      rw [← h.2]
      omega
    · simp at h
  · simp at h

theorem length_of_escape {c : Char} {cs rest : List Char} (h : escape cs = .ok (c, rest)) :
    rest.length < cs.length := by
  unfold escape at h
  split at h
  · simp at h
  · split at h
    case h_10 | h_11 | h_12 => exact Nat.lt_succ_of_le (length_of_hexCharacter h)
    case h_13 =>
      split at h
      · exact Nat.lt_succ_of_le (length_of_octalCharacter h)
      · simp at h
    all_goals simp_all

/-- The value of the text between the quotes of an interpreted literal. -/
def decodeBody : List Char → Except LiteralFault (List Char)
  | [] => return []
  | c :: cs =>
      if c = '"' then throw .bareQuote
      else if c = '\n' then throw .newline
      else if c = '\\' then
        match _h : escape cs with
        | .ok (d, rest) => return d :: (← decodeBody rest)
        | .error fault => throw fault
      else return c :: (← decodeBody cs)
termination_by cs => cs.length
decreasing_by
  · simpa using Nat.lt_succ_of_lt (length_of_escape _h)
  · simp

/-- The value of a string literal. An interpreted literal stands between double quotes; a raw one
stands between backticks and loses its carriage returns. -/
def decode (text : List Char) : Except LiteralFault (List Char) :=
  match text with
  | '`' :: rest =>
      if rest.getLast? = some '`' then
        if rest.dropLast.contains '`' then throw .backtick
        else return rest.dropLast.filter (· != '\r')
      else throw (.notLiteral (String.ofList text))
  | '"' :: rest =>
      if rest.getLast? = some '"' then decodeBody rest.dropLast
      else throw (.notLiteral (String.ofList text))
  | _ => throw (.notLiteral (String.ofList text))

end DeclBridge.Tag.Literal
