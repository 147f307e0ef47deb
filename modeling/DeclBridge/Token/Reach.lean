import DeclBridge.Text.Alphabetic
import DeclBridge.Text.Numeric

/-!
How far a token reaches. Each function is given the text behind the characters of a token that are
already read, together with their number, and gives the number of characters of the whole token;
`none` means that the token does not end.
-/

namespace DeclBridge.Token.Reach

/-- As long as the characters satisfy `p`. -/
def whileTrue (p : Char → Bool) : Nat → List Char → Nat
  | n, [] => n
  | n, c :: cs => if p c then whileTrue p (n + 1) cs else n

/-- To the end of the line. -/
def lineComment (n : Nat) (cs : List Char) : Nat :=
  whileTrue (· != '\n') n cs

/-- Through the first star that a slash follows. -/
def blockComment : Nat → List Char → Option Nat
  | _, [] => none
  | n, '*' :: '/' :: _ => some (n + 2)
  | n, _ :: cs => blockComment (n + 1) cs

/-- Through the closing quote, on the same line; a backslash takes the next character with it. -/
def quoted : Nat → List Char → Option Nat
  | _, [] => none
  | n, '"' :: _ => some (n + 1)
  | _, '\n' :: _ => none
  | _, '\\' :: '\n' :: _ => none
  | n, '\\' :: _ :: cs => quoted (n + 2) cs
  | n, _ :: cs => quoted (n + 1) cs

/-- Through the closing backtick. -/
def raw : Nat → List Char → Option Nat
  | _, [] => none
  | n, c :: cs => if c = '`' then some (n + 1) else raw (n + 1) cs

/-- Through the closing apostrophe, on the same line; a backslash takes the next character with
it, a newline too. -/
def rune : Nat → List Char → Option Nat
  | _, [] => none
  | n, '\'' :: _ => some (n + 1)
  | _, '\n' :: _ => none
  | n, '\\' :: _ :: cs => rune (n + 2) cs
  | n, _ :: cs => rune (n + 1) cs

def continuesWord (c : Char) : Bool :=
  Text.isAlphabetic c || Text.isNumeric c || c == '_'

/-- To the end of a word. -/
def word (n : Nat) (cs : List Char) : Nat :=
  whileTrue continuesWord n cs

/-- Characters of operators. A star stands alone or before an equals sign. -/
def isOperator (c : Char) : Bool :=
  ['+', '-', '/', '%', '&', '|', '^', '<', '>', '=', '!', ':', '~'].contains c

/-- As long as the characters belong to operators; a comment ends the operator. -/
def operator : Nat → List Char → Nat
  | n, [] => n
  | n, c :: cs =>
      if c = '/' ∧ (cs.head? = some '/' ∨ cs.head? = some '*') then n
      else if isOperator c then operator (n + 1) cs
      else n

/-- Letters and digits that may stand in a number. -/
def isDigitLike (c : Char) : Bool :=
  c.isAlphanum || c == '_'

/-- The letter that begins an exponent. -/
def isExponentMark (hex : Bool) (c : Char) : Bool :=
  if hex then c == 'p' || c == 'P' else c == 'e' || c == 'E'

/-- To the end of a number, and whether it is more than an integer: it has a point, an exponent or
an imaginary unit. A sign belongs to the exponent that it follows; two points in a row end the
number. -/
def number (hex : Bool) : Nat → Bool → List Char → Nat × Bool
  | n, fractional, [] => (n, fractional)
  | n, fractional, c :: cs =>
      if isDigitLike c then
        if isExponentMark hex c then
          match cs with
          | [] => (n + 1, true)
          | sign :: rest =>
              if sign = '+' ∨ sign = '-' then number hex (n + 2) true rest
              else number hex (n + 1) true (sign :: rest)
        else number hex (n + 1) (fractional || c == 'i') cs
      else if c = '.' ∧ cs.head? ≠ some '.' then number hex (n + 1) true cs
      else (n, fractional)

end DeclBridge.Token.Reach
