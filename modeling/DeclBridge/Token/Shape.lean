import DeclBridge.Token.Reach
import DeclBridge.Error

/-!
Which token begins at a character. A token's shape is known from its first characters, and the
shape together with the text gives its kind.
-/

namespace DeclBridge.Token

/-- What the first characters of a token tell about it. -/
inductive Shape where
  | comment
  | string
  | rune
  | int
  | float
  | word
  | operator
  | exact (kind : Kind)
deriving DecidableEq, Repr

namespace Shape

/-- The text without the carriage returns at its end. -/
def dropReturns (text : List Char) : List Char :=
  (text.reverse.dropWhile (· == '\r')).reverse

/-- The kind of a token of the given shape and text. -/
def kind (shape : Shape) (text : List Char) : Kind :=
  match shape with
  | comment => .comment (String.ofList (dropReturns text))
  | string => .string (String.ofList text)
  | rune => .char (String.ofList text)
  | int => .int (String.ofList text)
  | float => .float (String.ofList text)
  | word =>
      match Keyword.ofWord? (String.ofList text) with
      | some k => .keyword k
      | none => .identifier (String.ofList text)
  | operator =>
      if text = ['='] then .assign
      else if text = ['<', '-'] then .arrow
      else .operator (String.ofList text)
  | exact kind => kind

end Shape

/-- A shape and the number of characters after the first one. -/
abbrev Extent := Except LexicalFault (Shape × Nat)

/-- The extent of a literal or comment whose end was looked for. -/
def Extent.ofReach (shape : Shape) (fault : LexicalFault) : Option Nat → Extent
  | some n => .ok (shape, n)
  | none => .error fault

/-- The extent of a number; an underscore may not be its last character. -/
def numberExtent (c : Char) (cs : List Char) : Extent :=
  let hex := c == '0' && (cs.head? == some 'x' || cs.head? == some 'X')
  let (n, fractional) := Reach.number hex 0 (c == '.') cs
  let text := c :: cs.take n
  if text.getLast? = some '_' then .error (.invalidNumber (String.ofList text))
  else .ok (if fractional then .float else .int, n)

/-- The token that begins with `c`, which is no white space, before `cs`. -/
def extent (c : Char) (cs : List Char) : Extent :=
  let exactly (kind : Kind) : Extent := .ok (.exact kind, 0)
  match c, cs with
  | '/', '/' :: rest => .ok (.comment, Reach.lineComment 1 rest)
  | '/', '*' :: rest => .ofReach .comment .unterminatedComment (Reach.blockComment 1 rest)
  | '(', _ => exactly (.opening .round)
  | ')', _ => exactly (.closing .round)
  | '[', _ => exactly (.opening .square)
  | ']', _ => exactly (.closing .square)
  | '{', _ => exactly (.opening .curly)
  | '}', _ => exactly (.closing .curly)
  | ',', _ => exactly .comma
  | ';', _ => exactly .semicolon
  | '*', '=' :: _ => .ok (.exact (.operator "*="), 1)
  | '*', _ => exactly .star
  | '.', '.' :: '.' :: _ => .ok (.exact .ellipsis, 2)
  | '"', _ => .ofReach .string .unterminatedString (Reach.quoted 0 cs)
  | '`', _ => .ofReach .string .unterminatedRawString (Reach.raw 0 cs)
  | '\'', _ => .ofReach .rune .unterminatedRune (Reach.rune 0 cs)
  | _, _ =>
      if c.isDigit || (c == '.' && cs.head?.any Char.isDigit) then numberExtent c cs
      else if c = '.' then exactly .dot
      else if Text.isAlphabetic c || c == '_' then .ok (.word, Reach.word 0 cs)
      else if Reach.isOperator c then .ok (.operator, Reach.operator 0 cs)
      else .error (.unexpectedCharacter c)

end DeclBridge.Token
