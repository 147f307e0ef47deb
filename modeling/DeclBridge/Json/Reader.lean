import DeclBridge.Json.Basic
import DeclBridge.Text.Digit

/-!
Reading of JSON texts. Nothing is read that the grammar of JSON does not allow, and nothing of it is
left out.
-/

namespace DeclBridge.JsonValue

/-- A text that is shorter than `cs`: what is left of it when something is read. -/
abbrev Shorter (cs : List Char) := { rest : List Char // rest.length < cs.length }

/-- What is read from a text, and what is left of it. -/
abbrev Reading (α : Type) (cs : List Char) := Option (α × Shorter cs)

/-- Readings follow one another. -/
def Shorter.trans {cs : List Char} (r : Shorter cs) (s : Shorter r.1) : Shorter cs :=
  ⟨s.1, Nat.lt_trans s.2 r.2⟩

/-- White space between the tokens of a JSON text. -/
def isBlank (c : Char) : Bool :=
  c == ' ' || c == '\n' || c == '\t' || c == '\r'

/-- Takes the first character that is no white space. -/
def readChar : (cs : List Char) → Reading Char cs
  | [] => none
  | c :: cs =>
      if isBlank c then (readChar cs).map fun (d, r) => (d, ⟨r.1, Nat.lt_succ_of_lt r.2⟩)
      else some (c, ⟨cs, Nat.lt_succ_self _⟩)

/-- The code point of an escape of one letter. -/
def letterEscape? : Char → Option Nat
  | '"' => some '"'.toNat
  | '\\' => some '\\'.toNat
  | '/' => some '/'.toNat
  | 'b' => some 0x8
  | 'f' => some 0xC
  | 'n' => some 0xA
  | 'r' => some 0xD
  | 't' => some 0x9
  | _ => none

/-- Takes one character of a string or an escape, and gives its code point. -/
def readCode : (cs : List Char) → Reading Nat cs
  | '\\' :: 'u' :: a :: b :: c :: d :: cs =>
      (Text.digits? 16 4 0 [a, b, c, d]).map fun (code, _) =>
        (code, ⟨cs, by simp only [List.length_cons]; omega⟩)
  | '\\' :: c :: cs =>
      (letterEscape? c).map fun code => (code, ⟨cs, by simp only [List.length_cons]; omega⟩)
  | '\\' :: [] => none
  | c :: cs => if c < ' ' then none else some (c.toNat, ⟨cs, Nat.lt_succ_self _⟩)
  | [] => none

/-- Takes the code points of a string and its closing quote. -/
def readString (cs : List Char) : Reading (List Nat) cs :=
  match cs with
  | '"' :: cs => some ([], ⟨cs, Nat.lt_succ_self _⟩)
  | cs => do
      let (code, r) ← readCode cs
      let (codes, s) ← readString r.1
      return (code :: codes, r.trans s)
termination_by cs.length
decreasing_by exact r.2

/-- A character that may stand in a number. -/
def isNumberChar (c : Char) : Bool :=
  c.isDigit || ['-', '+', '.', 'e', 'E'].contains c

/-- Whether the text is empty or an exponent. -/
def isExponent : List Char → Bool
  | [] => true
  | mark :: cs =>
      let digits := if cs.head? = some '+' ∨ cs.head? = some '-' then cs.tail else cs
      (mark == 'e' || mark == 'E') && !digits.isEmpty && digits.all Char.isDigit

/-- Whether the text is a fraction with an exponent, either of which may be missing. -/
def isFraction : List Char → Bool
  | '.' :: cs => (cs.head?.any Char.isDigit) && isExponent (cs.dropWhile Char.isDigit)
  | cs => isExponent cs

/-- Whether the text is a number without a sign. A zero begins no longer integer. -/
def isUnsigned (cs : List Char) : Bool :=
  let digits := cs.takeWhile Char.isDigit
  !digits.isEmpty && (digits == ['0'] || digits.head? != some '0') &&
    isFraction (cs.dropWhile Char.isDigit)

/-- Whether the text is a number. -/
def isNumber : List Char → Bool
  | '-' :: cs => isUnsigned cs
  | cs => isUnsigned cs

/-- Takes the rest of a number behind its first character. -/
def readNumber {cs : List Char} (first : Char) (r : Shorter cs) : Reading JsonValue cs :=
  let text := first :: r.1.takeWhile isNumberChar
  if isNumber text then
    some (.number (String.ofList text),
      ⟨r.1.dropWhile isNumberChar,
        Nat.lt_of_le_of_lt (List.dropWhile_suffix isNumberChar).length_le r.2⟩)
  else none

/-- Takes the rest of a word that stands for a value behind its first character. -/
def readWord {cs : List Char} (tail : List Char) (value : JsonValue) (r : Shorter cs) :
    Reading JsonValue cs :=
  if tail.isPrefixOf r.1 then
    some (value, ⟨r.1.drop tail.length, by simp only [List.length_drop]; omega⟩)
  else none

mutual

/-- Takes a value and the white space before it. -/
def readValue (cs : List Char) : Reading JsonValue cs := do
  let (c, r) ← readChar cs
  match c with
  | '"' => do
      let (codes, s) ← readString r.1
      return (.string codes, r.trans s)
  | '[' =>
      match readChar r.1 with
      | some (']', s) => return (.array [], r.trans s)
      | _ => do
          let (items, s) ← readItems r.1
          return (.array items, r.trans s)
  | '{' =>
      match readChar r.1 with
      | some ('}', s) => return (.object [], r.trans s)
      | _ => do
          let (members, s) ← readMembers r.1
          return (.object members, r.trans s)
  | 'n' => readWord ['u', 'l', 'l'] .null r
  | 't' => readWord ['r', 'u', 'e'] (.bool true) r
  | 'f' => readWord ['a', 'l', 's', 'e'] (.bool false) r
  | _ => readNumber c r
termination_by 2 * cs.length

/-- Takes the items of an array, of which there is at least one, and the bracket behind them. -/
def readItems (cs : List Char) : Reading (List JsonValue) cs := do
  let (item, r) ← readValue cs
  match ← readChar r.1 with
  | (',', s) => do
      let (items, t) ← readItems s.1
      return (item :: items, r.trans (s.trans t))
  | (']', s) => return ([item], r.trans s)
  | _ => none
termination_by 2 * cs.length + 1

/-- Takes the members of an object, of which there is at least one, and the brace behind them. -/
def readMembers (cs : List Char) : Reading (List (List Nat × JsonValue)) cs := do
  let (quote, r) ← readChar cs
  if quote ≠ '"' then none
  let (name, s) ← readString r.1
  let (colon, t) ← readChar s.1
  if colon ≠ ':' then none
  let (value, u) ← readValue t.1
  match ← readChar u.1 with
  | (',', v) => do
      let (members, w) ← readMembers v.1
      return ((name, value) :: members, r.trans (s.trans (t.trans (u.trans (v.trans w)))))
  | ('}', v) => return ([(name, value)], r.trans (s.trans (t.trans (u.trans v))))
  | _ => none
termination_by 2 * cs.length + 1

end

/-- Reads a JSON text: one value, with white space around it. -/
def ofText? (cs : List Char) : Option JsonValue :=
  match readValue cs with
  | some (value, rest) => if rest.1.all isBlank then some value else none
  | none => none

end DeclBridge.JsonValue
