import DeclBridge.Token.Basic
import DeclBridge.Text.Quoted

/-!
What can go wrong, as causes. The wording is in the `message` functions and nowhere else.
-/

namespace DeclBridge

/-- A place in a source text that no token begins or where one does not end. -/
inductive LexicalFault where
  | unexpectedCharacter (c : Char)
  | unterminatedString
  | unterminatedRawString
  | unterminatedRune
  | unterminatedComment
  | invalidNumber (text : String)
deriving DecidableEq, Repr

def LexicalFault.message : LexicalFault → String
  | unexpectedCharacter c => "Unexpected character '" ++ c.toString ++ "'"
  | unterminatedString => "Unterminated string"
  | unterminatedRawString => "Unterminated raw string"
  | unterminatedRune => "Unterminated rune literal"
  | unterminatedComment => "Unterminated block comment"
  | invalidNumber text => "Invalid number: " ++ text

/-- What a reader of declarations was looking for. -/
inductive Expectation where
  | declaration
  | declarationEnd
  | fieldEnd
  | type
  | identifier
  | opening
  | token (kind : Token.Kind)
deriving DecidableEq, Repr

def Expectation.message : Expectation → String
  | declaration => "top-level declaration"
  | declarationEnd => "end of type declaration"
  | fieldEnd => "end of field"
  | type => "type"
  | identifier => "identifier"
  | opening => "'\x7b', '(' or '['"
  | token kind => kind.phrase

/-- Why a text is not a string literal. -/
inductive LiteralFault where
  | notLiteral (text : String)
  | backtick
  | bareQuote
  | newline
  | trailingBackslash
  | hexDigits
  | codePoint (code : Nat)
  | octalDigits
  | octalRange
  | unknownEscape (c : Char)
deriving DecidableEq, Repr

def LiteralFault.message : LiteralFault → String
  | notLiteral text => "not a string literal: " ++ text
  | backtick => "backtick inside raw string"
  | bareQuote => "unescaped quote"
  | newline => "newline in string"
  | trailingBackslash => "trailing backslash"
  | hexDigits => "invalid hex escape"
  | codePoint code => "invalid code point 0x" ++ String.ofList (Nat.toDigits 16 code)
  | octalDigits => "invalid octal escape"
  | octalRange => "octal escape out of range"
  | unknownEscape c => "invalid escape sequence \\" ++ c.toString

/-- Why a struct tag gives no value for a key that it should give one for. -/
inductive TagFault where
  | literal (fault : LiteralFault)
  | unterminatedValue (key : String)
  | missingKey
deriving DecidableEq, Repr

def TagFault.message : TagFault → String
  | literal fault => fault.message
  | unterminatedValue key => "unterminated value for key " ++ key
  | missingKey => "no serialization key"

/-- Why a text is not a ruleset. -/
inductive RulesetFault where
  | unreadable
  | tagKey (key : String)
  | emptyAcronym
deriving DecidableEq, Repr

def RulesetFault.message : RulesetFault → String
  | unreadable => "invalid ruleset"
  | tagKey key => "tag_key " ++ Text.Quoted.encode key ++ " is not a valid struct tag key"
  | emptyAcronym => "empty acronym " ++ Text.Quoted.encode ""

/-- Why a file cannot be read or written. -/
inductive DiskFault where
  | missing
  | notFolder
  | isFolder
  | notText
  | nulInName
  | nameTooLong
  | full
deriving DecidableEq, Repr

def DiskFault.message : DiskFault → String
  | missing => "No such file or directory (os error 2)"
  | notFolder => "Not a directory (os error 20)"
  | isFolder => "Is a directory (os error 21)"
  | notText => "stream did not contain valid UTF-8"
  | nulInName => "file name contained an unexpected NUL byte"
  | nameTooLong => "File name too long (os error 36)"
  | full => "limit reached"

/-- Everything that can stop the reading, the rendering or the writing of declarations. -/
inductive Error where
  | lexical (position : Position) (fault : LexicalFault)
  | unexpectedEnd
  | unexpectedToken (expected : Expectation) (got : Token.Kind) (line : Nat)
  | unknownSelector (qualifier name : String)
  | unsupportedType (shape : String)
  | unsupportedEmbed (shape : String)
  | malformedTag (tag : String) (fault : TagFault)
  | ruleset (path : Option String) (fault : RulesetFault)
  | disk (path : String) (fault : DiskFault)
deriving DecidableEq, Repr

namespace Error

def message : Error → String
  | lexical p fault =>
      "Syntax error at line " ++ toString p.line ++ ", column " ++ toString p.column ++ ": " ++
        fault.message
  | unexpectedEnd => "Unexpected end of file"
  | unexpectedToken expected got line =>
      "Unexpected token at line " ++ toString line ++ ": expected " ++ expected.message ++
        ", got " ++ got.phrase
  | unknownSelector qualifier name => "unknown selector " ++ qualifier ++ "." ++ name
  | unsupportedType shape => "unknown type " ++ shape
  | unsupportedEmbed shape => "cannot derive field name from embedded " ++ shape
  | malformedTag tag fault => "malformed tag " ++ tag ++ ": " ++ fault.message
  | ruleset none fault => "Config error: " ++ fault.message
  | ruleset (some path) fault => "Config error: " ++ path ++ ": " ++ fault.message
  | disk path fault => path ++ ": " ++ fault.message

/-- Whether the error lies in a source text that cannot be read at all. -/
def inSource : Error → Bool
  | lexical .. | unexpectedEnd | unexpectedToken .. => true
  | _ => false

end Error

theorem bind_eq_ok {α β : Type} {x : Except Error α} {f : α → Except Error β} {b : β} :
    (x >>= f) = .ok b ↔ ∃ a, x = .ok a ∧ f a = .ok b := by
  cases x <;> simp [bind, Except.bind]

theorem eq_ok_of_toOption {ε α : Type} {x : Except ε α} {a : α} (h : x.toOption = some a) :
    x = .ok a := by
  cases x with
  | error => cases h
  | ok => exact congrArg Except.ok (Option.some.inj h)

end DeclBridge
