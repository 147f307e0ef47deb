import DeclBridge.Position

/-!
Tokens of Go source text. Only the keywords that matter to declarations are told apart from
identifiers, and operators that never matter are one kind.
-/

namespace DeclBridge

/-- The three pairs of delimiters that nest. -/
inductive Bracket where
  | round
  | square
  | curly
deriving DecidableEq, Repr

/-- The words that are not identifiers. -/
inductive Keyword where
  | package
  | imports
  | type
  | struct
  | interface
  | map
  | chan
  | func
  | var
  | const
deriving DecidableEq, Repr

namespace Keyword

def spelling : Keyword → String
  | package => "package"
  | imports => "import"
  | type => "type"
  | struct => "struct"
  | interface => "interface"
  | map => "map"
  | chan => "chan"
  | func => "func"
  | var => "var"
  | const => "const"

def all : List Keyword :=
  [package, imports, type, struct, interface, map, chan, func, var, const]

def ofWord? (word : String) : Option Keyword :=
  all.find? fun k => k.spelling == word

end Keyword

namespace Token

/-- What a token is. Literals, identifiers, operators and comments carry their text. -/
inductive Kind where
  | int (text : String)
  | float (text : String)
  | char (text : String)
  | string (text : String)
  | identifier (name : String)
  | keyword (word : Keyword)
  | opening (bracket : Bracket)
  | closing (bracket : Bracket)
  | comma
  | dot
  | ellipsis
  | semicolon
  | star
  | assign
  | arrow
  | operator (text : String)
  | comment (text : String)
  | eof
deriving DecidableEq, Repr

namespace Kind

/-- Whether a line break after the token ends the statement. -/
def endsStatement : Kind → Bool
  | int _ | float _ | char _ | string _ | identifier _ | closing _ => true
  | operator text => text == "++" || text == "--"
  | _ => false

def isComment : Kind → Bool
  | comment _ => true
  | _ => false

/-- The token as error texts name it. -/
def phrase : Kind → String
  | int text | float text => "number " ++ text
  | char text | string text => "literal " ++ text
  | identifier name => "identifier '" ++ name ++ "'"
  | keyword word => "'" ++ word.spelling ++ "'"
  | opening .round => "'('"
  | opening .square => "'['"
  | opening .curly => "'\x7b'"
  | closing .round => "')'"
  | closing .square => "']'"
  | closing .curly => "'\x7d'"
  | comma => "','"
  | dot => "'.'"
  | ellipsis => "'...'"
  | semicolon => "';'"
  | star => "'*'"
  | assign => "'='"
  | arrow => "'<-'"
  | operator text => "'" ++ text ++ "'"
  | comment _ => "comment"
  | eof => "end of file"

end Kind

end Token

/-- A token, its text as written and the place where it begins. -/
structure Token where
  kind : Token.Kind
  lexeme : String
  position : Position
deriving DecidableEq, Repr

namespace Token

def line (t : Token) : Nat := t.position.line

/-- The semicolon that a line break stands for. -/
def lineEnd (p : Position) : Token := ⟨.semicolon, "\n", p⟩

/-- Whether the token is a semicolon that nobody wrote. -/
def isLineEnd (t : Token) : Bool :=
  t.kind == .semicolon && t.lexeme == "\n"

end Token

end DeclBridge
