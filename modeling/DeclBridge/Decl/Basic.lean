import DeclBridge.TypeExpr.Basic

/-!
Type declarations with the comments that belong to them.
-/

namespace DeclBridge

/-- A comment with its delimiters, and the line on which it begins. -/
structure Comment where
  text : String
  line : Nat
deriving DecidableEq, Repr

def Comment.lastLine (c : Comment) : Nat :=
  c.line + c.text.toList.count '\n'

/-- One line of a struct: the names it declares, none if it embeds a type. -/
structure Field where
  names : List String
  type : TypeExpr
  tag : Option String
  doc : List Comment
deriving DecidableEq, Repr

namespace Field

def isEmbedded (f : Field) : Bool :=
  f.names.isEmpty

/-- The field as diagnostics name it. -/
def label (f : Field) : String :=
  if f.isEmbedded then f.type.text else String.intercalate ", " f.names

end Field

/-- The declaration of a struct type. -/
structure Record where
  name : String
  line : Nat
  fields : List Field
  comments : List Comment
  trailing : Option Comment
deriving DecidableEq, Repr

/-- The declaration of any other type. -/
structure Alias where
  name : String
  line : Nat
  type : TypeExpr
  comments : List Comment
  trailing : Option Comment
deriving DecidableEq, Repr

/-- A type declaration. -/
inductive Decl where
  | record (r : Record)
  | alias (a : Alias)
deriving DecidableEq, Repr

namespace Decl

def name : Decl → String
  | .record r => r.name
  | .alias a => a.name

/-- The line that comments in front of the declaration have to reach. -/
def line : Decl → Nat
  | .record r => r.line
  | .alias a => a.line

/-- The declaration with other comments in front of it. -/
def withComments (comments : List Comment) : Decl → Decl
  | .record r => .record { r with comments }
  | .alias a => .alias { a with comments }

end Decl

/-- What stands at the top of a source text: a comment, a type declaration, or something else, of
which only a short name is kept. -/
inductive Node where
  | comment (c : Comment)
  | decl (d : Decl)
  | other (what : String)
deriving DecidableEq, Repr

end DeclBridge
