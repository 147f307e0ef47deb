/-!
Go type expressions, as far as declarations of data need them, and their text.
-/

namespace DeclBridge

/-- A type expression. The length of an array is an expression of its own, read as a type is; shapes
that have no data form are kept by name only. -/
inductive TypeExpr where
  | named (name : String)
  | pointer (target : TypeExpr)
  | slice (elem : TypeExpr)
  | array (elem length : TypeExpr)
  | map (key value : TypeExpr)
  | qualified (qualifier name : String)
  | dynamic
  | unsupported (shape : String)
deriving DecidableEq, Repr, Inhabited

namespace TypeExpr

/-- The type expression as it is written in Go. -/
def text : TypeExpr → String
  | named name => name
  | pointer target => "*" ++ target.text
  | slice elem => "[]" ++ elem.text
  | array elem length => "[" ++ length.text ++ "]" ++ elem.text
  | map key value => "map[" ++ key.text ++ "]" ++ value.text
  | qualified qualifier name => qualifier ++ "." ++ name
  | dynamic => "interface\x7b\x7d"
  | unsupported shape => "<" ++ shape ++ ">"

end TypeExpr

end DeclBridge
