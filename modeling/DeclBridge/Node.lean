import DeclBridge.Decl.OfTokens
import DeclBridge.Token.Scanned

/-!
The nodes of a source text: its comments, its type declarations and what else it declares, in order.
-/

namespace DeclBridge

open Cursor

namespace Node

/-- Reads all that stands at the top of a source text. Declarations of other things than types are
skipped as wholes. -/
def readAll : List Token → Except Error (List Node)
  | [] => return []
  | t :: ts =>
      match t.kind with
      | .semicolon => readAll ts
      | .comment text => return .comment ⟨text, t.line⟩ :: (← readAll ts)
      | .keyword .package => do
          let (name, c) ← identifier ts
          return .other ("package " ++ name) :: (← readAll c.1.rest)
      | .keyword .type => do
          let (nodes, c) ← Decl.read t.line ts
          return nodes ++ (← readAll c.1.rest)
      | .keyword .imports | .keyword .func | .keyword .var | .keyword .const =>
          return .other t.lexeme :: (← readAll (afterFirst t ts).skipDeclaration.1.rest)
      | _ => throw (unexpected .declaration (t :: ts))
termination_by ts => ts.length
decreasing_by
  all_goals grind

def ofSource (source : String) : Except Error (List Node) := do
  readAll (← Scanned.ofSource source).tokens

end Node

namespace TypeExpr

/-- Reads a source text that begins with a type expression; what follows the type is left alone. -/
def ofSource (source : String) : Except Error TypeExpr := do
  let (type, _) ← read (← Scanned.ofSource source).tokens
  return type

end TypeExpr

end DeclBridge
