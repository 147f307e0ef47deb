import DeclBridge.PendingDoc
import DeclBridge.Node
import DeclBridge.Render.Decl

/-!
The items of a whole source text, each with the comments in front of its declaration.
-/

namespace DeclBridge.Ruleset

/-- The items of nodes behind comments that wait for a declaration, and the diagnostics. A
declaration takes the comments that reach it; anything else but a comment drops them. -/
def itemsFrom (r : Ruleset) (b : PendingDoc) : List Node → List String × List Diagnostic
  | [] => ([], [])
  | .comment c :: nodes => r.itemsFrom (b.push c) nodes
  | .decl d :: nodes =>
      let (comments, b) := b.takeFor d.line
      let (text, diagnostics) := r.item (d.withComments comments)
      let (texts, others) := r.itemsFrom b nodes
      (text.toList ++ texts, diagnostics ++ others)
  | .other _ :: nodes => r.itemsFrom .idle nodes

/-- The items of nodes and the diagnostics, in the order of the declarations. -/
def items (r : Ruleset) (nodes : List Node) : List String × List Diagnostic :=
  r.itemsFrom .idle nodes

/-- The items of a source text and the diagnostics. -/
def itemsOfSource (r : Ruleset) (source : String) :
    Except Error (List String × List Diagnostic) :=
  r.items <$> Node.ofSource source

/-- The output for a source text, in which an empty line follows each item, and the diagnostics. -/
def outputOfSource (r : Ruleset) (source : String) : Except Error (String × List Diagnostic) := do
  let (texts, diagnostics) ← r.itemsOfSource source
  return (unlines texts, diagnostics)

end DeclBridge.Ruleset
