import DeclBridge.Diagnostic
import DeclBridge.Render.Field

/-!
Rust items for type declarations. A field that cannot be rendered is left out of its struct, and a
diagnostic tells so.
-/

namespace DeclBridge

/-- The attribute in front of every struct. -/
def structDerives : String :=
  "#[derive(Debug, Clone, PartialEq, Default, serde::Serialize, serde::Deserialize)]"

/-- Lines as a text in which each ends with a newline. -/
def unlines (lines : List String) : String :=
  String.join (lines.map (· ++ "\n"))

theorem unlines_cons (line : String) (lines : List String) :
    unlines (line :: lines) = line ++ "\n" ++ unlines lines := by
  rw [unlines, List.map_cons, String.join_cons]
  rfl

theorem unlines_append (lines others : List String) :
    unlines (lines ++ others) = unlines lines ++ unlines others := by
  rw [unlines, List.map_append, String.join_append]
  rfl

namespace Ruleset

/-- The lines of the fields that can be rendered, and the diagnostics of the others. -/
def fieldLines (r : Ruleset) (record : String) : List Field → List String × List Diagnostic
  | [] => ([], [])
  | f :: fields =>
      let (lines, diagnostics) := r.fieldLines record fields
      match r.fieldOutputs f with
      | .ok outputs => (outputs.flatMap FieldOutput.lines ++ lines, diagnostics)
      | .error e => (lines, ⟨.field, record ++ "." ++ f.label, e⟩ :: diagnostics)

/-- The struct of a record. -/
def structItem (r : Ruleset) (record : Record) : String × List Diagnostic :=
  let (lines, diagnostics) := r.fieldLines record.name record.fields
  let opening := "pub struct " ++ typeName record.name ++ " \x7b"
  (unlines (docLines record.comments record.trailing ++ [structDerives, opening] ++ lines ++
    ["\x7d"]), diagnostics)

/-- The type alias of an alias, if its type can be rendered. -/
def aliasItem (r : Ruleset) (a : Alias) : Option String × List Diagnostic :=
  match r.rustType a.type with
  | .ok type =>
      let line := "pub type " ++ typeName a.name ++ " = " ++ type ++ ";"
      (some (unlines (docLines a.comments a.trailing ++ [line])), [])
  | .error e => (none, [⟨.type, a.name, e⟩])

/-- The item of a declaration, if it has one. -/
def item (r : Ruleset) : Decl → Option String × List Diagnostic
  | .record record =>
      let (text, diagnostics) := r.structItem record
      (some text, diagnostics)
  | .alias a => r.aliasItem a

end Ruleset

end DeclBridge
