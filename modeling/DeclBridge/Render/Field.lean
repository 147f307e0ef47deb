import DeclBridge.Render.Doc
import DeclBridge.Render.Type
import DeclBridge.Tag.Basic

/-!
Fields of Rust structs. Serialization attributes keep the names that the fields have on the wire.
-/

namespace DeclBridge

/-- A field of a Rust struct. -/
structure FieldItem where
  doc : List String
  attr : Option String
  ident : String
  type : String
deriving DecidableEq, Repr

/-- What becomes of a declared name: a field, or a note that there is none. -/
inductive FieldOutput where
  | active (item : FieldItem)
  | omitted (ident : String)
deriving DecidableEq, Repr

namespace FieldOutput

/-- The lines of the output, inside the struct. -/
def lines : FieldOutput → List String
  | active item =>
      (item.doc ++ item.attr.toList ++ ["pub " ++ item.ident ++ ": " ++ item.type ++ ","]).map
        ("    " ++ ·)
  | omitted ident => ["    // field " ++ ident ++ " is omitted"]

end FieldOutput

/-- The words that no field can be named, not even as raw identifiers. -/
def barredNames : List String := ["self", "crate", "super"]

/-- An identifier and the name it has on the wire if that is given. A reserved word gets an
underscore, and is the name on the wire then if no other is given. -/
def avoidBarred (ident : String) (wire : Option String) : String × Option String :=
  if barredNames.contains ident then (ident ++ "_", some (wire.getD ident))
  else (ident, wire)

/-- The attribute of a field whose name on the wire is given. -/
def renameAttr (wire : String) : String :=
  "#[serde(default, rename = " ++ Text.Quoted.encode wire ++ ")]"

namespace Ruleset

/-- The field that embeds a type. It is named after the type, and a tag says nothing about it. -/
def embeddedField (r : Ruleset) (f : Field) : Except Error FieldItem := do
  let name ← f.type.embeddedName
  let (ident, wire) := avoidBarred (r.fieldName name) none
  let type ← r.rustType f.type
  return ⟨docLines f.doc none, wire.map renameAttr, ident, type⟩

/-- The field of one declared name. -/
def namedField (r : Ruleset) (doc : List String) (type : String) (wire : Option String)
    (name : String) : FieldItem :=
  let (ident, wire) := avoidBarred (r.fieldName name) wire
  ⟨doc, some ((wire.map renameAttr).getD "#[serde(default)]"), ident, type⟩

/-- What becomes of the names of a field, or of the type that it embeds. -/
def fieldOutputs (r : Ruleset) (f : Field) : Except Error (List FieldOutput) := do
  if f.isEmbedded then return [.active (← r.embeddedField f)]
  let entry ← (TagEntry.ofTag? f.tag r.tagKey).mapError Tag.Failure.toError
  -- A field that is skipped needs no type.
  if entry.any TagEntry.skip then return f.names.map (.omitted ∘ r.fieldName)
  let type ← r.rustType f.type
  let type := if entry.any TagEntry.omitEmpty then "Option<" ++ type ++ ">" else type
  let wire := entry.bind TagEntry.name
  return f.names.map (.active ∘ r.namedField (docLines f.doc none) type wire)

end Ruleset

end DeclBridge
