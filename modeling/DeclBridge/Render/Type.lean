import DeclBridge.Ruleset.Basic
import DeclBridge.TypeExpr.Basic

/-!
Rust types for Go type expressions.
-/

namespace DeclBridge

namespace TypeExpr

/-- The Rust type of a predeclared Go type that has one under every ruleset. -/
def primitive? : String → Option String
  | "int" => some "i32"
  | "int8" => some "i8"
  | "int16" => some "i16"
  | "int32" => some "i32"
  | "int64" => some "i64"
  | "uint" => some "u32"
  | "uint8" => some "u8"
  | "uint16" => some "u16"
  | "uint32" => some "u32"
  | "uint64" => some "u64"
  | "uintptr" => some "usize"
  | "byte" => some "u8"
  | "rune" => some "i32"
  | "float32" => some "f32"
  | "float64" => some "f64"
  | "string" => some "String"
  | "bool" => some "bool"
  | _ => none

/-- The name that an embedded field takes from its type: that of the type, without a pointer and
without a qualifier. -/
def embeddedName : TypeExpr → Except Error String
  | named name | qualified _ name => return name
  | pointer (named name) | pointer (qualified _ name) => return name
  | pointer target => throw (.unsupportedEmbed target.text)
  | type => throw (.unsupportedEmbed type.text)

end TypeExpr

namespace Ruleset

/-- The Rust type that a Go type name stands for. -/
def rustName (r : Ruleset) (name : String) : String :=
  match TypeExpr.primitive? name, r.dynamicType with
  | some primitive, _ => primitive
  | none, some dynamic => if name = "any" then dynamic else typeName name
  | none, none => typeName name

/-- The Rust type of a type expression. Of several parts that have none the first counts, an
element before its length and a key before its value. A point in time is a text on the wire. -/
def rustType (r : Ruleset) : TypeExpr → Except Error String
  | .named name => return r.rustName name
  | .pointer target => do
      let target ← r.rustType target
      match r.pointerPolicy with
      | .box => return "Box<" ++ target ++ ">"
      | .strip => return target
  | .slice elem => return "Vec<" ++ (← r.rustType elem) ++ ">"
  | .array elem length => do
      let elem ← r.rustType elem
      let length ← r.rustType length
      return "[" ++ elem ++ "; " ++ length ++ "]"
  | .map key value => do
      let key ← r.rustType key
      let value ← r.rustType value
      return "HashMap<" ++ key ++ ", " ++ value ++ ">"
  | .qualified qualifier name =>
      if qualifier = "time" ∧ name = "Time" then return "String"
      else throw (.unknownSelector qualifier name)
  | .dynamic => return r.dynamicType.getD "any"
  | .unsupported shape => throw (.unsupportedType shape)

end Ruleset

end DeclBridge
