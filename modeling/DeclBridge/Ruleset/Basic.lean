import DeclBridge.Naming
import DeclBridge.Error
import DeclBridge.Ruleset.Overrides

/-!
Rulesets: everything about the rendering of declarations that can be chosen.
-/

namespace DeclBridge

/-- What becomes of a pointer: a box, or nothing. -/
inductive PointerPolicy where
  | box
  | strip
deriving DecidableEq, Repr

/-- The choices of one run. -/
structure Ruleset where
  /-- What becomes of pointers. -/
  pointerPolicy : PointerPolicy
  /-- Acronyms that count as one word in names, in the order in which they are looked for. -/
  acronyms : List String
  /-- Field names that are replaced as wholes. -/
  overrides : Overrides
  /-- The type of dynamic values; without one their Go name is kept. -/
  dynamicType : Option String
  /-- The key of the tag entry that gives the name of a field on the wire. -/
  tagKey : String
deriving DecidableEq

/-- The rulesets that have a name. -/
inductive Preset where
  | current
  | legacy
deriving DecidableEq, Repr

namespace Ruleset

/-- Keywords of Rust that may be written as raw identifiers. -/
def keywords : List String :=
  ["type", "ref", "as", "async", "await", "break", "const", "continue", "dyn", "else", "enum",
   "extern", "fn", "for", "if", "impl", "in", "let", "loop", "match", "mod", "move", "mut", "pub",
   "return", "static", "struct", "trait", "unsafe", "use", "where", "while"]

/-- The table that makes raw identifiers of words and of their capitalized forms. -/
def rawIdentifiers (words : List String) : Overrides :=
  .ofList <| words.flatMap fun word =>
    [(word, "r#" ++ word), (String.ofList (Naming.capitalize word.toList), "r#" ++ word)]

/-- Boxed pointers, five acronyms, every keyword, and JSON values for dynamic values. -/
def current : Ruleset where
  pointerPolicy := .box
  acronyms := ["ID", "URL", "HTML", "SHA", "SSH"]
  overrides := rawIdentifiers keywords
  dynamicType := some "serde_json::Value"
  tagKey := "json"

/-- No pointers, two acronyms, two keywords, and no type for dynamic values. -/
def legacy : Ruleset where
  pointerPolicy := .strip
  acronyms := ["ID", "URL"]
  overrides := rawIdentifiers ["type", "ref"]
  dynamicType := none
  tagKey := "json"

/-- The ruleset of a name. -/
def ofPreset : Preset → Ruleset
  | .current => current
  | .legacy => legacy

/-- Checks that the tag key can stand in a tag and that no acronym is empty. -/
def validate (r : Ruleset) : Except RulesetFault Ruleset :=
  if r.tagKey = "" ∨ r.tagKey.toList.any [' ', ':', '"'].contains then throw (.tagKey r.tagKey)
  else if r.acronyms.contains "" then throw .emptyAcronym
  else return r

/-- The name of a field: the replacement of the Go name if there is one; else the Go name without
underscores, in snake case with acronyms as words, or the replacement of that. -/
def fieldName (r : Ruleset) (name : String) : String :=
  match r.overrides.get? name with
  | some replacement => replacement
  | none =>
      let bare := name.toList.filter (· != '_')
      let snake := String.ofList (Naming.snakeCase (Naming.normalizeAcronyms r.acronyms bare))
      (r.overrides.get? snake).getD snake

end Ruleset

/-- The name of a type: the Go name with a capital at the beginning. -/
def typeName (name : String) : String :=
  String.ofList (Naming.capitalize name.toList)

end DeclBridge
