import DeclBridge.Json.Reader
import DeclBridge.Ruleset.Basic

/-!
Rulesets as JSON texts. A text gives some of the choices, the others are those of the current
ruleset.
-/

namespace DeclBridge.Ruleset

/-- The keys of a ruleset, in the order in which an array gives their values. -/
def keys : List String :=
  ["pointer_policy", "acronyms", "keyword_overrides", "dynamic_type", "tag_key"]

/-- The pointer policy of a name. -/
def policyOfName? (name : String) : Option PointerPolicy :=
  if name = "box" then some .box else if name = "strip" then some .strip else none

/-- The pointer policy of a value: its name, or an object with the name as its only key and a null
behind it. -/
def policyOfJson? : JsonValue → Option PointerPolicy
  | .string codes => JsonValue.text? codes >>= policyOfName?
  | .object [(codes, .null)] => JsonValue.text? codes >>= policyOfName?
  | _ => none

/-- The texts of an array. -/
def textsOfJson? : JsonValue → Option (List String)
  | .array items => items.mapM JsonValue.asText?
  | _ => none

/-- The table of an object of texts. -/
def overridesOfJson? : JsonValue → Option Overrides
  | .object members => Overrides.ofList <$> members.mapM fun (codes, value) => do
      return (← JsonValue.text? codes, ← value.asText?)
  | _ => none

/-- The text of a value, or no text for a null. -/
def optionalTextOfJson? : JsonValue → Option (Option String)
  | .null => some none
  | value => some <$> value.asText?

/-- The ruleset with the value of one key. -/
def set? (r : Ruleset) (key : String) (value : JsonValue) : Option Ruleset :=
  match key with
  | "pointer_policy" => return { r with pointerPolicy := ← policyOfJson? value }
  | "acronyms" => return { r with acronyms := ← textsOfJson? value }
  | "keyword_overrides" => return { r with overrides := ← overridesOfJson? value }
  | "dynamic_type" => return { r with dynamicType := ← optionalTextOfJson? value }
  | "tag_key" => return { r with tagKey := ← value.asText? }
  | _ => none

/-- The ruleset with the values of several keys. A key of a ruleset may stand in `seen` or among
the keys but once; others say nothing. -/
def setAll? (seen : List String) (r : Ruleset) : List (List Nat × JsonValue) → Option Ruleset
  | [] => some r
  | (codes, value) :: members => do
      let key ← JsonValue.text? codes
      if !keys.contains key then setAll? seen r members
      else if seen.contains key then none
      else setAll? (key :: seen) (← r.set? key value) members

/-- The ruleset of a value: an object of keys, or an array of the first values in order. -/
def ofJson? : JsonValue → Option Ruleset
  | .object members => setAll? [] current members
  | .array items =>
      if items.length ≤ keys.length then
        (keys.zip items).foldlM (fun r (key, value) => r.set? key value) current
      else none
  | _ => none

/-- The ruleset of a JSON text. -/
def ofText (text : String) : Except RulesetFault Ruleset :=
  match JsonValue.ofText? text.toList >>= ofJson? with
  | some r => r.validate
  | none => .error .unreadable

end DeclBridge.Ruleset
