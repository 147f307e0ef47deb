import DeclBridge.Tag.Literal
import DeclBridge.Text.Split

/-!
Struct tags: string literals that hold a quoted value for each of several keys, and the meaning of
the value that names a field on the wire.
-/

namespace DeclBridge

namespace Tag

/-- A character that may stand in a key. -/
def isKeyChar (c : Char) : Bool :=
  ' ' < c && c != ':' && c != '"' && c != '\x7f'

/-- The number of characters through the closing quote of a value, of which `n` characters are read
already; a backslash takes the next character with it. -/
def valueReach : Nat → List Char → Option Nat
  | _, [] => none
  | n, '"' :: _ => some (n + 1)
  | n, '\\' :: _ :: cs => valueReach (n + 2) cs
  | n, _ :: cs => valueReach (n + 1) cs

/-- The value of a key in the text of a tag, `none` if the tag has no value for it. Pairs of a key
and a value stand one behind the other; what is no such pair ends the tag, and is a fault only in
the value that is looked for. -/
def find? (key : List Char) (tag : List Char) : Except TagFault (Option (List Char)) :=
  let pair := tag.dropWhile (· == ' ')
  let name := pair.takeWhile isKeyChar
  match _h : pair.dropWhile isKeyChar with
  | ':' :: '"' :: cs =>
      if name = [] then return none
      else
        match valueReach 0 cs with
        | none => if name = key then throw (.unterminatedValue (String.ofList key)) else return none
        | some n =>
            if name = key then
              match Literal.decode ('"' :: cs.take n) with
              | .ok value => return some value
              | .error fault => throw (.literal fault)
            else find? key (cs.drop n)
  | _ => return none
termination_by tag.length
decreasing_by
  have hpair := (List.dropWhile_suffix (p := (· == ' ')) (l := tag)).length_le
  have hcs := (List.dropWhile_suffix (p := isKeyChar) (l := tag.dropWhile (· == ' '))).length_le
  grind

/-- Why a tag gives no value for a key. -/
inductive Failure where
  | notFound (tag : String)
  | malformed (tag : String) (fault : TagFault)
deriving DecidableEq, Repr

namespace Failure

def message : Failure → String
  | notFound tag => "failed to lookup json tag in " ++ tag
  | malformed tag fault => "malformed tag " ++ tag ++ ": " ++ fault.message

/-- The failure as an error of a field. -/
def toError : Failure → Error
  | notFound tag => .malformedTag tag .missingKey
  | malformed tag fault => .malformedTag tag fault

end Failure

/-- The value of a key in a tag, which is given as the literal in the source text. -/
def valueOf (literal key : String) : Except Failure String :=
  match Literal.decode literal.toList with
  | .error fault => .error (.malformed literal (.literal fault))
  | .ok tag =>
      match find? key.toList tag with
      | .ok (some value) => .ok (String.ofList value)
      | .ok none => .error (.notFound literal)
      | .error fault => .error (.malformed literal fault)

end Tag

/-- What the value of a tag says about a field: its name on the wire, if it gives one, whether the
field is left out when empty, whether it never appears, and the flags that mean nothing here. -/
structure TagEntry where
  name : Option String
  omitEmpty : Bool
  skip : Bool
  flags : List String
deriving DecidableEq, Repr

namespace TagEntry

/-- The entry that a value spells: a dash, or a name and flags between commas. -/
def ofValue (value : String) : TagEntry :=
  if value = "-" then ⟨none, false, true, []⟩
  else
    let pieces := (Text.split ',' value.toList).map String.ofList
    let flags := pieces.tail
    ⟨pieces.head?.filter (· ≠ ""), flags.contains "omitempty", false,
      flags.filter (· ≠ "omitempty")⟩

/-- The entry for a key in the tag of a field. A field without a tag has none, and neither has one
whose tag does not mention the key. -/
def ofTag? (literal : Option String) (key : String) : Except Tag.Failure (Option TagEntry) :=
  match literal with
  | none => .ok none
  | some literal =>
      match Tag.valueOf literal key with
      | .ok value => .ok (some (ofValue value))
      | .error (.notFound _) => .ok none
      | .error failure => .error failure

end TagEntry

end DeclBridge
