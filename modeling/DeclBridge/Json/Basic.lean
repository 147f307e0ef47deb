/-!
Values of JSON texts.
-/

namespace DeclBridge

/-- A JSON value. A string is kept as the code points that its text gives, among which may be
surrogates, and a number as it is written. -/
inductive JsonValue where
  | null
  | bool (b : Bool)
  | number (text : String)
  | string (codes : List Nat)
  | array (items : List JsonValue)
  | object (members : List (List Nat × JsonValue))

namespace JsonValue

/-- The characters of code points among which pairs of surrogates stand for one character. A
surrogate without a partner is no character. -/
def characters? : List Nat → Option (List Char)
  | [] => some []
  | code :: codes =>
      if code.isValidChar then (characters? codes).map (Char.ofNat code :: ·)
      else
        match codes with
        | low :: rest =>
            if 0xD800 ≤ code ∧ code < 0xDC00 ∧ 0xDC00 ≤ low ∧ low < 0xE000 then
              (characters? rest).map
                (Char.ofNat (0x10000 + (code - 0xD800) * 0x400 + (low - 0xDC00)) :: ·)
            else none
        | [] => none

def text? (codes : List Nat) : Option String :=
  (characters? codes).map String.ofList

def asText? : JsonValue → Option String
  | string codes => text? codes
  | _ => none

end JsonValue

end DeclBridge
