import DeclBridge.Text.CodeRange

/-!
White space of Unicode, and texts without the white space around them.
-/

namespace DeclBridge.Text

/-- The ranges of the property `White_Space`, sorted. -/
def blankRanges : List (Nat × Nat) :=
  [(0x9, 0xD), (0x20, 0x20), (0x85, 0x85), (0xA0, 0xA0), (0x1680, 0x1680), (0x2000, 0x200A),
   (0x2028, 0x2029), (0x202F, 0x202F), (0x205F, 0x205F), (0x3000, 0x3000)]

/-- A character that is white space, on a line or between lines. -/
def isBlank (c : Char) : Bool :=
  inRanges blankRanges c.toNat

/-- The text without white space at its beginning and its end. -/
def trim (cs : List Char) : List Char :=
  (((cs.dropWhile isBlank).reverse).dropWhile isBlank).reverse

end DeclBridge.Text
