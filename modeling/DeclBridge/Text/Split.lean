/-!
Cutting of a text at a character, and replacing of one text by another inside a third.
-/

namespace DeclBridge.Text

/-- The pieces of a text between the occurrences of `sep`: one more than there are occurrences. -/
def split (sep : Char) : List Char → List (List Char)
  | [] => [[]]
  | c :: cs =>
      match split sep cs with
      | piece :: pieces => if c = sep then [] :: piece :: pieces else (c :: piece) :: pieces
      | [] => []

/-- The text with every occurrence of `pattern` replaced, found from the left and without overlaps.
An empty pattern occurs nowhere. -/
def replaceAll (pattern replacement : List Char) : List Char → List Char
  | [] => []
  | c :: cs =>
      if pattern ≠ [] ∧ pattern.isPrefixOf (c :: cs) then
        replacement ++ replaceAll pattern replacement (cs.drop (pattern.length - 1))
      else c :: replaceAll pattern replacement cs
termination_by cs => cs.length
decreasing_by
  · simp only [List.length_drop, List.length_cons]
    omega
  · simp

end DeclBridge.Text
