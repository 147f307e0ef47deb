/-!
Sets of characters and character mappings given by sorted tables of code points. A look-up walks
its table from the front and stops at the first entry that begins beyond the code point.
-/

namespace DeclBridge.Text

/-- Whether `n` lies in one of the inclusive ranges of a sorted table. -/
def inRanges : List (Nat × Nat) → Nat → Bool
  | [], _ => false
  | (first, last) :: rest, n =>
      if n < first then false else if n ≤ last then true else inRanges rest n

/-- The code points `first`, `first + step`, ... up to `last`. -/
structure Run where
  first : Nat
  last : Nat
  step : Nat

/-- Whether `n` is one of the code points of the run. -/
def Run.contains (r : Run) (n : Nat) : Bool :=
  r.first ≤ n && n ≤ r.last && (n - r.first) % r.step == 0

/-- Whether `n` is in one of the runs of a sorted table. -/
def inRuns : List Run → Nat → Bool
  | [], _ => false
  | r :: rest, n => if n < r.first then false else r.contains n || inRuns rest n

/-- A run of code points together with the image of its first one; the others follow at the same
distance. -/
structure Shift extends Run where
  image : Nat

/-- The image of `n` under a sorted table of shifts, if one covers it. -/
def shifted? : List Shift → Nat → Option Nat
  | [], _ => none
  | s :: rest, n =>
      if n < s.first then none
      else if s.contains n then some (s.image + (n - s.first))
      else shifted? rest n

end DeclBridge.Text
