import DeclBridge.Text.CaseTable

/-!
Case of single characters. The case forms of a character do not depend on its neighbours and may be
several characters long.
-/

namespace DeclBridge.Text

/-- A capital letter of any script. -/
def isUppercase (c : Char) : Bool :=
  inRuns uppercaseRuns c.toNat

/-- The image of a character under a case mapping: an expansion, else a shift, else itself. -/
def caseForm (expansions : List (Nat × List Nat)) (shifts : List Shift) (c : Char) : List Char :=
  match expansions.lookup c.toNat with
  | some codes => codes.map Char.ofNat
  | none =>
      match shifted? shifts c.toNat with
      | some code => [Char.ofNat code]
      | none => [c]

def lower (c : Char) : List Char :=
  caseForm lowerExpansions lowerShifts c

def upper (c : Char) : List Char :=
  caseForm upperExpansions upperShifts c

end DeclBridge.Text
