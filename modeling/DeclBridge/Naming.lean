import DeclBridge.Text.CaseMap
import DeclBridge.Text.Split

/-!
Case forms of identifiers.
-/

namespace DeclBridge.Naming

open Text

/-- The name with its first character in capital form. -/
def capitalize : List Char → List Char
  | [] => []
  | c :: cs => upper c ++ cs

/-- The word with its first character in capital form and the others in small form. -/
def titleCase : List Char → List Char
  | [] => []
  | c :: cs => upper c ++ cs.flatMap lower

/-- The name in small letters, with an underscore for every capital that is not at the beginning. -/
def snakeCase : List Char → List Char
  | [] => []
  | c :: cs => lower c ++ cs.flatMap fun d => if isUppercase d then '_' :: lower d else [d]

/-- The name with every acronym of a table brought to title case, one acronym after the other, so
that snake case takes each as one word. -/
def normalizeAcronyms (acronyms : List String) (name : List Char) : List Char :=
  acronyms.foldl (fun name a => replaceAll a.toList (titleCase a.toList) name) name

end DeclBridge.Naming
