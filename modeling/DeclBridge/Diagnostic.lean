import DeclBridge.Error

/-!
Diagnostics: what was left out of the output, and why.
-/

namespace DeclBridge

/-- What a diagnostic is about. -/
inductive Subject where
  | field
  | type
  | file
deriving DecidableEq, Repr

/-- A part of the input that could not be rendered. -/
structure Diagnostic where
  subject : Subject
  context : String
  error : Error
deriving DecidableEq, Repr

def Diagnostic.message (d : Diagnostic) : String :=
  let what := match d.subject with
    | .field => "failed to render field "
    | .type => "failed to render type "
    | .file => "failed to translate "
  what ++ d.context ++ ": " ++ d.error.message

end DeclBridge
