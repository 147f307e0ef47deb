import DeclBridge.Token.Mark

/-!
The tokens of a source text. Line breaks become semicolons where they end a statement, and mean
nothing elsewhere.
-/

namespace DeclBridge

namespace Token

/-- The place one column after the first line break inside a token, if it has one. -/
def innerBreak? (t : Token) : Option Position :=
  let text := t.lexeme.toList
  if text.contains '\n' then some (t.position.shift (text.idxOf '\n' + 1)) else none

/-- Where the semicolon of a statement goes that a line break ends: before the comments behind the
statement, else at the line break. -/
def lineEndBefore (comments : List Token) (place : Position) : Token :=
  lineEnd ((comments.head?.map Token.position).getD place)

/-- The tokens of a text whose line breaks end statements. Behind a token that can end a statement
`pending` holds the comments since that token; elsewhere it is `none`. The end of the text counts as
a line break, and so does the first line break inside a comment. -/
def endStatements (last : Position) : Option (List Token) → List Mark → List Token
  | none, [] => []
  | some comments, [] => lineEndBefore comments last :: comments
  | none, .lineBreak _ :: marks => endStatements last none marks
  | some comments, .lineBreak p :: marks =>
      lineEndBefore comments p :: comments ++ endStatements last none marks
  | pending, .token t :: marks =>
      if t.kind.isComment then
        match pending, t.innerBreak? with
        | none, _ => t :: endStatements last none marks
        | some comments, none => endStatements last (some (comments ++ [t])) marks
        | some comments, some p =>
            lineEndBefore comments p :: comments ++ t :: endStatements last none marks
      else
        pending.getD [] ++ t ::
          endStatements last (if t.kind.endsStatement then some [] else none) marks

end Token

/-- The tokens of a source text and the place where the text ends. -/
structure Scanned where
  tokens : List Token
  last : Position
deriving DecidableEq, Repr

namespace Scanned

def ofSource (source : String) : Except Error Scanned := do
  let (marks, last) ← Mark.ofText .start source.toList
  return ⟨Token.endStatements last none marks, last⟩

/-- The tokens followed by the mark of the end. -/
def toList (s : Scanned) : List Token :=
  s.tokens ++ [⟨.eof, "", s.last⟩]

end Scanned

end DeclBridge
