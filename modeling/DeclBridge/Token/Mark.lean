import DeclBridge.Token.Shape

/-!
The marks of a source text: its tokens as they are written, and the line breaks between them.
-/

namespace DeclBridge

/-- What stands in a source text apart from blanks: a line break, with the place one column after
it, or a token. -/
inductive Mark where
  | lineBreak (behind : Position)
  | token (t : Token)
deriving DecidableEq, Repr

namespace Mark

/-- White space within a line. -/
def isBlank (c : Char) : Bool :=
  c == ' ' || c == '\r' || c == '\t'

/-- The place after a token of the given shape. A rune literal stays on its line, whatever it
holds. -/
def behind (p : Position) (shape : Token.Shape) (text : List Char) : Position :=
  if shape = .rune then p.shift text.length else p.afterAll text

/-- The marks of the text from `p` on, and the place where the text ends. -/
def ofText (p : Position) : List Char → Except Error (List Mark × Position)
  | [] => .ok ([], p)
  | c :: cs =>
      if isBlank c then ofText (p.shift 1) cs
      else if c = '\n' then do
        let (marks, last) ← ofText ⟨p.line + 1, 1⟩ cs
        return (lineBreak (p.shift 1) :: marks, last)
      else
        match Token.extent c cs with
        | .error fault => .error (.lexical p fault)
        | .ok (shape, n) => do
            let text := c :: cs.take n
            let (marks, last) ← ofText (behind p shape text) (cs.drop n)
            return (token ⟨shape.kind text, String.ofList text, p⟩ :: marks, last)
termination_by cs => cs.length
decreasing_by
  all_goals grind

end Mark

end DeclBridge
