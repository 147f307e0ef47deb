/-!
Places in a source text. Lines and columns count from one; a column is one character, a tab too.
-/

namespace DeclBridge

/-- A line and a column of a source text. -/
structure Position where
  line : Nat
  column : Nat
deriving DecidableEq, Repr

namespace Position

/-- The place of the first character of a text. -/
def start : Position := ⟨1, 1⟩

/-- The place on the same line `n` columns further. -/
def shift (p : Position) (n : Nat) : Position :=
  ⟨p.line, p.column + n⟩

/-- The place after the character at `p`. -/
def after (p : Position) (c : Char) : Position :=
  if c = '\n' then ⟨p.line + 1, 1⟩ else p.shift 1

/-- The place after a text that begins at `p`. -/
def afterAll (p : Position) (cs : List Char) : Position :=
  cs.foldl after p

@[simp]
theorem afterAll_nil (p : Position) : p.afterAll [] = p := rfl

@[simp]
theorem afterAll_cons (p : Position) (c : Char) (cs : List Char) :
    p.afterAll (c :: cs) = (p.after c).afterAll cs := rfl

theorem afterAll_append (p : Position) (cs ds : List Char) :
    p.afterAll (cs ++ ds) = (p.afterAll cs).afterAll ds :=
  List.foldl_append

end Position

end DeclBridge
