import DeclBridge.Decl.Basic
import DeclBridge.TypeExpr.OfTokens

/-!
Reading of type declarations: fields, structs, single specifications and groups of them. Comments
are tokens, so each reader says where they may stand and to what they belong.
-/

namespace DeclBridge

open Cursor

namespace Comment

/-- The comment that a token is, if it is one. -/
def ofToken? (t : Token) : Option Comment :=
  match t.kind with
  | .comment text => some ⟨text, t.line⟩
  | _ => none

end Comment

namespace Field

/-- Whether a token may follow a field. -/
def endsField : Token.Kind → Bool
  | .semicolon | .closing .curly | .comment _ => true
  | _ => false

/-- The text of a string literal. -/
def literal? (t : Token) : Option String :=
  match t.kind with
  | .string text => some text
  | _ => none

/-- Takes the tag of a field, if there is one, and checks that the field ends behind it. -/
def readEnd (names : List String) (type : TypeExpr) {ts : List Token} (c : After ts) :
    Reading Field ts :=
  let (tag, d) := c.takeIf literal?
  if d.1.rest.head?.any (endsField ·.kind) then return (⟨names, type, tag, []⟩, d)
  else throw (unexpected .fieldEnd d.1.rest)

/-- Takes names, each with a comma before it. -/
def readNames (line : Nat) (ts : List Token) :
    Except Error (List String × { c : Cursor // c.rest.length ≤ ts.length }) := do
  if nextIs .comma ts then
    let c ← expect .comma ts
    let (name, d) ← identifier c.1.rest
    let (names, e) ← readNames d.1.line d.1.rest
    return (name :: names, ⟨e.1, Nat.le_of_lt (Nat.lt_of_le_of_lt e.2 (c.trans d).2)⟩)
  else return ([], ⟨⟨line, ts⟩, Nat.le_refl _⟩)
termination_by ts.length
decreasing_by
  grind

/-- Whether a field that is a single name so far embeds the type of that name. -/
def endsEmbedded : Token.Kind → Bool
  | .semicolon | .closing .curly | .string _ | .comment _ => true
  | _ => false

/-- Takes one field. -/
def read (ts : List Token) : Reading Field ts := do
  if nextIs .star ts then
    let (type, c) ← TypeExpr.read ts
    readEnd [] type c
  else
    let (first, c) ← identifier ts
    -- A name alone, qualified or not, embeds a type; otherwise names stand in front of the type.
    if nextIs .dot c.1.rest then
      let (type, d) ← TypeExpr.readMember first c
      readEnd [] type d
    else if c.1.rest.head?.any (endsEmbedded ·.kind) then
      readEnd [] (.named first) c
    else
      let (names, d) ← readNames c.1.line c.1.rest
      let (type, e) ← TypeExpr.read d.1.rest
      readEnd (first :: names) type (c.within d.2 e)

/-- Takes the fields of a struct and the brace that closes it. A comment on the line on which the
last token of the field before it stands is dropped, any other belongs to the next field. -/
def readAll (lastLine : Nat) (doc : List Comment) : (ts : List Token) → Reading (List Field) ts
  | [] => .error .unexpectedEnd
  | t :: ts =>
      match t.kind with
      | .semicolon => do
          let (fields, c) ← readAll lastLine doc ts
          return (fields, c.cons t)
      | .comment text => do
          let doc := if t.line = lastLine then doc else doc ++ [⟨text, t.line⟩]
          let (fields, c) ← readAll lastLine doc ts
          return (fields, c.cons t)
      | .closing .curly => return ([], afterFirst t ts)
      | _ => do
          let (field, c) ← read (t :: ts)
          let (fields, d) ← readAll c.1.line [] c.1.rest
          return ({ field with doc } :: fields, c.trans d)
termination_by ts => ts.length
decreasing_by
  all_goals grind

end Field

namespace Decl

/-- Whether the bracket behind a type name begins type parameters and not the length of an array:
behind the first name stands a constraint, or a comma, or a pointer and then a comma. -/
def hasParameters : List Token → Bool
  | _ :: t :: u :: us =>
      match t.kind, u.kind with
      | .identifier _, .identifier _ => true
      | .identifier _, .keyword word => [.interface, .map, .chan, .func].contains word
      | .identifier _, .opening .square => true
      | .identifier _, .comma => true
      | .identifier _, .operator text => text == "~"
      -- A star alone may be part of a length.
      | .identifier _, .star =>
          match us with
          | v :: w :: _ =>
              match v.kind, w.kind with
              | .identifier _, .comma => true
              | _, _ => false
          | _ => false
      | _, _ => false
  | _ => false

/-- Whether a token may follow a declaration. -/
def endsDecl : Token.Kind → Bool
  | .semicolon | .closing .round | .comment _ => true
  | _ => false

/-- Takes a comment that begins on the line on which the last token stands. The semicolon of a line
break may stand in between. -/
def readTrailing {ts : List Token} (c : After ts) : Option Comment × After ts :=
  let (_, d) := c.takeIf fun t => if t.isLineEnd then some t else none
  match d.takeIf fun t => (Comment.ofToken? t).filter (·.line = c.1.line) with
  | (some comment, e) => (some comment, e)
  -- Without a comment the semicolon is not taken either.
  | (none, _) => (none, c)

/-- Takes what a type name stands for: the fields of a struct or another type. -/
def readBody (name : String) (line : Nat) (ts : List Token) : Reading Decl ts := do
  if nextIs (.keyword .struct) ts then
    let c ← expect (.keyword .struct) ts
    let d ← expect (.opening .curly) c.1.rest
    -- Line 0 is the line of no token: a comment behind the brace belongs to the first field.
    let (fields, e) ← Field.readAll 0 [] d.1.rest
    return (.record ⟨name, line, fields, [], none⟩, c.trans (d.trans e))
  else
    let (type, c) ← TypeExpr.read ts
    return (.alias ⟨name, line, type, [], none⟩, c)

/-- The declaration with a comment behind it. -/
def withTrailing (trailing : Option Comment) : Decl → Decl
  | .record r => .record { r with trailing }
  | .alias a => .alias { a with trailing }

/-- Takes a name and what it stands for, as a declaration on the given line. Generic types are
skipped. -/
def readSpec (line : Nat) (ts : List Token) : Reading Node ts := do
  let (name, c) ← identifier ts
  if nextIs (.opening .square) c.1.rest && hasParameters c.1.rest then
    return (.other ("generic type " ++ name), c.skipDeclaration)
  let (_, d) := c.takeIf fun t => if t.kind = .assign then some t else none
  let (decl, e) ← readBody name line d.1.rest
  let f := d.trans e
  if f.1.rest.head?.all (endsDecl ·.kind) then
    let (trailing, g) := readTrailing f
    return (.decl (decl.withTrailing trailing), g)
  else throw (unexpected .declarationEnd f.1.rest)

/-- Takes the specifications of a group and the parenthesis that closes it. A specification with
nothing in front of it but the beginning of the group is on the line of the keyword, given by
`line`; another is on its own. -/
def readGroup (line : Option Nat) : (ts : List Token) → Reading (List Node) ts
  | [] => .error .unexpectedEnd
  | t :: ts =>
      match t.kind with
      | .semicolon => do
          let (nodes, c) ← readGroup line ts
          return (nodes, c.cons t)
      | .comment text => do
          let (nodes, c) ← readGroup none ts
          return (.comment ⟨text, t.line⟩ :: nodes, c.cons t)
      | .closing .round => return ([], afterFirst t ts)
      | _ => do
          let (node, c) ← readSpec (line.getD t.line) (t :: ts)
          let (nodes, d) ← readGroup none c.1.rest
          return (node :: nodes, c.trans d)
termination_by ts => ts.length
decreasing_by
  all_goals grind

/-- Takes what follows the keyword of a type declaration on the given line. -/
def read (line : Nat) (ts : List Token) : Reading (List Node) ts := do
  if nextIs (.opening .round) ts then
    let c ← expect (.opening .round) ts
    let (nodes, d) ← readGroup (some line) c.1.rest
    return (nodes, c.trans d)
  else
    let (node, c) ← readSpec line ts
    return ([node], c)

end Decl

end DeclBridge
