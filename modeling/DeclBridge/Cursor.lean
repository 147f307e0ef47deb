import DeclBridge.Error

/-!
Steps that every reader of declarations takes: a single token, a bracketed group, the rest of a
declaration. A step that takes a token leaves fewer tokens, and its result says so.
-/

namespace DeclBridge

/-- A place between two tokens: the line on which the token before it begins, and the tokens behind
it. -/
structure Cursor where
  line : Nat
  rest : List Token
deriving DecidableEq, Repr

namespace Cursor

/-- A place that is reached by taking at least one of the tokens. -/
abbrev After (ts : List Token) := { c : Cursor // c.rest.length < ts.length }

/-- What is read from tokens, and the place where reading goes on. -/
abbrev Reading (α : Type) (ts : List Token) := Except Error (α × After ts)

/-- The place behind the first token. -/
def afterFirst (t : Token) (ts : List Token) : After (t :: ts) :=
  ⟨⟨t.line, ts⟩, Nat.lt_succ_self _⟩

/-- A place after some of the later tokens is a place after some of all tokens. -/
def After.cons {ts : List Token} (t : Token) (c : After ts) : After (t :: ts) :=
  ⟨c.1, Nat.lt_succ_of_lt c.2⟩

/-- Steps follow one another. -/
def After.trans {ts : List Token} (c : After ts) (d : After c.1.rest) : After ts :=
  ⟨d.1, Nat.lt_trans d.2 c.2⟩

/-- A step among tokens of which there are no more than behind an earlier step. -/
def After.within {ts us : List Token} (c : After ts) (h : us.length ≤ c.1.rest.length)
    (d : After us) : After ts :=
  ⟨d.1, Nat.lt_trans (Nat.lt_of_lt_of_le d.2 h) c.2⟩

/-- Takes the next token if `p` gives something for it. -/
def After.takeIf {ts : List Token} {α : Type} (c : After ts) (p : Token → Option α) :
    Option α × After ts :=
  match h : c.1.rest with
  | t :: us =>
      match p t with
      | some a => (some a, c.within (Nat.le_of_eq (by rw [h])) (afterFirst t us))
      | none => (none, c)
  | [] => (none, c)

/-- The error that something else than the next token was expected. -/
def unexpected (expected : Expectation) : List Token → Error
  | [] => .unexpectedEnd
  | t :: _ => .unexpectedToken expected t.kind t.line

/-- Whether the next token is of the given kind. -/
def nextIs (kind : Token.Kind) (ts : List Token) : Bool :=
  ts.head?.any (·.kind = kind)

def expect (kind : Token.Kind) : (ts : List Token) → Except Error (After ts)
  | t :: ts =>
      if t.kind = kind then .ok (afterFirst t ts)
      else .error (unexpected (.token kind) (t :: ts))
  | [] => .error .unexpectedEnd

def identifier : (ts : List Token) → Reading String ts
  | t :: ts =>
      match t.kind with
      | .identifier name => .ok (name, afterFirst t ts)
      | _ => .error (unexpected .identifier (t :: ts))
  | [] => .error .unexpectedEnd

/-- The place behind the bracket that closes a group in which `depth` more groups are open. Brackets
of all three pairs count alike. -/
def afterGroup? : Nat → List Token → Option Cursor
  | _, [] => none
  | depth, t :: ts =>
      match t.kind, depth with
      | .opening _, depth => afterGroup? (depth + 1) ts
      | .closing _, 0 => some ⟨t.line, ts⟩
      | .closing _, depth + 1 => afterGroup? depth ts
      | _, depth => afterGroup? depth ts

theorem length_of_afterGroup? {depth : Nat} {ts : List Token} {c : Cursor}
    (h : afterGroup? depth ts = some c) : c.rest.length < ts.length := by
  fun_induction afterGroup? depth ts with
  | case1 => simp at h
  | case3 => simp [← Option.some.inj h]
  | case2 _ _ _ _ _ ih => exact Nat.lt_succ_of_lt (ih h)
  | case4 _ _ _ _ _ ih => exact Nat.lt_succ_of_lt (ih h)
  | case5 _ _ _ _ _ _ ih => exact Nat.lt_succ_of_lt (ih h)

/-- Takes an opening bracket and all that follows to its end. -/
def group : (ts : List Token) → Except Error (After ts)
  | t :: ts =>
      match t.kind with
      | .opening _ =>
          match h : afterGroup? 0 ts with
          | some c => .ok (.cons t ⟨c, length_of_afterGroup? h⟩)
          | none => .error .unexpectedEnd
      | _ => .error (unexpected .opening (t :: ts))
  | [] => .error .unexpectedEnd

/-- The place behind a declaration in which `depth` groups are open: behind the semicolon that ends
it, or before the bracket that closes the group around it. The tokens follow one on line `line`. -/
def afterDeclaration (line : Nat) : Nat → List Token → Cursor
  | _, [] => ⟨line, []⟩
  | depth, t :: ts =>
      match t.kind, depth with
      | .semicolon, 0 => ⟨t.line, ts⟩
      | .opening _, depth => afterDeclaration t.line (depth + 1) ts
      | .closing _, 0 => ⟨line, t :: ts⟩
      | .closing _, depth + 1 => afterDeclaration t.line depth ts
      | _, depth => afterDeclaration t.line depth ts

theorem length_afterDeclaration (line depth : Nat) (ts : List Token) :
    (afterDeclaration line depth ts).rest.length ≤ ts.length := by
  fun_induction afterDeclaration line depth ts <;> simp_all <;> omega

/-- Skips the rest of a declaration behind a token. -/
def After.skipDeclaration {ts : List Token} (c : After ts) : After ts :=
  ⟨afterDeclaration c.1.line 0 c.1.rest,
    Nat.lt_of_le_of_lt (length_afterDeclaration ..) c.2⟩

end Cursor

end DeclBridge
