import DeclBridge.Cursor
import DeclBridge.TypeExpr.Basic

/-!
Reading of type expressions. A type ends where no token can extend it, so the reader needs no mark
behind it.
-/

namespace DeclBridge.TypeExpr

open Cursor

/-- The length of an array whose elements are counted by the compiler. -/
def countedLength : TypeExpr := .unsupported "[...] array"

/-- The length of an array that is given by a constant expression of several tokens. -/
def computedLength : TypeExpr := .unsupported "array length expression"

/-- Takes the rest of a name that begins with `name`: a dot and a member, or nothing. -/
def readMember (name : String) {ts : List Token} (c : After ts) : Reading TypeExpr ts := do
  if nextIs .dot c.1.rest then
    let d ← expect .dot c.1.rest
    let (member, e) ← identifier d.1.rest
    return (.qualified name member, c.trans (d.trans e))
  else return (.named name, c)

/-- The place behind the square bracket that closes a length in which `depth` groups are open. A
round or curly bracket that closes nothing is part of the length. -/
def afterLength? : Nat → List Token → Option Cursor
  | _, [] => none
  | depth, t :: ts =>
      match t.kind, depth with
      | .closing .square, 0 => some ⟨t.line, ts⟩
      | .opening _, depth => afterLength? (depth + 1) ts
      | .closing _, depth => afterLength? (depth - 1) ts
      | _, depth => afterLength? depth ts

theorem length_of_afterLength? {depth : Nat} {ts : List Token} {c : Cursor}
    (h : afterLength? depth ts = some c) : c.rest.length < ts.length := by
  fun_induction afterLength? depth ts with
  | case1 => simp at h
  | case2 => simp [← Option.some.inj h]
  | case3 _ _ _ _ _ ih => exact Nat.lt_succ_of_lt (ih h)
  | case4 _ _ _ _ _ _ ih => exact Nat.lt_succ_of_lt (ih h)
  | case5 _ _ _ _ _ _ ih => exact Nat.lt_succ_of_lt (ih h)

/-- Takes the rest of a length that begins with `length`, and the bracket that closes it. -/
def readLengthEnd (length : TypeExpr) (ts : List Token) : Reading TypeExpr ts :=
  match h : afterLength? 0 ts with
  | some c =>
      let length := if nextIs (.closing .square) ts then length else computedLength
      .ok (length, ⟨c, length_of_afterLength? h⟩)
  | none => .error .unexpectedEnd

/-- Takes the length of an array and the bracket that closes it. -/
def readLength : (ts : List Token) → Reading TypeExpr ts
  | [] => .error .unexpectedEnd
  | t :: ts =>
      match t.kind with
      | .int text => do
          let (length, c) ← readLengthEnd (.named text) ts
          return (length, c.cons t)
      | .ellipsis => do
          let (length, c) ← readLengthEnd countedLength ts
          return (length, c.cons t)
      | .identifier name => do
          let (name, c) ← readMember name (afterFirst t ts)
          let (length, d) ← readLengthEnd name c.1.rest
          return (length, c.trans d)
      | _ => readLengthEnd computedLength (t :: ts)

/-- Whether a token can begin the result of a function. -/
def beginsResult : Token.Kind → Bool
  | .identifier _ | .star | .opening .square | .opening .round | .arrow => true
  | .keyword word => [.map, .chan, .func, .interface, .struct].contains word
  | _ => false

def read : (ts : List Token) → Reading TypeExpr ts
  | [] => .error .unexpectedEnd
  | t :: ts =>
      match t.kind with
      | .identifier name => readMember name (afterFirst t ts)
      | .star => do
          let (target, c) ← read ts
          return (.pointer target, c.cons t)
      | .opening .square =>
          if nextIs (.closing .square) ts then do
            let c ← expect (.closing .square) ts
            let (elem, d) ← read c.1.rest
            return (.slice elem, (c.trans d).cons t)
          else do
            let (length, c) ← readLength ts
            let (elem, d) ← read c.1.rest
            return (.array elem length, (c.trans d).cons t)
      | .opening .round => do
          let (inner, c) ← read ts
          let d ← expect (.closing .round) c.1.rest
          return (inner, (c.trans d).cons t)
      | .arrow => do
          let c ← expect (.keyword .chan) ts
          let (_, d) ← read c.1.rest
          return (.unsupported "chan", (c.trans d).cons t)
      | .keyword .chan =>
          if nextIs .arrow ts then do
            let c ← expect .arrow ts
            let (_, d) ← read c.1.rest
            return (.unsupported "chan", (c.trans d).cons t)
          else do
            let (_, c) ← read ts
            return (.unsupported "chan", c.cons t)
      | .keyword .map => do
          let c ← expect (.opening .square) ts
          let (key, d) ← read c.1.rest
          let e ← expect (.closing .square) d.1.rest
          let (value, f) ← read e.1.rest
          return (.map key value, (c.trans (d.trans (e.trans f))).cons t)
      | .keyword .interface => do
          let c ← group ts
          if nextIs (.opening .curly) ts && nextIs (.closing .curly) ts.tail then
            return (.dynamic, c.cons t)
          else return (.unsupported "interface", c.cons t)
      | .keyword .struct => do
          let c ← group ts
          return (.unsupported "struct", c.cons t)
      | .keyword .func => do
          if !nextIs (.opening .round) ts then
            throw (unexpected (.token (.opening .round)) ts)
          let c ← group ts
          if nextIs (.opening .round) c.1.rest then
            let d ← group c.1.rest
            return (.unsupported "func", (c.trans d).cons t)
          else if c.1.rest.head?.any (beginsResult ·.kind) then
            let (_, d) ← read c.1.rest
            return (.unsupported "func", (c.trans d).cons t)
          else return (.unsupported "func", c.cons t)
      | _ => .error (unexpected .type (t :: ts))
termination_by ts => ts.length
decreasing_by
  all_goals grind

end DeclBridge.TypeExpr
