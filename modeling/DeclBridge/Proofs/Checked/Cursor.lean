import DeclBridge.Proofs.Checked.Outcome
import DeclBridge.Proofs.Grammar.Nesting

/-!
The steps of a reader that goes through tokens with an index, the mark of the end among them. Every
token is looked up under a check, and no step goes behind the mark of the end.
-/

namespace DeclBridge

/-- The tokens that a reader goes through with an index, the mark of the end behind them. -/
abbrev Checked.Parser := List Token

namespace Checked.Parser

open Cursor (After afterFirst nextIs expect identifier)
open Exec (get sub Agrees get_of_getElem?)

section Steps

variable (tokens : List Token)

def peek (i : Nat) : Exec Error Token := get tokens i

/-- The token before an index, or the first one. -/
def previous (i : Nat) : Exec Error Token := get tokens (i - 1)

/-- Whether the mark of the end stands at an index. -/
def isAtEnd (i : Nat) : Exec Error Bool := do
  return (← peek tokens i).kind == .eof

/-- Takes a token. The mark of the end is not taken. -/
def advance (i : Nat) : Exec Error (Token × Nat) := do
  let i := if ← isAtEnd tokens i then i else i + 1
  return (← previous tokens i, i)

/-- Whether a token of the given kind stands at an index. -/
def check (kind : Token.Kind) (i : Nat) : Exec Error Bool := do
  if ← isAtEnd tokens i then return false
  else return (← peek tokens i).kind == kind

def unexpected {α : Type} (expected : Expectation) (i : Nat) : Exec Error α := do
  let t ← peek tokens i
  if t.kind = .eof then throw .unexpectedEnd
  else throw (.unexpectedToken expected t.kind t.line)

def consume (kind : Token.Kind) (i : Nat) : Exec Error (Token × Nat) := do
  if ← check tokens kind i then advance tokens i
  else unexpected tokens (.token kind) i

def expectIdentifier (i : Nat) : Exec Error (String × Nat) := do
  match (← peek tokens i).kind with
  | .identifier name =>
      let (_, i) ← advance tokens i
      return (name, i)
  | _ => unexpected tokens .identifier i

/-- The place behind a group, in which `depth` brackets are open. -/
def skipOpen (tokens : Parser) (depth i : Nat) : Exec Error Nat := do
  let t ← peek tokens i
  match t.kind with
  | .opening _ =>
      let (_, i) ← advance tokens i
      tokens |>.skipOpen (depth + 1) i
  | .closing _ =>
      let depth ← sub depth 1
      let (_, i) ← advance tokens i
      if depth = 0 then return i
      else tokens |>.skipOpen depth i
  | .eof => throw .unexpectedEnd
  | _ =>
      let (_, i) ← advance tokens i
      tokens |>.skipOpen depth i
partial_fixpoint

/-- Takes an opening bracket and all that follows to its end. -/
def skipBalanced (i : Nat) : Exec Error Nat := do
  match (← peek tokens i).kind with
  | .opening _ => skipOpen tokens 0 i
  | _ => unexpected tokens .opening i

/-- The place behind a declaration in which `depth` brackets are open. -/
def skipDeclaration (tokens : Parser) (depth i : Nat) : Exec Error Nat := do
  let t ← peek tokens i
  match t.kind with
  | .eof => return i
  | .semicolon =>
      let (_, i) ← advance tokens i
      if depth = 0 then return i
      else tokens |>.skipDeclaration depth i
  | .opening _ =>
      let (_, i) ← advance tokens i
      tokens |>.skipDeclaration (depth + 1) i
  | .closing _ =>
      if depth = 0 then return i
      else
        let depth ← sub depth 1
        let (_, i) ← advance tokens i
        tokens |>.skipDeclaration depth i
  | _ =>
      let (_, i) ← advance tokens i
      tokens |>.skipDeclaration depth i
partial_fixpoint

end Steps

/-- Tokens stand at an index, and behind them the mark of the end. -/
def Rest (tokens : List Token) (i : Nat) (ts : List Token) : Prop :=
  ∃ before last, tokens = before ++ ts ++ [last] ∧ before.length = i ∧ last.kind = .eof ∧
    ∀ t ∈ ts, t.kind ≠ .eof

/-- An index at the place of a cursor. -/
structure Behind (tokens : List Token) (i : Nat) (c : Cursor) : Prop where
  rest : Rest tokens i c.rest
  previous : ∃ t, previous tokens i = pure t ∧ t.line = c.line

namespace Rest

variable {tokens ts : List Token} {t : Token} {i : Nat}

theorem next (h : Rest tokens i (t :: ts)) : Rest tokens (i + 1) ts := by
  obtain ⟨before, last, rfl, rfl, hlast, hts⟩ := h
  exact ⟨before ++ [t], last, by simp, by simp, hlast,
    fun u hu => hts u (List.mem_cons_of_mem _ hu)⟩

theorem kind_getElem? (h : Rest tokens i ts) (n : Nat) :
    tokens[i + n]?.map Token.kind = (ts.map Token.kind ++ [.eof])[n]? := by
  obtain ⟨before, last, rfl, rfl, hlast, -⟩ := h
  rw [List.append_assoc, List.getElem?_append_right (Nat.le_add_right _ _), Nat.add_sub_cancel_left,
    ← List.getElem?_map, List.map_append, List.map_singleton, hlast]

theorem getElem? (h : Rest tokens i (t :: ts)) : tokens[i]? = some t := by
  obtain ⟨before, last, rfl, rfl, -, -⟩ := h
  simp

theorem getElem?_end (h : Rest tokens i []) : ∃ last, tokens[i]? = some last ∧
    last.kind = .eof := by
  obtain ⟨before, last, rfl, rfl, hlast, -⟩ := h
  exact ⟨last, by simp, hlast⟩

theorem peek (h : Rest tokens i (t :: ts)) : peek tokens i = pure t :=
  get_of_getElem? h.getElem?

theorem peek_end (h : Rest tokens i []) : ∃ last, Parser.peek tokens i = pure last ∧
    last.kind = .eof := by
  obtain ⟨last, hlast, heof⟩ := h.getElem?_end
  exact ⟨last, get_of_getElem? hlast, heof⟩

/-- What holds of the next token does not hold of the mark of the end. -/
theorem peek_any (h : Rest tokens i ts) {p : Token.Kind → Bool} (hp : p .eof = false) :
    ∃ t, Parser.peek tokens i = pure t ∧ p t.kind = ts.head?.any (p ·.kind) := by
  cases ts with
  | nil =>
      obtain ⟨last, hpeek, hlast⟩ := h.peek_end
      exact ⟨last, hpeek, by rw [hlast, hp]; rfl⟩
  | cons t ts => exact ⟨t, h.peek, rfl⟩

theorem kind_ne (h : Rest tokens i (t :: ts)) : t.kind ≠ .eof := by
  obtain ⟨_, _, -, -, -, hts⟩ := h
  exact hts t List.mem_cons_self

theorem isAtEnd (h : Rest tokens i ts) : isAtEnd tokens i = pure ts.isEmpty := by
  cases ts with
  | nil =>
      obtain ⟨last, hpeek, hlast⟩ := h.peek_end
      simp [Parser.isAtEnd, hpeek, hlast]
  | cons t ts => simp [Parser.isAtEnd, h.peek, beq_false_of_ne h.kind_ne]

theorem behind (h : Rest tokens i (t :: ts)) : Behind tokens (i + 1) (afterFirst t ts).1 :=
  ⟨h.next, t, h.peek, rfl⟩

theorem advance (h : Rest tokens i (t :: ts)) : advance tokens i = pure (t, i + 1) := by
  have hprevious : previous tokens (i + 1) = pure t := h.peek
  simp [Parser.advance, h.isAtEnd, hprevious]

theorem check (h : Rest tokens i ts) (kind : Token.Kind) :
    check tokens kind i = pure (nextIs kind ts) := by
  cases ts with
  | nil => simp [Parser.check, h.isAtEnd, nextIs]
  | cons t ts => simp [Parser.check, h.isAtEnd, h.peek, nextIs, Bool.beq_eq_decide_eq]

theorem unexpected {α : Type} (h : Rest tokens i ts) (expected : Expectation) :
    unexpected tokens expected i = (throw (Cursor.unexpected expected ts) : Exec Error α) := by
  cases ts with
  | nil =>
      obtain ⟨last, hpeek, hlast⟩ := h.peek_end
      simp [Parser.unexpected, hpeek, hlast, Cursor.unexpected]
  | cons t ts => simp [Parser.unexpected, h.peek, h.kind_ne, Cursor.unexpected]

end Rest

/-- A place is reached that the cursor of another reader reaches. -/
def Reaches (tokens : List Token) (x : Exec Error Nat) {ts : List Token}
    (y : Except Error (After ts)) : Prop :=
  Agrees (fun i c => Behind tokens i c.1) x y

/-- The same is read as by another reader, and the same place is reached. -/
def Reads {α : Type} (tokens : List Token) (x : Exec Error (α × Nat)) {ts : List Token}
    (y : Cursor.Reading α ts) : Prop :=
  Agrees (fun a b => a.1 = b.1 ∧ Behind tokens a.2 b.2.1) x y

variable {tokens ts : List Token} {i : Nat}

theorem consume_agrees (h : Rest tokens i ts) (kind : Token.Kind) :
    Agrees (fun a c => Behind tokens a.2 c.1) (consume tokens kind i) (expect kind ts) := by
  rw [consume, h.check, pure_bind]
  cases ts with
  | nil =>
      simp only [nextIs, List.head?_nil, Option.any_none, Bool.false_eq_true, if_false]
      rw [h.unexpected]
      exact .throw _
  | cons t ts =>
      by_cases ht : t.kind = kind
      · simp only [nextIs, List.head?_cons, Option.any_some, ht, decide_true, if_true, expect,
          h.advance]
        exact .pure h.behind
      · simp only [nextIs, List.head?_cons, Option.any_some, ht, decide_false, Bool.false_eq_true,
          if_false, expect, h.unexpected]
        exact .throw _

theorem expectIdentifier_reads (h : Rest tokens i ts) :
    Reads tokens (expectIdentifier tokens i) (identifier ts) := by
  cases ts with
  | nil =>
      obtain ⟨last, hpeek, hlast⟩ := h.peek_end
      rw [expectIdentifier, hpeek]
      simp only [pure_bind, hlast, h.unexpected]
      exact .throw _
  | cons t ts =>
      rw [expectIdentifier, h.peek, identifier]
      simp only [pure_bind, h.unexpected, h.advance]
      cases t.kind with
      | identifier name => exact .pure ⟨rfl, h.behind⟩
      | _ => exact .throw _

theorem skipOpen_agrees (depth : Nat) (h : Rest tokens i ts) :
    Agrees (fun i c => Behind tokens i c) (skipOpen tokens (depth + 1) i)
      (match Cursor.afterGroup? depth ts with
        | some c => .ok c
        | none => .error .unexpectedEnd) := by
  induction ts generalizing i depth with
  | nil =>
      obtain ⟨last, hpeek, hlast⟩ := h.peek_end
      rw [skipOpen, hpeek]
      simp only [pure_bind, hlast]
      exact .throw _
  | cons t ts ih =>
      rw [skipOpen, h.peek, pure_bind]
      simp only [h.advance, pure_bind]
      rcases t.kind.bracket_cases with ⟨bracket, ht⟩ | ⟨bracket, ht⟩ | ht
      · rw [Cursor.afterGroup?_opening ht]
        simp only [ht]
        exact ih _ h.next
      · simp only [ht, Exec.sub_of_le (Nat.le_add_left 1 depth), pure_bind, Nat.add_sub_cancel]
        cases depth with
        | zero =>
            rw [Cursor.afterGroup?_close ht]
            exact .pure h.behind
        | succ depth =>
            rw [Cursor.afterGroup?_closing ht]
            exact ih _ h.next
      · rw [Cursor.afterGroup?_other ht]
        have hend := h.kind_ne
        split
        · simp_all [Token.Kind.isBracket]
        · simp_all [Token.Kind.isBracket]
        · contradiction
        · exact ih _ h.next

theorem skipBalanced_reaches (h : Rest tokens i ts) :
    Reaches tokens (skipBalanced tokens i) (Cursor.group ts) := by
  cases ts with
  | nil =>
      obtain ⟨last, hpeek, hlast⟩ := h.peek_end
      rw [skipBalanced, hpeek]
      simp only [pure_bind, hlast, h.unexpected]
      exact .throw _
  | cons t ts =>
      rw [skipBalanced, h.peek, pure_bind, Cursor.group]
      cases ht : t.kind with
      | opening bracket =>
          have hopen := skipOpen_agrees 0 h.next
          rw [skipOpen, h.peek]
          simp only [pure_bind, ht, h.advance]
          split
          · rename_i hgroup
            rw [hgroup] at hopen
            exact hopen
          · rename_i hgroup
            rw [hgroup] at hopen
            exact hopen
      | _ =>
          simp only [h.unexpected]
          exact .throw _

theorem skipDeclaration_eq {line : Nat} (depth : Nat) (h : Behind tokens i ⟨line, ts⟩) :
    ∃ j, skipDeclaration tokens depth i = pure j ∧
      Behind tokens j (Cursor.afterDeclaration line depth ts) := by
  induction ts generalizing i line depth with
  | nil =>
      obtain ⟨last, hpeek, hlast⟩ := h.rest.peek_end
      refine ⟨i, ?_, h⟩
      rw [skipDeclaration, hpeek]
      simp only [pure_bind, hlast]
  | cons t ts ih =>
      have hadvance := h.rest.advance
      have hnext := h.rest.behind
      rw [skipDeclaration, h.rest.peek, pure_bind]
      simp only [hadvance, pure_bind]
      rcases t.kind.bracket_cases with ⟨bracket, ht⟩ | ⟨bracket, ht⟩ | ht
      · rw [Cursor.afterDeclaration_opening ht]
        simp only [ht]
        exact ih _ hnext
      · simp only [ht]
        cases depth with
        | zero =>
            rw [Cursor.afterDeclaration_close ht]
            exact ⟨i, rfl, h⟩
        | succ depth =>
            rw [Cursor.afterDeclaration_closing ht, if_neg (Nat.succ_ne_zero depth),
              Exec.sub_of_le (Nat.le_add_left 1 depth)]
            exact ih _ hnext
      · by_cases hsemicolon : t.kind = .semicolon ∧ depth = 0
        · obtain ⟨ht, rfl⟩ := hsemicolon
          simp only [ht, if_true, Cursor.afterDeclaration]
          exact ⟨i + 1, rfl, hnext⟩
        · rw [Cursor.afterDeclaration_other ht (by tauto)]
          have hend := h.rest.kind_ne
          split
          · contradiction
          · rw [if_neg (by tauto)]
            exact ih _ hnext
          · simp_all [Token.Kind.isBracket]
          · simp_all [Token.Kind.isBracket]
          · exact ih _ hnext

end Checked.Parser

end DeclBridge
