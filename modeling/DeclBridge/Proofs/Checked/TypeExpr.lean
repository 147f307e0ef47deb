import DeclBridge.Proofs.Checked.Cursor

/-!
The reader of type expressions with an index. It reads the same types as the reader that takes the
tokens one after the other, and takes the same tokens for them.
-/

namespace DeclBridge.Checked.Parser

open Cursor (After afterFirst nextIs expect identifier)
open Exec (Agrees)
open TypeExpr (countedLength computedLength beginsResult readMember readLengthEnd readLength)

section Steps

variable (tokens : List Token)

def parseMember (name : String) (i : Nat) : Exec Error (TypeExpr × Nat) := do
  if ← check tokens .dot i then
    let (_, i) ← advance tokens i
    let (selector, i) ← expectIdentifier tokens i
    return (.qualified name selector, i)
  else return (.named name, i)

/-- The place of the square bracket that closes a length in which `depth` brackets are open. -/
def skipLength (tokens : Parser) (depth i : Nat) : Exec Error Nat := do
  let t ← peek tokens i
  match t.kind with
  | .opening _ =>
      let (_, i) ← advance tokens i
      tokens |>.skipLength (depth + 1) i
  | .closing bracket =>
      if bracket = .square ∧ depth = 0 then return i
      else
        let (_, i) ← advance tokens i
        tokens |>.skipLength (depth - 1) i
  | .eof => throw .unexpectedEnd
  | _ =>
      let (_, i) ← advance tokens i
      tokens |>.skipLength depth i
partial_fixpoint

def parseLengthEnd (length : TypeExpr) (i : Nat) : Exec Error (TypeExpr × Nat) := do
  if ← check tokens (.closing .square) i then
    let (_, i) ← consume tokens (.closing .square) i
    return (length, i)
  else
    let i ← skipLength tokens 0 i
    let (_, i) ← consume tokens (.closing .square) i
    return (computedLength, i)

def parseLength (i : Nat) : Exec Error (TypeExpr × Nat) := do
  match (← peek tokens i).kind with
  | .int text =>
      let (_, i) ← advance tokens i
      parseLengthEnd tokens (.named text) i
  | .identifier name =>
      let (_, i) ← advance tokens i
      let (length, i) ← parseMember tokens name i
      parseLengthEnd tokens length i
  | .ellipsis =>
      let (_, i) ← advance tokens i
      parseLengthEnd tokens countedLength i
  | _ => parseLengthEnd tokens computedLength i

/-- Whether the braces of an interface stand at an index with nothing between them. -/
def isEmptyInterface (i : Nat) : Exec Error Bool := do
  if ← check tokens (.opening .curly) i then
    return tokens[i + 1]?.map Token.kind == some (.closing .curly)
  else return false

mutual

def parseType (tokens : Parser) (i : Nat) : Exec Error (TypeExpr × Nat) := do
  match (← peek tokens i).kind with
  | .identifier name =>
      let (_, i) ← advance tokens i
      parseMember tokens name i
  | .star =>
      let (_, i) ← advance tokens i
      let (target, i) ← tokens |>.parseType i
      return (.pointer target, i)
  | .opening .square =>
      let (_, i) ← advance tokens i
      if ← check tokens (.closing .square) i then
        let (_, i) ← advance tokens i
        let (elem, i) ← tokens |>.parseType i
        return (.slice elem, i)
      else
        let (length, i) ← parseLength tokens i
        let (elem, i) ← tokens |>.parseType i
        return (.array elem length, i)
  | .opening .round =>
      let (_, i) ← advance tokens i
      let (inner, i) ← tokens |>.parseType i
      let (_, i) ← consume tokens (.closing .round) i
      return (inner, i)
  | .arrow =>
      let (_, i) ← advance tokens i
      let (_, i) ← consume tokens (.keyword .chan) i
      let (_, i) ← tokens |>.parseType i
      return (.unsupported "chan", i)
  | .keyword .chan =>
      let (_, i) ← advance tokens i
      if ← check tokens .arrow i then
        let (_, i) ← advance tokens i
        let (_, i) ← tokens |>.parseType i
        return (.unsupported "chan", i)
      else
        let (_, i) ← tokens |>.parseType i
        return (.unsupported "chan", i)
  | .keyword .map =>
      let (_, i) ← advance tokens i
      let (_, i) ← consume tokens (.opening .square) i
      let (key, i) ← tokens |>.parseType i
      let (_, i) ← consume tokens (.closing .square) i
      let (value, i) ← tokens |>.parseType i
      return (.map key value, i)
  | .keyword .interface =>
      let (_, i) ← advance tokens i
      if ← isEmptyInterface tokens i then
        let (_, i) ← advance tokens i
        let (_, i) ← advance tokens i
        return (.dynamic, i)
      else
        let i ← skipBalanced tokens i
        return (.unsupported "interface", i)
  | .keyword .struct =>
      let (_, i) ← advance tokens i
      let i ← skipBalanced tokens i
      return (.unsupported "struct", i)
  | .keyword .func =>
      let (_, i) ← advance tokens i
      let i ← tokens |>.skipSignature i
      return (.unsupported "func", i)
  | _ => unexpected tokens .type i
partial_fixpoint

def skipSignature (tokens : Parser) (i : Nat) : Exec Error Nat := do
  if ← check tokens (.opening .round) i then
    let i ← skipBalanced tokens i
    if ← check tokens (.opening .round) i then skipBalanced tokens i
    else if beginsResult (← peek tokens i).kind then
      let (_, i) ← tokens |>.parseType i
      return i
    else return i
  else unexpected tokens (.token (.opening .round)) i
partial_fixpoint

end

end Steps

variable {tokens ts : List Token} {i : Nat}

theorem advance_agrees {kind : Token.Kind} (h : Rest tokens i ts) (hnext : nextIs kind ts = true) :
    Agrees (fun a c => Behind tokens a.2 c.1) (advance tokens i) (expect kind ts) := by
  cases ts with
  | nil => cases hnext
  | cons t ts =>
      have ht : t.kind = kind := by simpa [nextIs] using hnext
      rw [h.advance, expect, if_pos ht]
      exact .pure h.behind

theorem parseMember_reads {c : After ts} (h : Behind tokens i c.1) (name : String) :
    Reads tokens (parseMember tokens name i) (readMember name c) := by
  rw [parseMember, readMember, h.rest.check, pure_bind]
  split
  · rename_i hdot
    refine (advance_agrees h.rest hdot).bind ?_
    intro a d hd
    refine (expectIdentifier_reads hd.rest).bind ?_
    rintro ⟨selector, j⟩ ⟨_, e⟩ ⟨rfl, he⟩
    exact .pure ⟨rfl, he⟩
  · exact .pure ⟨rfl, h⟩

theorem skipLength_agrees (depth : Nat) (h : Rest tokens i ts) :
    Agrees (fun a c => Behind tokens a.2 c)
      (skipLength tokens depth i >>= consume tokens (.closing .square))
      (match TypeExpr.afterLength? depth ts with
        | some c => .ok c
        | none => .error .unexpectedEnd) := by
  induction ts generalizing i depth with
  | nil =>
      obtain ⟨last, hpeek, hlast⟩ := h.peek_end
      rw [skipLength, hpeek]
      simp only [pure_bind, hlast]
      exact .throw _
  | cons t ts ih =>
      rw [skipLength, h.peek, pure_bind]
      simp only [h.advance, pure_bind]
      rcases t.kind.bracket_cases with ⟨bracket, ht⟩ | ⟨bracket, ht⟩ | ht
      · rw [TypeExpr.afterLength?_opening ht]
        simp only [ht]
        exact ih _ h.next
      · simp only [ht]
        by_cases hclose : bracket = .square ∧ depth = 0
        · obtain ⟨rfl, rfl⟩ := hclose
          rw [TypeExpr.afterLength?_close ht, if_pos ⟨rfl, rfl⟩, pure_bind, consume, h.check]
          simp only [pure_bind, nextIs, List.head?_cons, Option.any_some, ht, decide_true, if_true,
            h.advance]
          exact .pure h.behind
        · rw [TypeExpr.afterLength?_closing ht (by tauto), if_neg hclose]
          exact ih _ h.next
      · rw [TypeExpr.afterLength?_other ht]
        have hend := h.kind_ne
        split
        · simp_all [Token.Kind.isBracket]
        · simp_all [Token.Kind.isBracket]
        · contradiction
        · exact ih _ h.next

theorem parseLengthEnd_reads (h : Rest tokens i ts) (length : TypeExpr) :
    Reads tokens (parseLengthEnd tokens length i) (readLengthEnd length ts) := by
  have hlength := skipLength_agrees 0 h
  rw [parseLengthEnd, h.check, pure_bind, readLengthEnd]
  cases hclose : nextIs (.closing .square) ts with
  | true =>
      obtain ⟨t, us, rfl⟩ : ∃ t us, ts = t :: us := by
        cases ts with
        | nil => cases hclose
        | cons t us => exact ⟨t, us, rfl⟩
      have ht : t.kind = .closing .square := by simpa [nextIs] using hclose
      have hconsume : consume tokens (.closing .square) i = pure (t, i + 1) := by
        rw [consume, h.check, hclose]
        exact h.advance
      have hafter : TypeExpr.afterLength? 0 (t :: us) = some ⟨t.line, us⟩ :=
        TypeExpr.afterLength?_close ht
      simp only [if_true, hconsume, pure_bind]
      split
      · rename_i hsome
        cases hafter.symm.trans hsome
        exact .pure ⟨rfl, h.behind⟩
      · rename_i hnone
        cases hafter.symm.trans hnone
  | false =>
      simp only [Bool.false_eq_true, if_false]
      rw [← bind_assoc]
      split
      · rename_i hsome
        rw [hsome] at hlength
        obtain ⟨⟨t, j⟩, hskip, hj⟩ := hlength
        rw [hskip]
        exact .pure ⟨rfl, hj⟩
      · rename_i hnone
        rw [hnone] at hlength
        rw [hlength]
        exact .throw _

theorem parseLength_reads (h : Rest tokens i ts) :
    Reads tokens (parseLength tokens i) (readLength ts) := by
  cases ts with
  | nil =>
      obtain ⟨last, hpeek, hlast⟩ := h.peek_end
      rw [parseLength, hpeek]
      simp only [pure_bind, hlast]
      exact parseLengthEnd_reads h _
  | cons t ts =>
      rw [parseLength, h.peek, readLength]
      simp only [pure_bind, h.advance]
      cases t.kind with
      | int text => exact (parseLengthEnd_reads h.next _).map_right fun _ _ hab => hab
      | ellipsis => exact (parseLengthEnd_reads h.next _).map_right fun _ _ hab => hab
      | identifier name =>
          refine (parseMember_reads h.behind name).bind ?_
          rintro ⟨length, j⟩ ⟨_, c⟩ ⟨rfl, hc⟩
          exact (parseLengthEnd_reads hc.rest _).map_right fun _ _ hab => hab
      | _ => exact parseLengthEnd_reads h _

theorem isEmptyInterface_eq (h : Rest tokens i ts) :
    isEmptyInterface tokens i =
      pure (nextIs (.opening .curly) ts && nextIs (.closing .curly) ts.tail) := by
  rw [isEmptyInterface, h.check, pure_bind, h.kind_getElem? 1]
  match ts with
  | [] => rfl
  | [t] =>
      cases nextIs (.opening .curly) [t] <;> rfl
  | t :: u :: us =>
      cases nextIs (.opening .curly) (t :: u :: us) with
      | false => rfl
      | true => simp [nextIs, Bool.beq_eq_decide_eq]

theorem skipBalanced_empty (h : Rest tokens i ts)
    (hempty : nextIs (.opening .curly) ts && nextIs (.closing .curly) ts.tail) :
    skipBalanced tokens i = (do
      let (_, i) ← advance tokens i
      let (_, i) ← advance tokens i
      return i) := by
  match ts with
  | [] => cases hempty
  | [t] => simp [nextIs] at hempty
  | t :: u :: us =>
      obtain ⟨ht, hu⟩ : t.kind = .opening .curly ∧ u.kind = .closing .curly := by
        simpa [nextIs] using hempty
      rw [skipBalanced, h.peek]
      simp only [pure_bind, ht]
      rw [skipOpen, h.peek]
      simp only [pure_bind, ht, h.advance]
      rw [skipOpen, h.next.peek]
      simp only [pure_bind, hu, h.next.advance, Exec.sub_of_le (Nat.le_refl 1)]
      rfl

/-- The reader with an index reads the types that the tokens spell. -/
theorem parseType_reads (h : Rest tokens i ts) :
    Reads tokens (parseType tokens i) (TypeExpr.read ts) := by
  induction hlength : ts.length using Nat.strongRecOn generalizing i ts with
  | _ n ih =>
      subst hlength
      cases ts with
      | nil =>
          obtain ⟨last, hpeek, hlast⟩ := h.peek_end
          rw [parseType, hpeek, TypeExpr.read]
          simp only [pure_bind, hlast, h.unexpected]
          exact .throw _
      | cons t ts =>
          have hnext := h.next
          have ih {j : Nat} {us : List Token} (hus : us.length ≤ ts.length)
              (hj : Rest tokens j us) : Reads tokens (parseType tokens j) (TypeExpr.read us) :=
            ih us.length (Nat.lt_succ_of_le hus) hj rfl
          rw [parseType, h.peek, TypeExpr.read]
          simp only [pure_bind, h.advance]
          cases t.kind with
          | identifier name => exact parseMember_reads h.behind name
          | star =>
              refine (ih (Nat.le_refl _) hnext).bind ?_
              rintro ⟨target, j⟩ ⟨_, c⟩ ⟨rfl, hc⟩
              exact .pure ⟨rfl, hc⟩
          | opening bracket =>
              cases bracket with
              | curly => simp only [h.unexpected]; exact .throw _
              | square =>
                  simp only [hnext.check, pure_bind]
                  split
                  · rename_i hclose
                    refine (advance_agrees hnext hclose).bind ?_
                    rintro ⟨_, j⟩ c hc
                    refine (ih (Nat.le_of_lt c.2) hc.rest).bind ?_
                    rintro ⟨elem, k⟩ ⟨_, d⟩ ⟨rfl, hd⟩
                    exact .pure ⟨rfl, hd⟩
                  · refine (parseLength_reads hnext).bind ?_
                    rintro ⟨length, j⟩ ⟨_, c⟩ ⟨rfl, hc⟩
                    refine (ih (Nat.le_of_lt c.2) hc.rest).bind ?_
                    rintro ⟨elem, k⟩ ⟨_, d⟩ ⟨rfl, hd⟩
                    exact .pure ⟨rfl, hd⟩
              | round =>
                  refine (ih (Nat.le_refl _) hnext).bind ?_
                  rintro ⟨inner, j⟩ ⟨_, c⟩ ⟨rfl, hc⟩
                  refine (consume_agrees hc.rest _).bind ?_
                  rintro ⟨_, k⟩ d hd
                  exact .pure ⟨rfl, hd⟩
          | arrow =>
              refine (consume_agrees hnext _).bind ?_
              rintro ⟨_, j⟩ c hc
              refine (ih (Nat.le_of_lt c.2) hc.rest).bind ?_
              rintro ⟨elem, k⟩ ⟨_, d⟩ ⟨rfl, hd⟩
              exact .pure ⟨rfl, hd⟩
          | keyword word =>
              cases word with
              | chan =>
                  simp only [hnext.check, pure_bind]
                  split
                  · rename_i harrow
                    refine (advance_agrees hnext harrow).bind ?_
                    rintro ⟨_, j⟩ c hc
                    refine (ih (Nat.le_of_lt c.2) hc.rest).bind ?_
                    rintro ⟨elem, k⟩ ⟨_, d⟩ ⟨rfl, hd⟩
                    exact .pure ⟨rfl, hd⟩
                  · refine (ih (Nat.le_refl _) hnext).bind ?_
                    rintro ⟨elem, j⟩ ⟨_, c⟩ ⟨rfl, hc⟩
                    exact .pure ⟨rfl, hc⟩
              | map =>
                  refine (consume_agrees hnext _).bind ?_
                  rintro ⟨_, j⟩ c hc
                  refine (ih (Nat.le_of_lt c.2) hc.rest).bind ?_
                  rintro ⟨key, k⟩ ⟨_, d⟩ ⟨rfl, hd⟩
                  refine (consume_agrees hd.rest _).bind ?_
                  rintro ⟨_, l⟩ e he
                  refine (ih (Nat.le_of_lt (c.trans (d.trans e)).2) he.rest).bind ?_
                  rintro ⟨value, m⟩ ⟨_, f⟩ ⟨rfl, hf⟩
                  exact .pure ⟨rfl, hf⟩
              | interface =>
                  have hgroup := skipBalanced_reaches hnext
                  simp only [isEmptyInterface_eq hnext, pure_bind]
                  cases hempty :
                      nextIs (.opening .curly) ts && nextIs (.closing .curly) ts.tail with
                  | false => exact hgroup.bind fun j c hc => .pure ⟨rfl, hc⟩
                  | true =>
                      have hdynamic : Reads tokens
                          (do return (TypeExpr.dynamic, ← skipBalanced tokens (i + 1)))
                          (do return (TypeExpr.dynamic, (← Cursor.group ts).cons t)) :=
                        hgroup.bind fun j c hc => .pure ⟨rfl, hc⟩
                      rw [skipBalanced_empty hnext hempty] at hdynamic
                      simpa only [if_true, bind_assoc, pure_bind] using hdynamic
              | struct =>
                  refine (skipBalanced_reaches hnext).bind ?_
                  intro j c hc
                  exact .pure ⟨rfl, hc⟩
              | func =>
                  rw [skipSignature]
                  simp only [hnext.check, pure_bind]
                  cases nextIs (.opening .round) ts with
                  | false =>
                      simp only [Bool.false_eq_true, if_false, hnext.unexpected]
                      exact .throw _
                  | true =>
                      simp only [if_true, bind_assoc]
                      refine (skipBalanced_reaches hnext).bind ?_
                      intro j c hc
                      obtain ⟨u, hu, hbegins⟩ := hc.rest.peek_any (p := beginsResult) rfl
                      simp only [hc.rest.check, pure_bind, hu, hbegins]
                      split
                      · refine (skipBalanced_reaches hc.rest).bind ?_
                        intro k d hd
                        exact .pure ⟨rfl, hd⟩
                      · split
                        · rw [bind_assoc]
                          refine (ih (Nat.le_of_lt c.2) hc.rest).bind ?_
                          rintro ⟨_, k⟩ ⟨_, d⟩ ⟨rfl, hd⟩
                          exact .pure ⟨rfl, hd⟩
                        · exact .pure ⟨rfl, hc⟩
              | _ => simp only [h.unexpected]; exact .throw _
          | _ => simp only [h.unexpected]; exact .throw _

end DeclBridge.Checked.Parser
