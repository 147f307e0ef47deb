import DeclBridge.Proofs.Grammar.Nesting

/-!
Declarations that are skipped. Whatever stands in their brackets, skipping ends behind the semicolon
that ends the declaration.
-/

namespace DeclBridge

namespace Token

/-- Every semicolon stands in a group that is open there, if the groups `brackets` are open before
the tokens. -/
def EnclosesSemicolons (brackets : List Bracket) (ts : List Token) : Prop :=
  ∀ i (h : i < ts.length), ts[i].kind = .semicolon → nest brackets (ts.take i) ≠ some []

instance (brackets : List Bracket) (ts : List Token) : Decidable (EnclosesSemicolons brackets ts) :=
  inferInstanceAs <| Decidable <| ∀ i (_ : i < ts.length), ts[i].kind = .semicolon →
    nest brackets (ts.take i) ≠ some []

variable {t : Token} {bracket : Bracket} {brackets : List Bracket} {ts : List Token}

namespace EnclosesSemicolons

theorem ne_nil (h : EnclosesSemicolons brackets (t :: ts)) (ht : t.kind = .semicolon) :
    brackets ≠ [] := by
  have hfirst := h 0 (Nat.zero_lt_succ _) ht
  simpa [nest] using hfirst

theorem tail {inner : List Bracket} (h : EnclosesSemicolons brackets (t :: ts))
    (hstep : ∀ us, nest brackets (t :: us) = nest inner us) : EnclosesSemicolons inner ts := by
  intro i hi hsemicolon
  have hnext := h (i + 1) (Nat.succ_lt_succ hi) hsemicolon
  rwa [List.take_succ_cons, hstep] at hnext

end EnclosesSemicolons

end Token

namespace Cursor

open Token (Nests nest_opening nest_close nest_other EnclosesSemicolons)

/-- Skipping a declaration counts the groups that are open, and no semicolon in them ends it. -/
theorem afterDeclaration_append {ts : List Token} {brackets result : List Bracket}
    (h : Nests result brackets ts) (hsemicolons : EnclosesSemicolons brackets ts) (line : Nat)
    (us : List Token) :
    ∃ line', afterDeclaration line brackets.length (ts ++ us) =
      afterDeclaration line' result.length us := by
  induction h generalizing line with
  | nil => exact ⟨line, rfl⟩
  | @opening t _ _ _ ht _ ih =>
      rw [List.cons_append, afterDeclaration_opening ht]
      exact ih (hsemicolons.tail fun _ => nest_opening ht) t.line
  | @closing t _ _ _ ht _ ih =>
      rw [List.cons_append, List.length_cons, afterDeclaration_closing ht]
      exact ih (hsemicolons.tail fun _ => nest_close ht) t.line
  | @other t brackets _ ht _ ih =>
      -- A semicolon stands in a group, so the declaration goes on behind it.
      have hdeep : t.kind ≠ .semicolon ∨ brackets.length ≠ 0 := by
        by_cases hsemicolon : t.kind = .semicolon
        · exact .inr (mt List.eq_nil_of_length_eq_zero (hsemicolons.ne_nil hsemicolon))
        · exact .inl hsemicolon
      rw [List.cons_append, afterDeclaration_other ht hdeep]
      exact ih (hsemicolons.tail fun _ => nest_other ht) t.line

end Cursor

namespace Node

open Cursor
open Token (Nested EnclosesSemicolons)

variable {t semicolon : Token} {body : List Token}

theorem readAll_of_beginsSkipped (ht : beginsSkipped t.kind = true) (ts : List Token) :
    readAll (t :: ts) =
      (readAll (afterDeclaration t.line 0 ts).rest).map (.other t.lexeme :: ·) := by
  have hread : readAll (t :: ts) = do
      return .other t.lexeme :: (← readAll (afterDeclaration t.line 0 ts).rest) := by
    rcases beginsSkipped_iff.mp ht with ht | ht | ht | ht
    all_goals
      simp only [readAll, ht]
      rfl
  rw [hread]
  cases readAll (afterDeclaration t.line 0 ts).rest <;> rfl

/-- A declaration that is skipped is one node, and what stands in it is none: reading goes on behind
its semicolon, with all that stands there or with the error that it has. -/
theorem readAll_skipped (ht : beginsSkipped t.kind = true) (hbody : Nested body)
    (hsemicolons : EnclosesSemicolons [] body) (hend : semicolon.kind = .semicolon)
    (rest : List Token) :
    readAll (t :: (body ++ semicolon :: rest)) =
      (readAll rest).map (.other t.lexeme :: ·) := by
  obtain ⟨line, happend⟩ := afterDeclaration_append hbody.nests hsemicolons t.line (semicolon :: rest)
  rw [List.length_nil, afterDeclaration_semicolon hend] at happend
  rw [readAll_of_beginsSkipped ht, happend]

theorem readAll_skipped_localType :
    readAll (⟨.keyword .func, "func", ⟨1, 1⟩⟩ ::
      ([⟨.identifier "f", "f", ⟨1, 6⟩⟩, ⟨.opening .round, "(", ⟨1, 7⟩⟩,
          ⟨.closing .round, ")", ⟨1, 8⟩⟩, ⟨.opening .curly, "\x7b", ⟨1, 10⟩⟩,
          ⟨.keyword .type, "type", ⟨1, 12⟩⟩, ⟨.identifier "T", "T", ⟨1, 17⟩⟩,
          ⟨.identifier "int", "int", ⟨1, 19⟩⟩, ⟨.semicolon, ";", ⟨1, 22⟩⟩,
          ⟨.closing .curly, "\x7d", ⟨1, 24⟩⟩] ++
        .lineEnd ⟨1, 25⟩ :: [⟨.comment "// end", "// end", ⟨2, 1⟩⟩])) =
      .ok [.other "func", .comment ⟨"// end", 2⟩] := by
  rw [readAll_skipped rfl (by decide) (by decide) rfl]
  simp only [readAll]
  rfl

end Node

end DeclBridge
