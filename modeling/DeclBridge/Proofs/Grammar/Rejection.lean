import DeclBridge.Node

/-!
What a source text is rejected for. The scanner and every reader fail with errors that lie in the
source text, and with no others.
-/

namespace DeclBridge

open Cursor

/-- The errors lie in the source text, or none of them does. -/
def Errs {α : Type} (inSource : Bool) (x : Except Error α) : Prop :=
  ∀ e, x = .error e → e.inSource = inSource

section

variable {α β : Type} {b : Bool} {x : Except Error α} {f : α → Except Error β}

theorem errs_ok (a : α) : Errs b (.ok a : Except Error α) := nofun

theorem errs_error {e : Error} (h : e.inSource = b) : Errs b (.error e : Except Error α) := by
  rintro _ ⟨⟩
  exact h

theorem Errs.bind (h : Errs b x) (hf : ∀ a, Errs b (f a)) : Errs b (x >>= f) := by
  cases x with
  | error e => exact errs_error (h e rfl)
  | ok a => exact hf a

end

theorem errs_ofText (p : Position) (cs : List Char) : Errs true (Mark.ofText p cs) := by
  induction p, cs using Mark.ofText.induct with
  | case1 =>
      rw [Mark.ofText]
      exact errs_ok _
  | case2 p c cs hc ih =>
      rw [Mark.ofText, if_pos hc]
      exact ih
  | case3 p cs hc ih =>
      rw [Mark.ofText, if_neg hc, if_pos rfl]
      exact ih.bind fun _ => errs_ok _
  | case4 p c cs hc hbreak fault hn =>
      rw [Mark.ofText, if_neg hc, if_neg hbreak, hn]
      exact errs_error rfl
  | case5 p c cs hc hbreak shape n hn =>
      rename_i ih
      rw [Mark.ofText, if_neg hc, if_neg hbreak, hn]
      exact ih.bind fun _ => errs_ok _

namespace Cursor

variable {ts : List Token}

theorem errs_unexpected {α : Type} (expected : Expectation) (ts : List Token) :
    Errs true (.error (unexpected expected ts) : Except Error α) := by
  apply errs_error
  cases ts <;> rfl

theorem errs_expect (kind : Token.Kind) (ts : List Token) : Errs true (expect kind ts) := by
  cases ts with
  | nil => exact errs_error rfl
  | cons t ts =>
      rw [expect]
      split
      · exact errs_ok _
      · exact errs_unexpected _ _

theorem errs_identifier (ts : List Token) : Errs true (identifier ts) := by
  cases ts with
  | nil => exact errs_error rfl
  | cons t ts =>
      rw [identifier]
      split
      · exact errs_ok _
      · exact errs_unexpected _ _

theorem errs_group (ts : List Token) : Errs true (group ts) := by
  cases ts with
  | nil => exact errs_error rfl
  | cons t ts =>
      rw [group]
      split
      · split
        · exact errs_ok _
        · exact errs_error rfl
      · exact errs_unexpected _ _

end Cursor

namespace TypeExpr

theorem errs_readMember (name : String) {ts : List Token} (c : After ts) :
    Errs true (readMember name c) := by
  unfold readMember
  split
  · exact (errs_expect _ _).bind fun d => (errs_identifier _).bind fun _ => errs_ok _
  · exact errs_ok _

theorem errs_readLengthEnd (length : TypeExpr) (ts : List Token) :
    Errs true (readLengthEnd length ts) := by
  unfold readLengthEnd
  split
  · exact errs_ok _
  · exact errs_error rfl

theorem errs_readLength (ts : List Token) : Errs true (readLength ts) := by
  cases ts with
  | nil => exact errs_error rfl
  | cons t ts =>
      rw [readLength]
      split
      · exact (errs_readLengthEnd _ _).bind fun _ => errs_ok _
      · exact (errs_readLengthEnd _ _).bind fun _ => errs_ok _
      · exact (errs_readMember _ _).bind fun _ => (errs_readLengthEnd _ _).bind fun _ => errs_ok _
      · exact errs_readLengthEnd _ _

theorem errs_read (ts : List Token) : Errs true (read ts) := by
  induction ts using read.induct with
  | case1 =>
      rw [read]
      exact errs_error rfl
  | case2 t ts name ht =>
      simp only [read, ht]
      exact errs_readMember _ _
  | case3 t ts ht ih =>
      simp only [read, ht]
      exact ih.bind fun _ => errs_ok _
  | case4 t ts ht hclosing ih =>
      simp only [read, ht, hclosing, if_true]
      exact (errs_expect _ _).bind fun c => (ih c).bind fun _ => errs_ok _
  | case5 t ts ht hclosing ih =>
      simp only [read, ht, hclosing]
      exact (errs_readLength _).bind fun p => (ih p.2).bind fun _ => errs_ok _
  | case6 t ts ht ih =>
      simp only [read, ht]
      exact ih.bind fun p => (errs_expect _ _).bind fun _ => errs_ok _
  | case7 t ts ht ih =>
      simp only [read, ht]
      exact (errs_expect _ _).bind fun c => (ih c).bind fun _ => errs_ok _
  | case8 t ts ht harrow ih =>
      simp only [read, ht, harrow, if_true]
      exact (errs_expect _ _).bind fun c => (ih c).bind fun _ => errs_ok _
  | case9 t ts ht harrow ih =>
      simp only [read, ht, harrow]
      exact ih.bind fun _ => errs_ok _
  | case10 t ts ht ihKey ihValue =>
      simp only [read, ht]
      exact (errs_expect _ _).bind fun c => (ihKey c).bind fun p =>
        (errs_expect _ _).bind fun e => (ihValue c p.2 e).bind fun _ => errs_ok _
  | case11 t ts ht =>
      simp only [read, ht]
      refine (errs_group _).bind fun c => ?_
      split <;> exact errs_ok _
  | case12 t ts ht =>
      simp only [read, ht]
      exact (errs_group _).bind fun _ => errs_ok _
  | case13 t ts ht hround ih =>
      simp only [read, ht, hround]
      exact errs_unexpected _ _
  | case14 t ts ht hround ih =>
      simp only [read, ht, hround]
      refine (errs_group _).bind fun c => ?_
      split
      · exact (errs_group _).bind fun _ => errs_ok _
      · split
        · exact (ih c).bind fun _ => errs_ok _
        · exact errs_ok _
  | case15 t ts =>
      have hread : read (t :: ts) = .error (unexpected .type (t :: ts)) := by simp_all [read]
      rw [hread]
      exact errs_unexpected _ _

end TypeExpr

namespace Field

theorem errs_readEnd (names : List String) (type : TypeExpr) {ts : List Token} (c : After ts) :
    Errs true (readEnd names type c) := by
  unfold readEnd
  obtain ⟨tag, d⟩ := c.takeIf literal?
  dsimp only
  split
  · exact errs_ok _
  · exact errs_unexpected _ _

theorem errs_readNames (line : Nat) (ts : List Token) : Errs true (readNames line ts) := by
  fun_induction readNames line ts with
  | case1 line ts hcomma ih =>
      exact (errs_expect _ _).bind fun c => (errs_identifier _).bind fun p =>
        (ih c p.2).bind fun _ => errs_ok _
  | case2 => exact errs_ok _

theorem errs_read (ts : List Token) : Errs true (read ts) := by
  unfold read
  split
  · exact (TypeExpr.errs_read _).bind fun _ => errs_readEnd _ _ _
  · refine (errs_identifier _).bind fun ⟨first, c⟩ => ?_
    dsimp only
    split
    · exact (TypeExpr.errs_readMember _ _).bind fun _ => errs_readEnd _ _ _
    · split
      · exact errs_readEnd _ _ _
      · exact (errs_readNames _ _).bind fun _ => (TypeExpr.errs_read _).bind fun _ =>
          errs_readEnd _ _ _

theorem errs_readAll (lastLine : Nat) (doc : List Comment) (ts : List Token) :
    Errs true (readAll lastLine doc ts) := by
  induction lastLine, doc, ts using readAll.induct with
  | case1 =>
      rw [readAll]
      exact errs_error rfl
  | case2 lastLine doc t ts ht ih =>
      simp only [readAll, ht]
      exact ih.bind fun _ => errs_ok _
  | case3 lastLine doc t ts text ht behind ih =>
      simp only [readAll, ht]
      exact ih.bind fun _ => errs_ok _
  | case4 lastLine doc t ts ht =>
      simp only [readAll, ht]
      exact errs_ok _
  | case5 lastLine doc t ts hsemicolon hcomment hclosing ih =>
      rw [readAll]
      split
      · exact absurd ‹_› hsemicolon
      · exact absurd ‹_› (hcomment _)
      · exact absurd ‹_› hclosing
      · exact (errs_read _).bind fun p => (ih p.2).bind fun _ => errs_ok _

end Field

namespace Decl

theorem errs_readBody (name : String) (line : Nat) (ts : List Token) :
    Errs true (readBody name line ts) := by
  unfold readBody
  split
  · exact (errs_expect _ _).bind fun _ => (errs_expect _ _).bind fun _ =>
      (Field.errs_readAll _ _ _).bind fun _ => errs_ok _
  · exact (TypeExpr.errs_read _).bind fun _ => errs_ok _

theorem errs_readSpec (line : Nat) (ts : List Token) : Errs true (readSpec line ts) := by
  unfold readSpec
  refine (errs_identifier _).bind fun ⟨name, c⟩ => ?_
  dsimp only
  split
  · exact errs_ok _
  · refine (errs_readBody _ _ _).bind fun ⟨decl, e⟩ => ?_
    dsimp only
    split
    · exact errs_ok _
    · exact errs_unexpected _ _

theorem errs_readGroup (line : Option Nat) (ts : List Token) : Errs true (readGroup line ts) := by
  induction line, ts using readGroup.induct with
  | case1 =>
      rw [readGroup]
      exact errs_error rfl
  | case2 line t ts ht ih =>
      simp only [readGroup, ht]
      exact ih.bind fun _ => errs_ok _
  | case3 line t ts text ht ih =>
      simp only [readGroup, ht]
      exact ih.bind fun _ => errs_ok _
  | case4 line t ts ht =>
      simp only [readGroup, ht]
      exact errs_ok _
  | case5 line t ts hsemicolon hcomment hclosing ih =>
      rw [readGroup]
      split
      · exact absurd ‹_› hsemicolon
      · exact absurd ‹_› (hcomment _)
      · exact absurd ‹_› hclosing
      · exact (errs_readSpec _ _).bind fun p => (ih p.2).bind fun _ => errs_ok _

theorem errs_read (line : Nat) (ts : List Token) : Errs true (read line ts) := by
  unfold read
  split
  · exact (errs_expect _ _).bind fun _ => (errs_readGroup _ _).bind fun _ => errs_ok _
  · exact (errs_readSpec _ _).bind fun _ => errs_ok _

end Decl

namespace Node

theorem errs_readAll (ts : List Token) : Errs true (readAll ts) := by
  induction ts using readAll.induct with
  | case1 =>
      rw [readAll]
      exact errs_ok _
  | case2 t ts ht ih =>
      simp only [readAll, ht]
      exact ih
  | case3 t ts text ht ih =>
      simp only [readAll, ht]
      exact ih.bind fun _ => errs_ok _
  | case4 t ts ht ih =>
      simp only [readAll, ht]
      exact (errs_identifier _).bind fun p => (ih p.2).bind fun _ => errs_ok _
  | case5 t ts ht ih =>
      simp only [readAll, ht]
      exact (Decl.errs_read _ _).bind fun p => (ih p.2).bind fun _ => errs_ok _
  | case6 t ts ht ih | case7 t ts ht ih | case8 t ts ht ih | case9 t ts ht ih =>
      simp only [readAll, ht]
      exact ih.bind fun _ => errs_ok _
  | case10 t ts =>
      have hread : readAll (t :: ts) = .error (unexpected .declaration (t :: ts)) := by
        simp_all only [readAll]
        rfl
      rw [hread]
      exact errs_unexpected _ _

/-- A source text is rejected for what stands in it. -/
theorem errs_ofSource (source : String) : Errs true (ofSource source) := by
  have hscan : Errs true (Scanned.ofSource source) := (errs_ofText _ _).bind fun _ => errs_ok _
  exact hscan.bind fun _ => errs_readAll _

end Node

end DeclBridge
