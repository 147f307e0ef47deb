import DeclBridge.Proofs.Grammar.Node

/-!
Brackets that are properly nested by kind. What a reader takes is properly nested on its own, if all
the tokens are.
-/

namespace DeclBridge

namespace Token

namespace Kind

def isBracket : Kind → Bool
  | opening _ | closing _ => true
  | _ => false

theorem bracket_cases (kind : Kind) :
    (∃ bracket, kind = opening bracket) ∨ (∃ bracket, kind = closing bracket) ∨
      kind.isBracket = false := by
  cases kind <;> simp [isBracket]

end Kind

/-- The groups that are open behind the tokens if `open` are open before them, the innermost first;
`none` if a bracket closes none of its own kind. -/
def nest : List Bracket → List Token → Option (List Bracket)
  | brackets, [] => some brackets
  | brackets, t :: ts =>
      match t.kind, brackets with
      | .opening bracket, brackets => nest (bracket :: brackets) ts
      | .closing bracket, other :: brackets => if other = bracket then nest brackets ts else none
      | .closing _, [] => none
      | _, brackets => nest brackets ts

/-- Every bracket closes the group that was opened last, and no group stays open. -/
def Nested (ts : List Token) : Prop :=
  nest [] ts = some []

instance (ts : List Token) : Decidable (Nested ts) :=
  inferInstanceAs (Decidable (nest [] ts = some []))

variable {t : Token} {bracket : Bracket} {brackets : List Bracket} {ts : List Token}

theorem nest_opening (h : t.kind = .opening bracket) :
    nest brackets (t :: ts) = nest (bracket :: brackets) ts := by
  cases brackets <;> simp only [nest, h]

theorem nest_other (h : t.kind.isBracket = false) :
    nest brackets (t :: ts) = nest brackets ts := by
  cases brackets <;> rw [nest.eq_def] <;> dsimp only <;> split <;> simp_all [Kind.isBracket]

theorem nest_closing {result : List Bracket} (h : t.kind = .closing bracket)
    (hnest : nest brackets (t :: ts) = some result) :
    ∃ outer, brackets = bracket :: outer ∧ nest outer ts = some result := by
  cases brackets with
  | nil => simp [nest, h] at hnest
  | cons other outer =>
      simp only [nest, h] at hnest
      split at hnest
      · rename_i hother
        exact ⟨outer, by rw [hother], hnest⟩
      · cases hnest

theorem nest_close (h : t.kind = .closing bracket) :
    nest (bracket :: brackets) (t :: ts) = nest brackets ts := by
  simp only [nest, h, if_true]

theorem nest_append (brackets : List Bracket) (ts us : List Token) :
    nest brackets (ts ++ us) = (nest brackets ts).bind (nest · us) := by
  induction ts generalizing brackets with
  | nil => rfl
  | cons t ts ih =>
      rw [List.cons_append]
      rcases t.kind.bracket_cases with ⟨bracket, ht⟩ | ⟨bracket, ht⟩ | ht
      · rw [nest_opening ht, nest_opening ht]
        exact ih _
      · cases brackets with
        | nil => simp [nest, ht]
        | cons other brackets =>
            simp only [nest, ht]
            split
            · exact ih _
            · rfl
      · rw [nest_other ht, nest_other ht]
        exact ih _

/-- The tokens leave the groups `result` open, by their first token. -/
inductive Nests (result : List Bracket) : List Bracket → List Token → Prop where
  | nil : Nests result result []
  | opening {t : Token} {bracket : Bracket} {brackets : List Bracket} {ts : List Token} :
      t.kind = .opening bracket → Nests result (bracket :: brackets) ts →
      Nests result brackets (t :: ts)
  | closing {t : Token} {bracket : Bracket} {brackets : List Bracket} {ts : List Token} :
      t.kind = .closing bracket → Nests result brackets ts →
      Nests result (bracket :: brackets) (t :: ts)
  | other {t : Token} {brackets : List Bracket} {ts : List Token} :
      t.kind.isBracket = false → Nests result brackets ts → Nests result brackets (t :: ts)

theorem nests_of_nest {result : List Bracket} (h : nest brackets ts = some result) :
    Nests result brackets ts := by
  induction ts generalizing brackets with
  | nil =>
      cases h
      exact .nil
  | cons t ts ih =>
      rcases t.kind.bracket_cases with ⟨bracket, ht⟩ | ⟨bracket, ht⟩ | ht
      · rw [nest_opening ht] at h
        exact .opening ht (ih h)
      · obtain ⟨brackets, rfl, hnest⟩ := nest_closing ht h
        exact .closing ht (ih hnest)
      · rw [nest_other ht] at h
        exact .other ht (ih h)

theorem nest_beneath {inner result : List Bracket} (h : Nests result inner ts)
    (outer : List Bracket) : nest (inner ++ outer) ts = some (result ++ outer) := by
  induction h with
  | nil => rfl
  | opening ht _ ih => exact (nest_opening ht).trans ih
  | closing ht _ ih => exact (nest_close ht).trans ih
  | other ht _ ih => exact (nest_other ht).trans ih

namespace Nested

variable {us : List Token}

theorem nil : Nested [] :=
  rfl

theorem nests (h : Nested ts) : Nests [] [] ts :=
  nests_of_nest h

theorem nest_eq (h : Nested ts) (brackets : List Bracket) : nest brackets ts = some brackets :=
  nest_beneath h.nests brackets

theorem append (hts : Nested ts) (hus : Nested us) : Nested (ts ++ us) := by
  rw [Nested, nest_append, hts]
  exact hus

theorem cons (ht : t.kind.isBracket = false) (h : Nested ts) : Nested (t :: ts) := by
  rw [Nested, nest_other ht]
  exact h

theorem enclose {u : Token} (ht : t.kind = .opening bracket) (hts : Nested ts)
    (hu : u.kind = .closing bracket) (hus : Nested us) : Nested (t :: (ts ++ u :: us)) := by
  rw [Nested, nest_opening ht, nest_append, hts.nest_eq]
  exact (nest_close hu).trans hus

theorem kind_ne (h : Nested (t :: ts)) (bracket : Bracket) : t.kind ≠ .closing bracket := by
  intro ht
  obtain ⟨_, ⟨⟩, _⟩ := nest_closing ht h

end Nested

end Token

namespace Cursor

open Token (Nests nest nest_opening nest_closing nest_other)

variable {t : Token} {bracket : Bracket} {depth : Nat} {ts : List Token}

theorem afterGroup?_opening (h : t.kind = .opening bracket) :
    afterGroup? depth (t :: ts) = afterGroup? (depth + 1) ts := by
  cases depth <;> simp only [afterGroup?, h]

theorem afterGroup?_close (h : t.kind = .closing bracket) :
    afterGroup? 0 (t :: ts) = some ⟨t.line, ts⟩ := by
  simp only [afterGroup?, h]

theorem afterGroup?_closing (h : t.kind = .closing bracket) :
    afterGroup? (depth + 1) (t :: ts) = afterGroup? depth ts := by
  simp only [afterGroup?, h]

theorem afterGroup?_other (h : t.kind.isBracket = false) :
    afterGroup? depth (t :: ts) = afterGroup? depth ts := by
  cases depth <;> rw [afterGroup?.eq_def] <;> dsimp only <;> split <;> simp_all [Token.Kind.isBracket]

theorem afterGroup?_append {inner result : List Bracket} (h : Nests result inner ts)
    (us : List Token) : afterGroup? inner.length (ts ++ us) = afterGroup? result.length us := by
  induction h with
  | nil => rfl
  | opening ht _ ih => exact (afterGroup?_opening ht).trans ih
  | closing ht _ ih => exact (afterGroup?_closing ht).trans ih
  | other ht _ ih => exact (afterGroup?_other ht).trans ih

/-- Tokens that are properly nested between two brackets are a group. -/
theorem groups_of_nested {u : Token} (ht : t.kind = .opening bracket) (hts : Token.Nested ts)
    (hu : u.kind = .closing bracket) (us : List Token) :
    Groups (t :: (ts ++ u :: us)) ⟨u.line, us⟩ := by
  refine ⟨t, ts ++ u :: us, bracket, rfl, ht, ?_⟩
  have happend := afterGroup?_append hts.nests (u :: us)
  rw [List.length_nil, afterGroup?_close hu] at happend
  exact happend

/-- Behind a group are open the groups that were open before it. -/
theorem nest_afterGroup? (inner : List Bracket) {outer result : List Bracket} {c : Cursor}
    (h : afterGroup? inner.length ts = some c)
    (hnest : nest (inner ++ bracket :: outer) ts = some result) :
    nest outer c.rest = some result := by
  -- The walk counts the groups in `inner` and stops where `bracket` is closed.
  induction ts generalizing inner with
  | nil => simp [afterGroup?] at h
  | cons t ts ih =>
      rcases t.kind.bracket_cases with ⟨other, ht⟩ | ⟨other, ht⟩ | ht
      · rw [afterGroup?_opening ht] at h
        rw [nest_opening ht] at hnest
        exact ih (other :: inner) h hnest
      · obtain ⟨brackets, hbrackets, hnest⟩ := nest_closing ht hnest
        cases inner with
        | nil =>
            rw [List.length_nil, afterGroup?_close ht] at h
            cases h
            cases hbrackets
            exact hnest
        | cons _ inner =>
            rw [List.length_cons, afterGroup?_closing ht] at h
            cases hbrackets
            exact ih inner h hnest
      · rw [afterGroup?_other ht] at h
        rw [nest_other ht] at hnest
        exact ih inner h hnest

theorem nest_of_groups {brackets result : List Bracket} {c : Cursor} (h : Groups ts c)
    (hnest : nest brackets ts = some result) : nest brackets c.rest = some result := by
  obtain ⟨t, us, bracket, rfl, ht, hc⟩ := h
  rw [nest_opening ht] at hnest
  exact nest_afterGroup? [] hc hnest

theorem afterDeclaration_semicolon {line : Nat} (h : t.kind = .semicolon) :
    afterDeclaration line 0 (t :: ts) = ⟨t.line, ts⟩ := by
  simp only [afterDeclaration, h]

theorem afterDeclaration_opening {line : Nat} (h : t.kind = .opening bracket) :
    afterDeclaration line depth (t :: ts) = afterDeclaration t.line (depth + 1) ts := by
  cases depth <;> simp only [afterDeclaration, h]

theorem afterDeclaration_close {line : Nat} (h : t.kind = .closing bracket) :
    afterDeclaration line 0 (t :: ts) = ⟨line, t :: ts⟩ := by
  simp only [afterDeclaration, h]

theorem afterDeclaration_closing {line : Nat} (h : t.kind = .closing bracket) :
    afterDeclaration line (depth + 1) (t :: ts) = afterDeclaration t.line depth ts := by
  simp only [afterDeclaration, h]

theorem afterDeclaration_other {line : Nat} (h : t.kind.isBracket = false)
    (hsemicolon : t.kind ≠ .semicolon ∨ depth ≠ 0) :
    afterDeclaration line depth (t :: ts) = afterDeclaration t.line depth ts := by
  cases depth <;> rw [afterDeclaration.eq_def] <;> dsimp only <;> split <;> simp_all [Token.Kind.isBracket]

end Cursor

namespace TypeExpr

open Cursor
open Token (Nests nest nest_opening nest_closing nest_other)

variable {t : Token} {bracket : Bracket} {depth : Nat} {ts : List Token}

theorem afterLength?_opening (h : t.kind = .opening bracket) :
    afterLength? depth (t :: ts) = afterLength? (depth + 1) ts := by
  cases depth <;> simp only [afterLength?, h]

theorem afterLength?_close (h : t.kind = .closing .square) :
    afterLength? 0 (t :: ts) = some ⟨t.line, ts⟩ := by
  simp only [afterLength?, h]

theorem afterLength?_closing (h : t.kind = .closing bracket) (hdeep : bracket ≠ .square ∨ depth ≠ 0) :
    afterLength? depth (t :: ts) = afterLength? (depth - 1) ts := by
  cases depth <;> rw [afterLength?.eq_def] <;> dsimp only <;> split <;> simp_all

theorem afterLength?_other (h : t.kind.isBracket = false) :
    afterLength? depth (t :: ts) = afterLength? depth ts := by
  cases depth <;> rw [afterLength?.eq_def] <;> dsimp only <;> split <;> simp_all [Token.Kind.isBracket]

theorem afterLength?_append {inner result : List Bracket} (h : Nests result inner ts)
    (us : List Token) : afterLength? inner.length (ts ++ us) = afterLength? result.length us := by
  induction h with
  | nil => rfl
  | opening ht _ ih => exact (afterLength?_opening ht).trans ih
  | closing ht _ ih => exact (afterLength?_closing ht (.inr (Nat.succ_ne_zero _))).trans ih
  | other ht _ ih => exact (afterLength?_other ht).trans ih

/-- Behind a length are open the groups that were open before the bracket that it closes. -/
theorem nest_afterLength? (inner : List Bracket) {outer result : List Bracket} {c : Cursor}
    (h : afterLength? inner.length ts = some c)
    (hnest : nest (inner ++ .square :: outer) ts = some result) :
    nest outer c.rest = some result := by
  induction ts generalizing inner with
  | nil => simp [afterLength?] at h
  | cons t ts ih =>
      rcases t.kind.bracket_cases with ⟨other, ht⟩ | ⟨other, ht⟩ | ht
      · rw [afterLength?_opening ht] at h
        rw [nest_opening ht] at hnest
        exact ih (other :: inner) h hnest
      · obtain ⟨brackets, hbrackets, hnest⟩ := nest_closing ht hnest
        cases inner with
        | nil =>
            cases hbrackets
            rw [List.length_nil, afterLength?_close ht] at h
            cases h
            exact hnest
        | cons _ inner =>
            cases hbrackets
            rw [List.length_cons, afterLength?_closing ht (.inr (by simp))] at h
            exact ih inner h hnest
      · rw [afterLength?_other ht] at h
        rw [nest_other ht] at hnest
        exact ih inner h hnest

variable {brackets result : List Bracket} {c d : Cursor}

theorem nest_of_readsMember {name : String} {type : TypeExpr} (h : ReadsMember name c type d)
    (hnest : nest brackets c.rest = some result) : nest brackets d.rest = some result := by
  cases h with
  | alone => exact hnest
  | member ht hu =>
      rwa [nest_other (by rw [ht]; rfl), nest_other (by rw [hu]; rfl)] at hnest

theorem nest_of_readsLength {length : TypeExpr} (h : ReadsLength ts length c)
    (hnest : nest (.square :: brackets) ts = some result) : nest brackets c.rest = some result := by
  cases h with
  | int ht he =>
      rw [nest_other (by rw [ht]; rfl)] at hnest
      exact nest_afterLength? [] he.1 hnest
  | counted ht he =>
      rw [nest_other (by rw [ht]; rfl)] at hnest
      exact nest_afterLength? [] he.1 hnest
  | name ht hm he =>
      rw [nest_other (by rw [ht]; rfl)] at hnest
      exact nest_afterLength? [] he.1 (nest_of_readsMember hm hnest)
  | computed _ he => exact nest_afterLength? [] he.1 hnest

/-- Behind a type expression are open the groups that were open before it. -/
theorem nest_of_reads {type : TypeExpr} (h : Reads ts type c)
    (hnest : nest brackets ts = some result) : nest brackets c.rest = some result := by
  induction h generalizing brackets result with
  | name ht hm =>
      rw [nest_other (by rw [ht]; rfl)] at hnest
      exact nest_of_readsMember hm hnest
  | pointer ht _ ih =>
      rw [nest_other (by rw [ht]; rfl)] at hnest
      exact ih hnest
  | slice ht hu _ ih =>
      rw [nest_opening ht] at hnest
      obtain ⟨outer, houter, hnest⟩ := nest_closing hu hnest
      cases houter
      exact ih hnest
  | array ht _ hl _ ih =>
      rw [nest_opening ht] at hnest
      exact ih (nest_of_readsLength hl hnest)
  | parens ht _ hu ih =>
      rw [nest_opening ht] at hnest
      obtain ⟨outer, houter, hnest⟩ := nest_closing hu (ih hnest)
      cases houter
      exact hnest
  | receiver ht hu _ ih | sender ht hu _ ih =>
      rw [nest_other (by rw [ht]; rfl), nest_other (by rw [hu]; rfl)] at hnest
      exact ih hnest
  | channel ht _ _ ih =>
      rw [nest_other (by rw [ht]; rfl)] at hnest
      exact ih hnest
  | map ht hu _ hv _ ihKey ihValue =>
      rw [nest_other (by rw [ht]; rfl), nest_opening hu] at hnest
      obtain ⟨outer, houter, hnest⟩ := nest_closing hv (ihKey hnest)
      cases houter
      exact ihValue hnest
  | dynamic ht hg | interface ht hg | struct ht hg =>
      rw [nest_other (by rw [ht]; rfl)] at hnest
      exact nest_of_groups hg hnest
  | procedure ht _ hg =>
      rw [nest_other (by rw [ht]; rfl)] at hnest
      exact nest_of_groups hg hnest
  | results ht _ hg _ hg' =>
      rw [nest_other (by rw [ht]; rfl)] at hnest
      exact nest_of_groups hg' (nest_of_groups hg hnest)
  | result ht _ hg _ _ _ ih =>
      rw [nest_other (by rw [ht]; rfl)] at hnest
      exact ih (nest_of_groups hg hnest)

end TypeExpr

namespace Field

open Cursor
open Token (nest nest_opening nest_closing nest_other)

variable {ts : List Token} {brackets result : List Bracket} {c d : Cursor} {f : Field}

theorem nest_of_readsEnd {names : List String} {type : TypeExpr} (h : ReadsEnd names type c f d)
    (hnest : nest brackets c.rest = some result) : nest brackets d.rest = some result := by
  cases h with
  | tagged ht => rwa [nest_other (by rw [ht]; rfl)] at hnest
  | plain => exact hnest

theorem nest_of_readsNames {names : List String} (h : ReadsNames c names d)
    (hnest : nest brackets c.rest = some result) : nest brackets d.rest = some result := by
  induction h with
  | nil => exact hnest
  | cons ht hu _ ih =>
      rw [nest_other (by rw [ht]; rfl), nest_other (by rw [hu]; rfl)] at hnest
      exact ih hnest

theorem nest_of_reads (h : Reads ts f c) (hnest : nest brackets ts = some result) :
    nest brackets c.rest = some result := by
  cases h with
  | pointer _ hr he => exact nest_of_readsEnd he (TypeExpr.nest_of_reads hr hnest)
  | qualified ht _ hm he =>
      rw [nest_other (by rw [ht]; rfl)] at hnest
      exact nest_of_readsEnd he (TypeExpr.nest_of_readsMember hm hnest)
  | embedded ht _ _ he =>
      rw [nest_other (by rw [ht]; rfl)] at hnest
      exact nest_of_readsEnd he hnest
  | named ht _ _ hn hr he =>
      rw [nest_other (by rw [ht]; rfl)] at hnest
      exact nest_of_readsEnd he (TypeExpr.nest_of_reads hr (nest_of_readsNames hn hnest))

/-- Behind the fields of a struct are open the groups that were open before its brace. -/
theorem nest_of_readsAll {lastLine : Nat} {doc : List Comment} {fields : List Field}
    (h : ReadsAll lastLine doc ts fields c) (hnest : nest (.curly :: brackets) ts = some result) :
    nest brackets c.rest = some result := by
  induction h with
  | semicolon ht _ ih | comment ht _ ih =>
      rw [nest_other (by rw [ht]; rfl)] at hnest
      exact ih hnest
  | close ht =>
      obtain ⟨outer, houter, hnest⟩ := nest_closing ht hnest
      cases houter
      exact hnest
  | field hf _ ih => exact ih (nest_of_reads hf hnest)

end Field

end DeclBridge
