import DeclBridge.Proofs.Grammar.Node
import DeclBridge.Proofs.Scan.Order

/-!
Which tokens a reader takes. They are the first ones, and what a type, a field or a declaration ends
with is on the line of the place behind it.
-/

namespace DeclBridge

/-- Whether the token is neither a comment nor the end of a statement. -/
def Token.Kind.isCode : Kind → Bool
  | comment _ | semicolon => false
  | _ => true

namespace Cursor

/-- The place is behind some of the tokens, of which the last one is on its line and satisfies
`p`. -/
def Behind (p : Token.Kind → Bool) (ts : List Token) (c : Cursor) : Prop :=
  ∃ taken t, ts = taken ++ t :: c.rest ∧ t.line = c.line ∧ p t.kind = true

variable {p : Token.Kind → Bool} {t : Token} {ts : List Token} {c d : Cursor}

theorem Behind.first (h : p t.kind = true) : Behind p (t :: ts) ⟨t.line, ts⟩ :=
  ⟨[], t, rfl, rfl, h⟩

theorem Behind.cons (h : Behind p ts c) : Behind p (t :: ts) c := by
  obtain ⟨taken, u, rfl, hline, hu⟩ := h
  exact ⟨t :: taken, u, rfl, hline, hu⟩

theorem Behind.of_suffix {us : List Token} (h : Behind p us c) (hus : us <:+ ts) :
    Behind p ts c := by
  obtain ⟨before, rfl⟩ := hus
  obtain ⟨taken, u, rfl, hline, hu⟩ := h
  exact ⟨before ++ taken, u, by simp, hline, hu⟩

theorem Behind.suffix (h : Behind p ts c) : c.rest <:+ ts := by
  obtain ⟨taken, u, rfl, -, -⟩ := h
  exact ⟨taken ++ [u], by simp⟩

theorem Behind.trans {q : Token.Kind → Bool} (h : Behind q ts c) (h' : Behind p c.rest d) :
    Behind p ts d :=
  h'.of_suffix h.suffix

theorem Behind.ne_nil (h : Behind p ts c) : ts ≠ [] := by
  obtain ⟨taken, u, rfl, -, -⟩ := h
  simp

theorem Behind.line (h : Behind p ts c) : ∃ t ∈ ts, t.line = c.line := by
  obtain ⟨taken, u, rfl, hline, -⟩ := h
  exact ⟨u, by simp, hline⟩

theorem Behind.isCode (h : Behind Token.Kind.endsType ts c) : Behind Token.Kind.isCode ts c := by
  obtain ⟨taken, u, hts, hline, hu⟩ := h
  refine ⟨taken, u, hts, hline, ?_⟩
  cases hkind : u.kind <;> simp_all [Token.Kind.endsType, Token.Kind.isCode]

theorem behind_afterGroup? {depth : Nat} (h : afterGroup? depth ts = some c) :
    Behind Token.Kind.endsType ts c := by
  fun_induction afterGroup? depth ts with
  | case1 => simp at h
  | case3 t ts bracket ht =>
      cases h
      exact .first (by rw [ht]; rfl)
  | case2 _ _ _ _ _ ih | case4 _ _ _ _ _ ih | case5 _ _ _ _ _ _ ih => exact (ih h).cons

theorem behind_of_groups (h : Groups ts c) : Behind Token.Kind.endsType ts c := by
  obtain ⟨t, us, bracket, rfl, -, hc⟩ := h
  exact (behind_afterGroup? hc).cons

theorem suffix_afterDeclaration (line depth : Nat) (ts : List Token) :
    (afterDeclaration line depth ts).rest <:+ ts := by
  fun_induction afterDeclaration line depth ts with
  | case1 => exact List.suffix_rfl
  | case2 => exact List.suffix_cons _ _
  | case4 => exact List.suffix_rfl
  | case3 _ _ _ _ _ _ ih | case5 _ _ _ _ _ _ ih | case6 _ _ _ _ _ _ _ _ ih =>
      exact ih.trans (List.suffix_cons _ _)

end Cursor

namespace TypeExpr

open Cursor
open Token.Kind (endsType)

variable {t : Token} {ts : List Token} {c d : Cursor}

theorem behind_afterLength? {depth : Nat} (h : afterLength? depth ts = some c) :
    Behind endsType ts c := by
  fun_induction afterLength? depth ts with
  | case1 => simp at h
  | case2 t ts ht =>
      cases h
      exact .first (by rw [ht]; rfl)
  | case3 _ _ _ _ _ ih | case4 _ _ _ _ _ _ ih | case5 _ _ _ _ _ _ ih => exact (ih h).cons

theorem behind_of_readsMember {name : String} {type : TypeExpr}
    (ht : t.kind.endsType = true) (h : ReadsMember name ⟨t.line, ts⟩ type d) :
    Behind endsType (t :: ts) d := by
  cases h with
  | alone => exact .first ht
  | member _ hu =>
      exact (Behind.first (by rw [hu]; rfl)).cons.cons

theorem behind_of_readsLength {length : TypeExpr} (h : ReadsLength ts length c) :
    Behind endsType ts c := by
  cases h with
  | int _ he | counted _ he => exact (behind_afterLength? he.1).cons
  | name ht hm he =>
      have hname := behind_of_readsMember (by rw [ht]; rfl) hm
      exact hname.trans (behind_afterLength? he.1)
  | computed _ he => exact behind_afterLength? he.1

theorem behind_of_reads {type : TypeExpr} (h : Reads ts type c) : Behind endsType ts c := by
  induction h with
  | name ht hm => exact behind_of_readsMember (by rw [ht]; rfl) hm
  | pointer _ _ ih | channel _ _ _ ih => exact ih.cons
  | slice _ _ _ ih | receiver _ _ _ ih | sender _ _ _ ih => exact ih.cons.cons
  | array _ _ hl _ ih => exact ((behind_of_readsLength hl).trans ih).cons
  | parens _ _ hu ih =>
      exact (ih.trans (Behind.first (by rw [hu]; rfl))).cons
  | map _ _ _ hv _ ihKey ihValue =>
      have hclosing := ihKey.trans (Behind.first (p := endsType) (by rw [hv]; rfl))
      exact (hclosing.trans ihValue).cons.cons
  | dynamic _ hg | interface _ hg | struct _ hg => exact (behind_of_groups hg).cons
  | procedure _ _ hg => exact (behind_of_groups hg).cons
  | results _ _ hg _ hg' => exact ((behind_of_groups hg).trans (behind_of_groups hg')).cons
  | result _ _ hg _ _ _ ih => exact ((behind_of_groups hg).trans ih).cons

end TypeExpr

namespace Field

open Cursor
open Token.Kind (isCode endsType)

variable {t : Token} {ts : List Token} {c d : Cursor} {f : Field}

theorem behind_of_readsEnd {names : List String} {type : TypeExpr}
    (hc : Behind isCode ts c) (h : ReadsEnd names type c f d) : Behind isCode ts d := by
  cases h with
  | tagged ht =>
      exact hc.trans (.first (by rw [ht]; rfl))
  | plain => exact hc

theorem behind_of_readsNames {names : List String} (hc : Behind isCode ts c)
    (h : ReadsNames c names d) : Behind isCode ts d := by
  induction h with
  | nil => exact hc
  | cons _ hu _ ih =>
      refine ih (hc.trans ?_)
      exact (Behind.first (by rw [hu]; rfl)).cons

theorem behind_of_reads (h : Reads ts f c) : Behind isCode ts c := by
  cases h with
  | pointer _ hr he => exact behind_of_readsEnd (TypeExpr.behind_of_reads hr).isCode he
  | qualified ht _ hm he =>
      exact behind_of_readsEnd (TypeExpr.behind_of_readsMember (by rw [ht]; rfl) hm).isCode he
  | embedded ht _ _ he => exact behind_of_readsEnd (.first (by rw [ht]; rfl)) he
  | named ht _ _ hn hr he =>
      have hnames := behind_of_readsNames (.first (by rw [ht]; rfl)) hn
      exact behind_of_readsEnd (hnames.trans (TypeExpr.behind_of_reads hr).isCode) he

theorem behind_of_readsAll {lastLine : Nat} {doc : List Comment} {fields : List Field}
    (h : ReadsAll lastLine doc ts fields c) : Behind endsType ts c := by
  induction h with
  | semicolon _ _ ih | comment _ _ ih => exact ih.cons
  | close ht => exact .first (by rw [ht]; rfl)
  | field hf _ ih => exact (behind_of_reads hf).trans ih

end Field

namespace Decl

open Cursor

variable {ts : List Token} {c : Cursor}

theorem suffix_dropLineEnd (ts : List Token) : dropLineEnd ts <:+ ts := by
  cases ts with
  | nil => exact List.suffix_rfl
  | cons t ts =>
      rw [dropLineEnd]
      split
      · exact List.suffix_cons _ _
      · exact List.suffix_rfl

theorem suffix_dropAssign (ts : List Token) : dropAssign ts <:+ ts := by
  cases ts with
  | nil => exact List.suffix_rfl
  | cons t ts =>
      rw [dropAssign]
      split
      · exact List.suffix_cons _ _
      · exact List.suffix_rfl

theorem suffix_trailing (c : Cursor) : (trailing c).2.rest <:+ c.rest := by
  unfold trailing
  split
  · rename_i comment d h
    obtain ⟨t, us, text, hts, -, -, -, rfl⟩ := commentOn?_eq_some.mp h
    refine List.IsSuffix.trans ?_ (suffix_dropLineEnd c.rest)
    rw [hts]
    exact List.suffix_cons _ _
  · exact List.suffix_rfl

theorem behind_of_readsBody {name : String} {line : Nat} {d : Decl}
    (h : ReadsBody name line ts d c) : Behind Token.Kind.endsType ts c := by
  cases h with
  | record _ _ hf => exact (Field.behind_of_readsAll hf).cons.cons
  | type _ hr => exact TypeExpr.behind_of_reads hr

theorem suffix_of_readsSpec {line : Nat} {node : Node} (h : ReadsSpec line ts node c) :
    c.rest <:+ ts := by
  cases h with
  | generic => exact (suffix_afterDeclaration ..).trans (List.suffix_cons _ _)
  | decl _ _ hb _ =>
      have hbody := (behind_of_readsBody hb).suffix.trans (suffix_dropAssign _)
      exact (suffix_trailing _).trans (hbody.trans (List.suffix_cons _ _))

theorem suffix_of_readsGroup {line : Option Nat} {nodes : List Node}
    (h : ReadsGroup line ts nodes c) : c.rest <:+ ts := by
  induction h with
  | semicolon _ _ ih | comment _ _ ih => exact ih.trans (List.suffix_cons _ _)
  | close => exact List.suffix_cons _ _
  | spec hs _ ih => exact ih.trans (suffix_of_readsSpec hs)

theorem suffix_of_reads {line : Nat} {nodes : List Node} (h : Reads line ts nodes c) :
    c.rest <:+ ts := by
  cases h with
  | group _ hg => exact (suffix_of_readsGroup hg).trans (List.suffix_cons _ _)
  | single hs => exact suffix_of_readsSpec hs

end Decl

end DeclBridge
