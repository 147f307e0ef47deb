import DeclBridge.Node
import DeclBridge.Proofs.Grammar.Decl

/-!
A grammar of whole source texts. The nodes of a source text are read from its tokens exactly if
they are derived from them.
-/

namespace DeclBridge.Node

open Cursor

/-- Whether a token begins a declaration that is skipped as a whole. -/
def beginsSkipped : Token.Kind → Bool
  | .keyword word => [.imports, .func, .var, .const].contains word
  | _ => false

theorem beginsSkipped_iff {kind : Token.Kind} :
    beginsSkipped kind = true ↔ kind = .keyword .imports ∨ kind = .keyword .func ∨
      kind = .keyword .var ∨ kind = .keyword .const := by
  unfold beginsSkipped
  split <;> simp_all

/-- The nodes that stand in the tokens of a source text. -/
inductive ReadsAll : List Token → List Node → Prop where
  | nil : ReadsAll [] []
  | semicolon {t : Token} {ts : List Token} {nodes : List Node} :
      t.kind = .semicolon → ReadsAll ts nodes → ReadsAll (t :: ts) nodes
  | comment {t : Token} {ts : List Token} {text : String} {nodes : List Node} :
      t.kind = .comment text → ReadsAll ts nodes →
      ReadsAll (t :: ts) (.comment ⟨text, t.line⟩ :: nodes)
  | package {t u : Token} {ts : List Token} {name : String} {nodes : List Node} :
      t.kind = .keyword .package → u.kind = .identifier name → ReadsAll ts nodes →
      ReadsAll (t :: u :: ts) (.other ("package " ++ name) :: nodes)
  | type {t : Token} {ts : List Token} {nodes more : List Node} {c : Cursor} :
      t.kind = .keyword .type → Decl.Reads t.line ts nodes c → ReadsAll c.rest more →
      ReadsAll (t :: ts) (nodes ++ more)
  | skipped {t : Token} {ts : List Token} {nodes : List Node} :
      beginsSkipped t.kind = true → ReadsAll (afterDeclaration t.line 0 ts).rest nodes →
      ReadsAll (t :: ts) (.other t.lexeme :: nodes)

theorem readsAll_of_readAll {ts : List Token} {nodes : List Node} (h : readAll ts = .ok nodes) :
    ReadsAll ts nodes := by
  induction ts using readAll.induct generalizing nodes with
  | case1 =>
      rw [readAll] at h
      cases h
      exact .nil
  | case2 t ts ht ih =>
      simp only [readAll, ht] at h
      exact .semicolon ht (ih h)
  | case3 t ts text ht ih =>
      simp only [readAll, ht, bind_eq_ok] at h
      obtain ⟨more, hmore, ⟨⟩⟩ := h
      exact .comment ht (ih hmore)
  | case4 t ts ht ih =>
      simp only [readAll, ht, bind_eq_ok] at h
      obtain ⟨⟨name, ⟨c, hc'⟩⟩, hc, more, hmore, ⟨⟩⟩ := h
      obtain ⟨u, us, rfl, hu, rfl⟩ := identifier_eq_ok.mp hc
      exact .package ht hu (ih _ hmore)
  | case5 t ts ht ih =>
      simp only [readAll, ht, bind_eq_ok] at h
      obtain ⟨⟨first, c⟩, hc, more, hmore, ⟨⟩⟩ := h
      exact .type ht (Decl.read_eq_ok.mp hc) (ih _ hmore)
  | case6 t ts ht ih | case7 t ts ht ih | case8 t ts ht ih | case9 t ts ht ih =>
      simp only [readAll, ht, bind_eq_ok] at h
      obtain ⟨more, hmore, ⟨⟩⟩ := h
      exact .skipped (by simp [beginsSkipped, ht]) (ih hmore)
  | case10 t ts => simp_all [readAll]

theorem readAll_of_readsAll {ts : List Token} {nodes : List Node} (h : ReadsAll ts nodes) :
    readAll ts = .ok nodes := by
  induction h with
  | nil =>
      rw [readAll]
      rfl
  | semicolon ht _ ih =>
      simp only [readAll, ht]
      exact ih
  | comment ht _ ih =>
      simp only [readAll, ht, ih]
      rfl
  | @package t u ts name nodes ht hu _ ih =>
      simp only [readAll, ht]
      exact bind_eq_ok.mpr ⟨(name, ⟨⟨u.line, ts⟩, by simp⟩),
        identifier_eq_ok.mpr ⟨u, ts, rfl, hu, rfl⟩, bind_eq_ok.mpr ⟨nodes, ih, rfl⟩⟩
  | @type t ts nodes more c ht hd _ ih =>
      simp only [readAll, ht]
      exact bind_eq_ok.mpr ⟨(nodes, ⟨c, Decl.length_of_reads hd⟩), Decl.read_eq_ok.mpr hd,
        bind_eq_ok.mpr ⟨more, ih, rfl⟩⟩
  | @skipped t ts nodes ht _ ih =>
      rcases beginsSkipped_iff.mp ht with ht | ht | ht | ht
      all_goals
        simp only [readAll, ht]
        exact bind_eq_ok.mpr ⟨nodes, ih, rfl⟩

theorem readAll_eq_ok {ts : List Token} {nodes : List Node} :
    readAll ts = .ok nodes ↔ ReadsAll ts nodes :=
  ⟨readsAll_of_readAll, readAll_of_readsAll⟩

end DeclBridge.Node
