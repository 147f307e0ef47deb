import DeclBridge.Proofs.Grammar.Span

/-!
Reading of a source text as steps from one piece of it to the next. A source text is read exactly if
steps lead to its end, and the pieces are its nodes in their order.
-/

namespace DeclBridge

open Cursor

/-- What is read in one step, with its tokens. The end of a statement is no node, and neither are the
keyword and the parentheses of a group, which are complete when the group is. -/
structure Piece where
  node? : Option Node
  tokens : List Token

/-- A place between two pieces of a source text: the pieces before it, the keyword and the opening
parenthesis of the group around it, if there is one, the line of that keyword as long as nothing in
the group stands before the place, and the tokens behind it. -/
structure Place where
  pieces : List Piece
  group : Option (Token × Token)
  line : Option Nat
  rest : List Token

namespace Place

def start (ts : List Token) : Place :=
  ⟨[], none, none, ts⟩

def nodes (p : Place) : List Node :=
  p.pieces.filterMap Piece.node?

def taken (p : Place) : List Token :=
  p.pieces.flatMap Piece.tokens ++ (p.group.map fun (t, u) => [t, u]).getD []

/-- Whether the place is behind all pieces. -/
def IsEnd (p : Place) : Prop :=
  p.group = none ∧ p.rest = []

/-- A step over one piece, or into a group. -/
inductive Step : Place → Place → Prop where
  | semicolon {ps : List Piece} {g : Option (Token × Token)} {l : Option Nat} {t : Token}
      {ts : List Token} :
      t.kind = .semicolon → Step ⟨ps, g, l, t :: ts⟩ ⟨ps ++ [⟨none, [t]⟩], g, l, ts⟩
  | comment {ps : List Piece} {g : Option (Token × Token)} {l : Option Nat} {t : Token}
      {ts : List Token} {text : String} :
      t.kind = .comment text →
      Step ⟨ps, g, l, t :: ts⟩ ⟨ps ++ [⟨some (.comment ⟨text, t.line⟩), [t]⟩], g, none, ts⟩
  | package {ps : List Piece} {l : Option Nat} {t u : Token} {ts : List Token} {name : String} :
      t.kind = .keyword .package → u.kind = .identifier name →
      Step ⟨ps, none, l, t :: u :: ts⟩
        ⟨ps ++ [⟨some (.other ("package " ++ name)), [t, u]⟩], none, none, ts⟩
  | skipped {ps : List Piece} {l : Option Nat} {t : Token} {us ts : List Token} :
      Node.beginsSkipped t.kind = true → (afterDeclaration t.line 0 (us ++ ts)).rest = ts →
      Step ⟨ps, none, l, t :: (us ++ ts)⟩ ⟨ps ++ [⟨some (.other t.lexeme), t :: us⟩], none, none, ts⟩
  | opening {ps : List Piece} {l : Option Nat} {t u : Token} {ts : List Token} :
      t.kind = .keyword .type → u.kind = .opening .round →
      Step ⟨ps, none, l, t :: u :: ts⟩ ⟨ps, some (t, u), some t.line, ts⟩
  | closing {ps : List Piece} {l : Option Nat} {t u v : Token} {ts : List Token} :
      v.kind = .closing .round →
      Step ⟨ps, some (t, u), l, v :: ts⟩ ⟨ps ++ [⟨none, [t, u, v]⟩], none, none, ts⟩
  | single {ps : List Piece} {l : Option Nat} {t : Token} {us : List Token} {node : Node}
      {c : Cursor} :
      t.kind = .keyword .type → Decl.ReadsSpec t.line (us ++ c.rest) node c →
      Step ⟨ps, none, l, t :: (us ++ c.rest)⟩ ⟨ps ++ [⟨some node, t :: us⟩], none, none, c.rest⟩
  | spec {ps : List Piece} {g : Token × Token} {l : Option Nat} {t : Token} {us : List Token}
      {node : Node} {c : Cursor} :
      Decl.ReadsSpec (l.getD t.line) (t :: (us ++ c.rest)) node c →
      Step ⟨ps, some g, l, t :: (us ++ c.rest)⟩ ⟨ps ++ [⟨some node, t :: us⟩], some g, none, c.rest⟩

/-- Steps that follow one another. -/
inductive Run : Place → Place → Prop where
  | refl {p : Place} : Run p p
  | step {p q r : Place} : Step p q → Run q r → Run p r

/-- The nodes behind a place. -/
def Reads (p : Place) (nodes : List Node) : Prop :=
  match p.group with
  | none => Node.ReadsAll p.rest nodes
  | some _ => ∃ inner c more, Decl.ReadsGroup p.line p.rest inner c ∧ Node.ReadsAll c.rest more ∧
      nodes = inner ++ more

variable {p q r : Place} {nodes : List Node}

theorem Run.trans (h : Run p q) (h' : Run q r) : Run p r := by
  induction h with
  | refl => exact h'
  | step hstep _ ih => exact .step hstep (ih h')

/-- What one step preserves a run preserves. -/
theorem Run.preserves {P : Place → Prop} (hstep : ∀ {p q}, Step p q → P p → P q) (h : Run p q)
    (hp : P p) : P q := by
  induction h with
  | refl => exact hp
  | step hs _ ih => exact ih (hstep hs hp)

theorem nodes_append (ps : List Piece) (piece : Piece) (g : Option (Token × Token))
    (l : Option Nat) (ts : List Token) :
    (Place.mk (ps ++ [piece]) g l ts).nodes = ps.filterMap Piece.node? ++ piece.node?.toList := by
  cases hnode : piece.node? <;> simp [Place.nodes, hnode]

/-- The nodes behind a place are those of the next step, and those behind it. -/
theorem reads_of_step (h : Step p q) (hq : q.Reads nodes) :
    ∃ added, q.nodes = p.nodes ++ added ∧ p.Reads (added ++ nodes) := by
  cases h with
  | @semicolon _ g _ t _ ht =>
      refine ⟨[], nodes_append .., ?_⟩
      cases g with
      | none => exact .semicolon ht hq
      | some g =>
          obtain ⟨inner, c, more, hinner, hmore, rfl⟩ := hq
          exact ⟨inner, c, more, .semicolon ht hinner, hmore, rfl⟩
  | @comment _ g _ t _ text ht =>
      refine ⟨[.comment ⟨text, t.line⟩], nodes_append .., ?_⟩
      cases g with
      | none => exact .comment ht hq
      | some g =>
          obtain ⟨inner, c, more, hinner, hmore, rfl⟩ := hq
          exact ⟨_, c, more, .comment ht hinner, hmore, rfl⟩
  | package ht hu => exact ⟨_, nodes_append .., .package ht hu hq⟩
  | skipped ht hts => exact ⟨_, nodes_append .., .skipped ht (hts.symm ▸ hq)⟩
  | opening ht hu =>
      obtain ⟨inner, c, more, hinner, hmore, rfl⟩ := hq
      have hreads := Node.ReadsAll.type ht (.group hu hinner) hmore
      exact ⟨[], (List.append_nil _).symm, hreads⟩
  | closing hv => exact ⟨[], nodes_append .., [], _, nodes, .close hv, hq, rfl⟩
  | single ht hs => exact ⟨_, nodes_append .., .type ht (.single hs) hq⟩
  | spec hs =>
      obtain ⟨inner, c, more, hinner, hmore, rfl⟩ := hq
      exact ⟨_, nodes_append .., _, c, more, .spec hs hinner, hmore, rfl⟩

theorem reads_of_run (h : Run p q) (hq : q.IsEnd) :
    ∃ added, q.nodes = p.nodes ++ added ∧ p.Reads added := by
  induction h with
  | @refl p =>
      rcases p with ⟨ps, g, l, ts⟩
      obtain ⟨rfl, rfl⟩ := hq
      exact ⟨[], (List.append_nil _).symm, .nil⟩
  | step hstep _ ih =>
      obtain ⟨more, hmore, hreads⟩ := ih hq
      obtain ⟨added, hadded, hreads⟩ := reads_of_step hstep hreads
      exact ⟨added ++ more, by rw [hmore, hadded, List.append_assoc], hreads⟩

theorem suffix_tail {t : Token} {ts us : List Token} (h : us <:+ t :: ts)
    (hlength : us.length < (t :: ts).length) : us <:+ ts := by
  rcases List.suffix_cons_iff.mp h with rfl | h
  · exact absurd hlength (Nat.lt_irrefl _)
  · exact h

theorem run_of_readsGroup {g : Token × Token} {l : Option Nat} {ts : List Token} {c : Cursor}
    (h : Decl.ReadsGroup l ts nodes c) (ps : List Piece) :
    ∃ qs, Run ⟨ps, some g, l, ts⟩ ⟨qs, none, none, c.rest⟩ ∧
      qs.filterMap Piece.node? = ps.filterMap Piece.node? ++ nodes := by
  induction h generalizing ps with
  | semicolon ht _ ih =>
      obtain ⟨qs, hrun, hqs⟩ := ih (ps ++ [⟨none, [_]⟩])
      exact ⟨qs, .step (.semicolon ht) hrun, by simpa using hqs⟩
  | @comment _ t _ text _ _ ht _ ih =>
      obtain ⟨qs, hrun, hqs⟩ := ih (ps ++ [⟨some (.comment ⟨text, t.line⟩), [t]⟩])
      exact ⟨qs, .step (.comment ht) hrun, by simpa using hqs⟩
  | close ht => exact ⟨_, .step (.closing ht) .refl, by simp⟩
  | @spec _ t ts node _ c _ hs _ ih =>
      obtain ⟨us, rfl⟩ := suffix_tail (Decl.suffix_of_readsSpec hs) (Decl.length_of_readsSpec hs)
      obtain ⟨qs, hrun, hqs⟩ := ih (ps ++ [⟨some node, t :: us⟩])
      exact ⟨qs, .step (.spec hs) hrun, by simpa using hqs⟩

theorem run_of_readsAll {ts : List Token} (h : Node.ReadsAll ts nodes) (ps : List Piece)
    (l : Option Nat) :
    ∃ q, Run ⟨ps, none, l, ts⟩ q ∧ q.IsEnd ∧ q.nodes = ps.filterMap Piece.node? ++ nodes := by
  induction h generalizing ps l with
  | nil => exact ⟨_, .refl, ⟨rfl, rfl⟩, (List.append_nil _).symm⟩
  | @semicolon t _ _ ht _ ih =>
      obtain ⟨q, hrun, hend, hq⟩ := ih (ps ++ [⟨none, [t]⟩]) l
      exact ⟨q, .step (.semicolon ht) hrun, hend, by simpa using hq⟩
  | @comment t _ text _ ht _ ih =>
      obtain ⟨q, hrun, hend, hq⟩ := ih (ps ++ [⟨some (.comment ⟨text, t.line⟩), [t]⟩]) none
      exact ⟨q, .step (.comment ht) hrun, hend, by simpa using hq⟩
  | @package t u _ name _ ht hu _ ih =>
      obtain ⟨q, hrun, hend, hq⟩ := ih (ps ++ [⟨some (.other ("package " ++ name)), [t, u]⟩]) none
      exact ⟨q, .step (.package ht hu) hrun, hend, by simpa using hq⟩
  | @type t _ nodes _ c ht hd _ ih =>
      cases hd with
      | group hu hg =>
          obtain ⟨qs, hgroup, hqs⟩ := run_of_readsGroup hg ps
          obtain ⟨q, hrun, hend, hq⟩ := ih qs none
          refine ⟨q, .step (.opening ht hu) (hgroup.trans hrun), hend, ?_⟩
          rw [hq, hqs, List.append_assoc]
      | @single ts node _ hs =>
          obtain ⟨us, rfl⟩ := Decl.suffix_of_readsSpec hs
          obtain ⟨q, hrun, hend, hq⟩ := ih (ps ++ [⟨some node, t :: us⟩]) none
          exact ⟨q, .step (.single ht hs) hrun, hend, by simpa using hq⟩
  | @skipped t ts _ ht _ ih =>
      obtain ⟨us, hus⟩ := suffix_afterDeclaration t.line 0 ts
      obtain ⟨q, hrun, hend, hq⟩ := ih (ps ++ [⟨some (.other t.lexeme), t :: us⟩]) none
      generalize hrest : (afterDeclaration t.line 0 ts).rest = vs at hus hrun
      subst hus
      exact ⟨q, .step (.skipped ht hrest) hrun, hend, by simpa using hq⟩

/-- A source text is read exactly if steps lead to its end. -/
theorem readsAll_iff_run {ts : List Token} :
    Node.ReadsAll ts nodes ↔ ∃ q, Run (start ts) q ∧ q.IsEnd ∧ q.nodes = nodes := by
  constructor
  · exact fun h => run_of_readsAll h [] none
  · rintro ⟨q, hrun, hend, rfl⟩
    obtain ⟨added, hadded, hreads⟩ := reads_of_run hrun hend
    rw [hadded]
    exact hreads

end Place

end DeclBridge
