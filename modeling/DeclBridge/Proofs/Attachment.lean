import DeclBridge.Proofs.Grammar.Outline
import DeclBridge.Proofs.PendingDoc
import DeclBridge.Proofs.Scan.Layout

/-!
Which lines the comments in front of a declaration share with what stands before them. A declaration
takes a comment behind it on its line, so that only other code leaves one to the next declaration.
-/

namespace DeclBridge

open Cursor
open Token (Precedes)

/-- The token lies on the line, among others. -/
def Token.Covers (t : Token) (line : Nat) : Prop :=
  t.line ≤ line ∧ line ≤ t.lastLine

def Decl.trailing? : Decl → Option Comment
  | .record r => r.trailing
  | .alias a => a.trailing

/-- Whether the piece is a type declaration that took no comment behind it. -/
def Piece.isBare (piece : Piece) : Bool :=
  match piece.node? with
  | some (.decl d) => d.trailing?.isNone
  | _ => false

/-- Some of the pieces has a written token on the line. -/
def Shares (ps : List Piece) (line : Nat) : Prop :=
  ∃ piece ∈ ps, ∃ t ∈ piece.tokens, t.isWritten = true ∧ t.Covers line

/-- Nothing between a declaration that ends on the line and the tokens can be a comment on the line:
they begin below it, or with what a comment behind the declaration cannot jump over. -/
def Parted (line : Nat) (ts : List Token) : Prop :=
  (∀ u ∈ Decl.dropLineEnd ts, line < u.line) ∨
    ∃ u us, ts = u :: us ∧ (u.kind = .semicolon ∨ u.kind = .closing .round) ∧ u.isLineEnd = false

theorem Parted.mono {line line' : Nat} {ts : List Token} (h : Parted line ts)
    (hline : line' ≤ line) : Parted line' ts :=
  h.imp_left fun h u hu => Nat.lt_of_le_of_lt hline (h u hu)

theorem parted_of_lt {line : Nat} {ts : List Token} (h : ∀ u ∈ ts, line < u.line) :
    Parted line ts :=
  .inl fun u hu => h u ((Decl.suffix_dropLineEnd ts).subset hu)

namespace Decl

theorem lt_line_of_head {line : Nat} {t : Token} {ts : List Token}
    (h : (t :: ts).Pairwise Precedes) (ht : line < t.line) : ∀ u ∈ t :: ts, line < u.line := by
  intro u hu
  rcases List.mem_cons.mp hu with rfl | hu
  · exact ht
  · exact Nat.lt_of_lt_of_le ht ((List.pairwise_cons.mp h).1 u hu).line

/-- No comment follows a declaration on its line if it took none. -/
theorem parted_of_trailing {c : Cursor} (h : (trailing c).1 = none)
    (hend : c.rest.head?.all (endsDecl ·.kind) = true) (hrest : c.rest.Pairwise Precedes)
    (hline : ∀ u ∈ c.rest, c.line ≤ u.line) : Parted c.line c.rest := by
  have hcomment : commentOn? c.line (dropLineEnd c.rest) = none := by
    unfold trailing at h
    split at h
    · cases h
    · assumption
  have hbelow : ∀ u us text, dropLineEnd c.rest = u :: us → u.kind = .comment text →
      c.line < u.line := by
    intro u us text hu hkind
    refine Nat.lt_of_le_of_ne (hline u ((suffix_dropLineEnd c.rest).subset (by simp [hu]))) ?_
    intro heq
    rw [commentOn?_eq_some.mpr ⟨u, us, text, hu, hkind, heq.symm, rfl, rfl⟩] at hcomment
    cases hcomment
  rcases hts : c.rest with _ | ⟨t, ts⟩
  · exact .inl (by simp [dropLineEnd])
  · rw [hts] at hend hrest hline hbelow
    rw [List.head?_cons, Option.all_some] at hend
    -- If the line ends here, all that follows is below it; else a comment or a written token is next.
    by_cases ht : t.isLineEnd = true
    · left
      rw [dropLineEnd, if_pos ht] at hbelow ⊢
      cases ts with
      | nil => simp
      | cons u us =>
          refine lt_line_of_head hrest.tail ?_
          rcases ((List.pairwise_cons.mp hrest).1 u (by simp)).lineEnd ht with hu | hu
          · obtain ⟨text, hu⟩ : ∃ text, u.kind = .comment text := by
              cases hkind : u.kind <;> simp_all [Token.Kind.isComment]
            exact hbelow u us text rfl hu
          · exact Nat.lt_of_le_of_lt (hline t (by simp)) hu
    · rw [dropLineEnd, if_neg ht] at hbelow
      cases hkind : t.kind with
      | comment text =>
          left
          rw [dropLineEnd, if_neg ht]
          exact lt_line_of_head hrest (hbelow t ts text rfl hkind)
      | semicolon => exact .inr ⟨t, ts, rfl, .inl hkind, eq_false_of_ne_true ht⟩
      | closing bracket =>
          have hround : bracket = .round := by
            cases bracket <;> simp_all [endsDecl]
          exact .inr ⟨t, ts, rfl, .inr (hround ▸ hkind), eq_false_of_ne_true ht⟩
      | _ => simp [hkind, endsDecl] at hend

/-- A declaration without a comment behind it ends with a token behind which it is parted from
comments. -/
theorem parted_of_readsSpec {line : Nat} {us : List Token} {d : Decl} {c : Cursor}
    (h : ReadsSpec line (us ++ c.rest) (.decl d) c) (hd : d.trailing? = none)
    (hts : (us ++ c.rest).Pairwise Precedes)
    (hflat : ∀ t ∈ us, t.kind.endsType = true → t.lastLine = t.line) :
    ∃ before last, us = before ++ [last] ∧ last.lastLine = last.line ∧ Parted last.line c.rest := by
  generalize hall : us ++ c.rest = all at h hts
  generalize hnode : Node.decl d = node at h
  cases h with
  | generic => cases hnode
  | @decl t ts name d' e ht hgeneric hb hend =>
      cases hnode
      have htrailing : (trailing e).1 = none := by cases d' <;> exact hd
      have hplace : (trailing e).2 = e := by
        unfold trailing at htrailing ⊢
        split at htrailing
        · cases htrailing
        · rfl
      rw [hplace] at hall ⊢
      obtain ⟨taken, last, hbody, hlast, hkind⟩ := behind_of_readsBody hb
      obtain ⟨before, hbefore⟩ := (suffix_dropAssign ts).trans (List.suffix_cons t ts)
      have hsplit : us ++ e.rest = before ++ (taken ++ [last]) ++ e.rest := by
        rw [hall, ← hbefore, hbody]
        simp
      have hus := List.append_cancel_right hsplit
      rw [← List.append_assoc] at hus
      rw [← hall, hus, List.pairwise_append] at hts
      refine ⟨before ++ taken, last, hus, hflat last (by simp [hus]) hkind, ?_⟩
      rw [hlast]
      refine parted_of_trailing htrailing hend hts.2.1 (fun u hu => ?_)
      rw [← hlast]
      exact (hts.2.2 last (by simp) u hu).line

theorem behind_of_readsSpec {line : Nat} {ts : List Token} {node : Node} {c : Cursor}
    (h : ReadsSpec line ts node c) (b : PendingDoc) : b.behind [node] = .idle := by
  cases h <;> rfl

end Decl

namespace Place

variable {p q : Place}

/-- The tokens before and behind a place are in the order of their lines, and what a type expression
may end with is on one line. -/
structure Ordered (p : Place) : Prop where
  rest : p.rest.Pairwise Precedes
  taken : ∀ t ∈ p.taken, ∀ u ∈ p.rest, Precedes t u
  flat : ∀ t ∈ p.rest, t.kind.endsType = true → t.lastLine = t.line

theorem tokens_of_step (h : Step p q) :
    ∃ t us, p.rest = t :: us ++ q.rest ∧ ∀ u ∈ q.taken, u ∈ p.taken ∨ u ∈ t :: us := by
  cases h with
  | @semicolon _ _ _ t | @comment _ _ _ t => exact ⟨t, [], rfl, by grind [taken]⟩
  | @package _ _ t u | @opening _ _ t u => exact ⟨t, [u], rfl, by grind [taken]⟩
  | @closing _ _ _ _ v => exact ⟨v, [], rfl, by grind [taken]⟩
  | @skipped _ _ t us | @single _ _ t us | @spec _ _ _ t us =>
      exact ⟨t, us, rfl, by grind [taken]⟩

theorem ordered_of_step (h : Step p q) (hp : p.Ordered) : q.Ordered := by
  obtain ⟨t, us, hrest, htaken⟩ := tokens_of_step h
  have hpairwise := hp.rest
  have htaken' := hp.taken
  have hflat := hp.flat
  rw [hrest] at hpairwise htaken' hflat
  obtain ⟨-, hq, hbefore⟩ := List.pairwise_append.mp hpairwise
  refine ⟨hq, ?_, fun u hu => hflat u (List.mem_append_right _ hu)⟩
  intro u hu v hv
  rcases htaken u hu with hu | hu
  · exact htaken' u hu v (List.mem_append_right _ hv)
  · exact hbefore u hu v hv

/-- What a declaration is parted from stays behind it, or code stands in between that a step reads
as something else. -/
theorem parted_of_step (h : Step p q) {line : Nat} (hparted : Parted line p.rest) :
    Parted line q.rest ∨ ∃ piece ∈ q.pieces, piece.isBare = false ∧
      ∃ t ∈ piece.tokens, t ∈ p.rest ∧ t.isWritten = true := by
  rcases hparted with hbelow | ⟨w, ws, hrest, hkind, hwritten⟩
  · obtain ⟨t, us, hrest, -⟩ := tokens_of_step h
    refine .inl (parted_of_lt fun u hu => hbelow u ?_)
    rw [hrest, List.cons_append, Decl.dropLineEnd]
    split <;> simp [hu]
  · cases h with
    | @semicolon ps _ _ t ts ht =>
        cases hrest
        exact .inr ⟨⟨none, [w]⟩, by simp, rfl, w, by simp, by simp,
          by simp [Token.isWritten, ht, hwritten, Token.Kind.isComment]⟩
    | @closing ps _ t u v ts hv =>
        cases hrest
        exact .inr ⟨⟨none, [t, u, w]⟩, by simp, rfl, w, by simp, by simp,
          by simp [Token.isWritten, hv, hwritten, Token.Kind.isComment]⟩
    | skipped ht =>
        cases hrest
        rcases hkind with hkind | hkind <;> simp [hkind, Node.beginsSkipped] at ht
    | spec hs =>
        cases hrest
        obtain ⟨t, us, name, hts, ht⟩ := Decl.head_of_readsSpec hs
        cases hts
        rcases hkind with hkind | hkind <;> simp [hkind] at ht
    | comment ht | package ht | opening ht | single ht =>
        cases hrest
        rcases hkind with hkind | hkind <;> simp [hkind] at ht

theorem mem_or_of_append {ps : List Piece} {piece : Piece} {P : Piece → Prop} (h : P piece) :
    ∀ other ∈ ps ++ [piece], other ∈ ps ∨ P other := by
  intro other hother
  rcases List.mem_append.mp hother with hother | hother
  · exact .inl hother
  · cases List.mem_singleton.mp hother
    exact .inr h

theorem parted_of_mem {before ts : List Token} {last t : Token}
    (hpairwise : (before ++ [last] ++ ts).Pairwise Precedes) (hlast : last.lastLine = last.line)
    (hparted : Parted last.line ts) (ht : t ∈ before ++ [last]) (hwritten : t.isWritten = true) :
    Parted t.lastLine ts := by
  refine hparted.mono ?_
  rcases List.mem_append.mp ht with ht | ht
  · have hline := (List.pairwise_append.mp (List.pairwise_append.mp hpairwise).1).2.2 t ht last
      (by simp)
    simp only [Token.isWritten, Bool.and_eq_true, Bool.not_eq_true'] at hwritten
    exact hline.lastLine hwritten.2
  · cases List.mem_singleton.mp ht
    exact Nat.le_of_eq hlast

/-- Behind a declaration that took no comment its tokens are parted from comments. -/
theorem parted_of_isBare (h : Step p q) (hp : p.Ordered) {piece : Piece} (hpiece : piece ∈ q.pieces)
    (hnew : piece ∉ p.pieces) (hbare : piece.isBare = true) :
    ∀ t ∈ piece.tokens, t.isWritten = true → Parted t.lastLine q.rest := by
  intro u hu hwritten
  cases h with
  | semicolon | comment | package | skipped | opening | closing =>
      exfalso
      simp_all [Piece.isBare]
  | @single ps l t us node c ht hs =>
      rcases mem_or_of_append (P := (· = ⟨some node, t :: us⟩)) rfl piece hpiece with hold | rfl
      · exact absurd hold hnew
      · obtain ⟨d, rfl, hd⟩ : ∃ d, node = .decl d ∧ d.trailing? = none := by
          cases node <;> simp_all [Piece.isBare]
        have hpairwise := hp.rest
        obtain ⟨before, last, rfl, hlast, hparted⟩ := Decl.parted_of_readsSpec hs hd hpairwise.tail
          (fun v hv => hp.flat v (by simp [hv]))
        rw [← List.cons_append] at hpairwise hu
        exact parted_of_mem hpairwise hlast hparted hu hwritten
  | @spec ps g l t us node c hs =>
      rcases mem_or_of_append (P := (· = ⟨some node, t :: us⟩)) rfl piece hpiece with hold | rfl
      · exact absurd hold hnew
      · obtain ⟨d, rfl, hd⟩ : ∃ d, node = .decl d ∧ d.trailing? = none := by
          cases node <;> simp_all [Piece.isBare]
        have hpairwise := hp.rest
        have hflat : ∀ v ∈ t :: us, v.kind.endsType = true → v.lastLine = v.line :=
          fun v hv => hp.flat v (List.mem_append_left c.rest hv)
        obtain ⟨before, last, hus, hlast, hparted⟩ :=
          Decl.parted_of_readsSpec hs hd hpairwise hflat
        rw [← List.cons_append, hus] at hpairwise
        exact parted_of_mem hpairwise hlast hparted (hus ▸ hu) hwritten

/-- A comment that waits behind a step waited before, and the step reads no declaration without a
comment behind it, or it is the piece that the step reads. -/
theorem pending_of_step (h : Step p q) {c : Comment}
    (hc : c ∈ (PendingDoc.behind .idle q.nodes).pending) :
    (c ∈ (PendingDoc.behind .idle p.nodes).pending ∧
        ∀ piece ∈ q.pieces, piece ∈ p.pieces ∨ piece.isBare = false) ∨
      ∃ t us, p.rest = t :: us ∧ t.kind.isComment = true ∧ c.line = t.line ∧
        ∀ piece ∈ q.pieces, piece ∈ p.pieces ∨ piece.tokens = [t] := by
  cases h with
  | semicolon | closing =>
      rw [nodes_append, PendingDoc.behind_append] at hc
      exact .inl ⟨hc, mem_or_of_append rfl⟩
  | opening => exact .inl ⟨hc, fun piece hpiece => .inl hpiece⟩
  | @comment _ _ _ t ts text ht =>
      rw [nodes_append, PendingDoc.behind_append] at hc
      rcases PendingDoc.mem_pending_push hc with hc | rfl
      · exact .inl ⟨hc, mem_or_of_append rfl⟩
      · exact .inr ⟨t, ts, rfl, by simp [ht, Token.Kind.isComment], rfl, mem_or_of_append rfl⟩
  | package | skipped =>
      rw [nodes_append, PendingDoc.behind_append] at hc
      simp [PendingDoc.behind, PendingDoc.pending] at hc
  | single _ hs | spec hs =>
      rw [nodes_append, PendingDoc.behind_append, Option.toList_some,
        Decl.behind_of_readsSpec hs] at hc
      simp [PendingDoc.pending] at hc

/-- The pieces before a place that are no declarations without a comment behind them. -/
def others (p : Place) : List Piece :=
  p.pieces.filter (!·.isBare)

/-- A comment that waits shares its line with other code if it shares it with a declaration that took
no comment, and such a declaration is parted from the comments to come. -/
structure Sheltered (p : Place) : Prop where
  ordered : p.Ordered
  bare : ∀ piece ∈ p.pieces, piece.isBare = true → ∀ t ∈ piece.tokens, t.isWritten = true →
    Parted t.lastLine p.rest ∨
      ∃ other ∈ p.others, ∃ u ∈ other.tokens, u.isWritten = true ∧ t.lastLine ≤ u.line
  pending : ∀ c ∈ (PendingDoc.behind .idle p.nodes).pending,
    Shares p.pieces c.line → Shares p.others c.line

theorem mem_others {piece : Piece} :
    piece ∈ p.others ↔ piece ∈ p.pieces ∧ piece.isBare = false := by
  simp [others]

theorem mem_taken {piece : Piece} {t : Token} (hpiece : piece ∈ p.pieces) (ht : t ∈ piece.tokens) :
    t ∈ p.taken :=
  List.mem_append_left _ (List.mem_flatMap.mpr ⟨piece, hpiece, ht⟩)

theorem pieces_of_step (h : Step p q) {piece : Piece} (hpiece : piece ∈ p.pieces) :
    piece ∈ q.pieces := by
  cases h <;> simp_all

theorem shares_others_of_step (h : Step p q) {line : Nat} (hline : Shares p.others line) :
    Shares q.others line := by
  obtain ⟨piece, hpiece, hshared⟩ := hline
  obtain ⟨hpiece, hbare⟩ := mem_others.mp hpiece
  exact ⟨piece, mem_others.mpr ⟨pieces_of_step h hpiece, hbare⟩, hshared⟩

theorem lastLine_le_of_rest (hp : p.Ordered) {t u : Token} (ht : t ∈ p.taken)
    (hwritten : t.isWritten = true) (hu : u ∈ p.rest) : t.lastLine ≤ u.line := by
  simp only [Token.isWritten, Bool.and_eq_true, Bool.not_eq_true'] at hwritten
  exact (hp.taken t ht u hu).lastLine hwritten.2

theorem not_parted_of_comment {line : Nat} {u : Token} {us : List Token}
    (hu : u.kind.isComment = true) (hline : u.line ≤ line) : ¬ Parted line (u :: us) := by
  rintro (hbelow | ⟨v, vs, hvs, hkind, -⟩)
  · have hnot : u.isLineEnd = false := by
      cases hkind : u.kind <;> simp_all [Token.Kind.isComment, Token.isLineEnd]
    rw [Decl.dropLineEnd, hnot] at hbelow
    exact Nat.not_lt_of_le hline (hbelow u (by simp))
  · cases hvs
    rcases hkind with hkind | hkind <;> simp [hkind, Token.Kind.isComment] at hu

theorem bare_of_step (h : Step p q) (hp : p.Sheltered) {piece : Piece} (hpiece : piece ∈ q.pieces)
    (hbare : piece.isBare = true) {t : Token} (ht : t ∈ piece.tokens) (hwritten : t.isWritten = true) :
    Parted t.lastLine q.rest ∨
      ∃ other ∈ q.others, ∃ u ∈ other.tokens, u.isWritten = true ∧ t.lastLine ≤ u.line := by
  by_cases hold : piece ∈ p.pieces
  · rcases hp.bare piece hold hbare t ht hwritten with hparted | ⟨other, hother, hline⟩
    · rcases parted_of_step h hparted with hparted | ⟨other, hother, hbare, u, hu, hrest, huwritten⟩
      · exact .inl hparted
      · have hline := lastLine_le_of_rest hp.ordered (mem_taken hold ht) hwritten hrest
        exact .inr ⟨other, mem_others.mpr ⟨hother, hbare⟩, u, hu, huwritten, hline⟩
    · obtain ⟨hother, hbare⟩ := mem_others.mp hother
      exact .inr ⟨other, mem_others.mpr ⟨pieces_of_step h hother, hbare⟩, hline⟩
  · exact .inl (parted_of_isBare h hp.ordered hpiece hold hbare t ht hwritten)

/-- A comment that the next step reads shares its line with other code if it shares it at all. -/
theorem shares_others_of_comment (hp : p.Sheltered) {u : Token} {us : List Token}
    (hrest : p.rest = u :: us) (hu : u.kind.isComment = true) (hshares : Shares p.pieces u.line) :
    Shares p.others u.line := by
  obtain ⟨piece, hpiece, t, ht, hwritten, hcovers⟩ := hshares
  cases hbare : piece.isBare with
  | false => exact ⟨piece, mem_others.mpr ⟨hpiece, hbare⟩, t, ht, hwritten, hcovers⟩
  | true =>
      rcases hp.bare piece hpiece hbare t ht hwritten with
        hparted | ⟨other, hother, w, hw, hwwritten, hline⟩
      · rw [hrest] at hparted
        exact absurd hparted (not_parted_of_comment hu hcovers.2)
      · have hwtaken := mem_taken (mem_others.mp hother).1 hw
        refine ⟨other, hother, w, hw, hwwritten, ?_, ?_⟩
        · exact (hp.ordered.taken w hwtaken u (by simp [hrest])).line
        · exact Nat.le_trans hcovers.2 (Nat.le_trans hline w.line_le_lastLine)

theorem pending_of_sheltered (h : Step p q) (hp : p.Sheltered) {c : Comment}
    (hc : c ∈ (PendingDoc.behind .idle q.nodes).pending) (hshares : Shares q.pieces c.line) :
    Shares q.others c.line := by
  obtain ⟨piece, hpiece, t, ht, hwritten, hcovers⟩ := hshares
  rcases pending_of_step h hc with ⟨hc, hpieces⟩ | ⟨u, us, hrest, hu, hline, hpieces⟩
  · rcases hpieces piece hpiece with hold | hbare
    · exact shares_others_of_step h (hp.pending c hc ⟨piece, hold, t, ht, hwritten, hcovers⟩)
    · exact ⟨piece, mem_others.mpr ⟨hpiece, hbare⟩, t, ht, hwritten, hcovers⟩
  · rcases hpieces piece hpiece with hold | htokens
    · rw [hline] at hcovers ⊢
      exact shares_others_of_step h
        (shares_others_of_comment hp hrest hu ⟨piece, hold, t, ht, hwritten, hcovers⟩)
    · rw [htokens, List.mem_singleton] at ht
      simp [Token.isWritten, ht, hu] at hwritten

theorem sheltered_of_step (h : Step p q) (hp : p.Sheltered) : q.Sheltered :=
  ⟨ordered_of_step h hp.ordered,
    fun _ hpiece hbare _ ht hwritten => bare_of_step h hp hpiece hbare ht hwritten,
    fun _ hc hshares => pending_of_sheltered h hp hc hshares⟩

theorem sheltered_of_run {source : String} {s : Scanned} (h : Scanned.ofSource source = .ok s)
    (hrun : Run (start s.tokens) p) : p.Sheltered := by
  refine hrun.preserves (P := Sheltered) sheltered_of_step ⟨⟨?_, ?_, ?_⟩, ?_, ?_⟩
  · exact Scanned.pairwise_ofSource h
  · simp [start, taken]
  · exact fun t ht hkind => Scanned.lastLine_of_ofSource h ht hkind
  · simp [start]
  · simp [start, nodes, PendingDoc.behind, PendingDoc.pending]

/-- The comment is in the block in front of the declaration that the next step reads. -/
def Documents (p : Place) (c : Comment) (d : Decl) : Prop :=
  ∃ q us, Step p q ∧ q.pieces = p.pieces ++ [⟨some (.decl d), us⟩] ∧
    c ∈ ((PendingDoc.behind .idle p.nodes).takeFor d.line).1

theorem nodes_of_step (h : Step p q) :
    q.nodes = p.nodes ∨ ∃ node us, q.pieces = p.pieces ++ [⟨some node, us⟩] := by
  cases h with
  | semicolon | closing => exact .inl ((nodes_append ..).trans (List.append_nil _))
  | opening => exact .inl rfl
  | comment | package | skipped | single | spec => exact .inr ⟨_, _, rfl⟩

theorem prefix_of_run (h : Run p q) : p.nodes <+: q.nodes := by
  induction h with
  | refl => exact List.prefix_rfl
  | @step p r q hstep _ ih =>
      refine List.IsPrefix.trans ?_ ih
      rcases nodes_of_step hstep with hr | ⟨node, us, hr⟩
      · exact hr ▸ List.prefix_rfl
      · exact ⟨[node], by simp [nodes, hr]⟩

/-- Every node of a run is read in one of its steps. -/
theorem step_of_run {before after : List Node} {node : Node} (h : Run p q)
    (hq : q.nodes = p.nodes ++ before ++ node :: after) :
    ∃ p' q' us, Run p p' ∧ Step p' q' ∧ p'.nodes = p.nodes ++ before ∧
      q'.pieces = p'.pieces ++ [⟨some node, us⟩] := by
  induction h generalizing before with
  | refl => simp at hq
  | @step p r q hstep hrun ih =>
      rcases nodes_of_step hstep with hr | ⟨first, us, hr⟩
      · rw [← hr] at hq
        obtain ⟨p', q', us, hrun', hstep', hp', hq'⟩ := ih hq
        exact ⟨p', q', us, .step hstep hrun', hstep', hr ▸ hp', hq'⟩
      · have hr' : r.nodes = p.nodes ++ [first] := by simp [nodes, hr]
        have hfirst := prefix_of_run hrun
        rw [hr', hq, List.append_assoc, List.prefix_append_right_inj] at hfirst
        cases before with
        | nil =>
            obtain ⟨rfl, -⟩ := List.cons_prefix_cons.mp hfirst
            exact ⟨p, r, us, .refl, hstep, by simp, hr⟩
        | cons other before =>
            obtain ⟨rfl, -⟩ := List.cons_prefix_cons.mp hfirst
            have hrest : q.nodes = r.nodes ++ before ++ node :: after := by rw [hq, hr']; simp
            obtain ⟨p', q', us, hrun', hstep', hp', hq'⟩ := ih hrest
            exact ⟨p', q', us, .step hstep hrun', hstep', by rw [hp', hr']; simp, hq'⟩

theorem documents_of_run {before after : List Node} {c : Comment} {d : Decl} (h : Run p q)
    (hp : p.nodes = []) (hq : q.nodes = before ++ .decl d :: after)
    (hc : c ∈ ((PendingDoc.behind .idle before).takeFor d.line).1) :
    ∃ p', Run p p' ∧ p'.nodes = before ∧ p'.Documents c d := by
  have hall : q.nodes = p.nodes ++ before ++ .decl d :: after := by rw [hp, hq]; rfl
  obtain ⟨p', q', us, hrun, hstep, hp', hq'⟩ := step_of_run h hall
  rw [hp, List.nil_append] at hp'
  exact ⟨p', hrun, hp', q', us, hstep, hq', hp' ▸ hc⟩

end Place

namespace Node

open Place

/-- No comment in front of a declaration begins on a line on which a written token of what stands
before the declaration lies. -/
def KeepsComments (source : String) : Prop :=
  ∀ s p c d, Scanned.ofSource source = .ok s → Run (start s.tokens) p → p.Documents c d →
    ¬ Shares p.pieces c.line

/-- The comments that the items of a source text are given are those that are in front of their
declarations at a place of a run. -/
theorem documents_of_ofSource {source : String} {before after : List Node} {c : Comment} {d : Decl}
    (h : ofSource source = .ok (before ++ .decl d :: after))
    (hc : c ∈ ((PendingDoc.behind .idle before).takeFor d.line).1) :
    ∃ s p, Scanned.ofSource source = .ok s ∧ Run (start s.tokens) p ∧ p.nodes = before ∧
      p.Documents c d := by
  obtain ⟨s, hs, hnodes⟩ := bind_eq_ok.mp h
  obtain ⟨q, hrun, -, hq⟩ := readsAll_iff_run.mp (readAll_eq_ok.mp hnodes)
  obtain ⟨p, hp, hbefore, hdoc⟩ := documents_of_run hrun rfl hq hc
  exact ⟨s, p, hs, hp, hbefore, hdoc⟩

/-- A declaration never passes on a comment on its line if it took none: the comments in front of
declarations are kept from what stands before exactly if they are kept from everything else. -/
theorem keepsComments_iff (source : String) :
    KeepsComments source ↔
      ∀ s p c d, Scanned.ofSource source = .ok s → Run (start s.tokens) p → p.Documents c d →
        ¬ Shares p.others c.line := by
  constructor
  · rintro h s p c d hs hrun hdoc ⟨piece, hpiece, hshares⟩
    exact h s p c d hs hrun hdoc ⟨piece, (mem_others.mp hpiece).1, hshares⟩
  · intro h s p c d hs hrun hdoc hshares
    have hpending : c ∈ (PendingDoc.behind .idle p.nodes).pending := by
      obtain ⟨q, us, -, -, hc⟩ := hdoc
      exact PendingDoc.mem_pending_reaching hc
    exact h s p c d hs hrun hdoc ((sheltered_of_run hs hrun).pending c hpending hshares)

/-- The tokens of a constant. -/
def constant : List Token :=
  [⟨.keyword .const, "const", ⟨1, 1⟩⟩, ⟨.identifier "X", "X", ⟨1, 7⟩⟩, ⟨.assign, "=", ⟨1, 9⟩⟩,
    ⟨.int "1", "1", ⟨1, 11⟩⟩, .lineEnd ⟨1, 13⟩]

/-- A note behind the constant. -/
def note : Token := ⟨.comment "// note", "// note", ⟨1, 13⟩⟩

/-- The tokens of a type on the next line. -/
def integers : List Token :=
  [⟨.keyword .type, "type", ⟨2, 1⟩⟩, ⟨.identifier "A", "A", ⟨2, 6⟩⟩,
    ⟨.identifier "int", "int", ⟨2, 8⟩⟩]

/-- A note behind a constant becomes a comment of the type on the next line. -/
theorem not_keepsComments_note : ¬ KeepsComments "const X = 1 // note\ntype A int\n" := by
  have hsource : (Scanned.ofSource "const X = 1 // note\ntype A int\n").toOption =
      some ⟨constant ++ note :: integers ++ [.lineEnd ⟨2, 12⟩], ⟨3, 1⟩⟩ := by
    decide +kernel
  have hconstant : Step (start (constant ++ note :: integers ++ [.lineEnd ⟨2, 12⟩]))
      ⟨[⟨some (.other "const"), constant⟩], none, none,
        note :: integers ++ [.lineEnd ⟨2, 12⟩]⟩ :=
    @Step.skipped [] none _ constant.tail _ rfl rfl
  have hnote : Step ⟨[⟨some (.other "const"), constant⟩], none, none,
      note :: integers ++ [.lineEnd ⟨2, 12⟩]⟩
      ⟨[⟨some (.other "const"), constant⟩, ⟨some (.comment ⟨"// note", 1⟩), [note]⟩], none, none,
        integers ++ [.lineEnd ⟨2, 12⟩]⟩ :=
    .comment rfl
  have hspec : Decl.ReadsSpec 2 (integers.tail ++ [.lineEnd ⟨2, 12⟩])
      (.decl (.alias ⟨"A", 2, .named "int", [], none⟩)) ⟨2, [.lineEnd ⟨2, 12⟩]⟩ :=
    @Decl.ReadsSpec.decl 2 _ _ "A" (.alias ⟨"A", 2, .named "int", [], none⟩)
      ⟨2, [.lineEnd ⟨2, 12⟩]⟩ rfl rfl (.type rfl (.name rfl (.alone rfl))) rfl
  have hintegers : Step
      ⟨[⟨some (.other "const"), constant⟩, ⟨some (.comment ⟨"// note", 1⟩), [note]⟩], none, none,
        integers ++ [.lineEnd ⟨2, 12⟩]⟩ _ :=
    @Step.single _ none _ integers.tail _ ⟨2, [.lineEnd ⟨2, 12⟩]⟩ rfl hspec
  intro h
  refine h _ _ ⟨"// note", 1⟩ _ (eq_ok_of_toOption hsource)
    (.step hconstant (.step hnote .refl)) ⟨_, _, hintegers, rfl, by decide⟩ ?_
  exact ⟨_, List.mem_cons_self, ⟨.int "1", "1", ⟨1, 11⟩⟩, by decide, by decide, by decide,
    by decide⟩

end Node

end DeclBridge
