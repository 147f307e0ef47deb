import DeclBridge.Proofs.Grammar.Nesting
import DeclBridge.Proofs.Grammar.Span

/-!
Which comments a reader does not see. A type expression that is read from tokens is read from them
without their comments too, as long as no comment parts two tokens that a reader takes together.
-/

namespace DeclBridge

namespace Token

/-- What a token is for a comment next to it. Only the forms matter that a reader looks for in a
place where it may find a comment instead. -/
inductive Form where
  | name
  | int
  | ellipsis
  | star
  | dot
  | comma
  | tilde
  | func
  | shape
  | opening (bracket : Bracket)
  | closing (bracket : Bracket)
  | other
deriving DecidableEq, Repr

namespace Form

def ofKind : Kind → Form
  | .identifier _ => name
  | .int _ => int
  | .ellipsis => ellipsis
  | .star => star
  | .dot => dot
  | .comma => comma
  | .operator text => if text = "~" then tilde else other
  | .keyword .func => func
  | .keyword .interface | .keyword .map | .keyword .chan => shape
  | .opening bracket => opening bracket
  | .closing bracket => closing bracket
  | _ => other

def ofHead (ts : List Token) : Form :=
  (ts.head?.map fun t => ofKind t.kind).getD other

def ofLast (ts : List Token) : Form :=
  (ts.getLast?.map fun t => ofKind t.kind).getD other

/-- Whether a comment between tokens of the two forms may be read as the end of what the first one
belongs to: of a name before its member, its type or its constraint, of the parameters of a function
before its result, of the length of an array, or of an empty interface. -/
def parts : Form → Form → Bool
  | name, name | name, star | name, dot | name, comma | name, tilde | name, func | name, shape
  | name, opening .square | name, closing .square => true
  | closing _, name | closing _, star | closing _, func => true
  | opening .square, name | opening .square, int | opening .square, ellipsis
  | opening .square, closing .square => true
  | int, closing .square | ellipsis, closing .square => true
  | star, name => true
  | opening .curly, closing .curly => true
  | _, _ => false

theorem ofKind_eq_name {kind : Kind} : ofKind kind = name ↔ ∃ text, kind = .identifier text := by
  cases kind with
  | operator text =>
      simp only [ofKind, reduceCtorEq, exists_false, iff_false]
      split <;> simp
  | keyword word => cases word <;> simp [ofKind]
  | _ => simp [ofKind]

@[simp]
theorem ofHead_cons (t : Token) (ts : List Token) : ofHead (t :: ts) = ofKind t.kind := rfl

end Form

/-- The second list is what is left of the first one without some of its comments, behind a token of
the given form. None of the comments parts the tokens around it. -/
inductive Sheds : Form → List Token → List Token → Prop where
  | nil {f : Form} : Sheds f [] []
  | keep {f : Form} {t u : Token} {ts us : List Token} :
      u.kind = t.kind → Sheds (.ofKind t.kind) ts us → Sheds f (t :: ts) (u :: us)
  | drop {f : Form} {t : Token} {ts us : List Token} :
      t.kind.isComment = true → f.parts (.ofHead us) = false → Sheds f ts us →
      Sheds f (t :: ts) us

variable {f : Form} {t : Token} {ts us : List Token}

theorem Sheds.uncons (h : Sheds f (t :: ts) us) (ht : t.kind.isComment = false) :
    ∃ u vs, us = u :: vs ∧ u.kind = t.kind ∧ Sheds (.ofKind t.kind) ts vs := by
  cases h with
  | keep hu h => exact ⟨_, _, rfl, hu, h⟩
  | drop hcomment => simp [ht] at hcomment

/-- The first token stays, or it is a comment, and none of the tokens that would be parted comes
first. -/
theorem Sheds.head (h : Sheds f ts us) :
    us.head?.map kind = ts.head?.map kind ∨
      (∃ t vs, ts = t :: vs ∧ t.kind.isComment = true) ∧ f.parts (.ofHead us) = false := by
  cases h with
  | nil => exact .inl rfl
  | keep hu => exact .inl (by simp [hu])
  | drop ht hparts => exact .inr ⟨⟨_, _, rfl, ht⟩, hparts⟩

end Token

namespace Cursor

open Token (Sheds Form)

variable {f : Form} {kind : Token.Kind} {ts us : List Token} {c : Cursor}

theorem any_head?_keep (h : Sheds f ts us) (hts : ts.head?.any (·.kind.isComment) = false)
    (p : Token.Kind → Bool) : us.head?.any (p ·.kind) = ts.head?.any (p ·.kind) := by
  rcases h.head with hhead | ⟨⟨t, vs, rfl, ht⟩, -⟩
  · cases hts : ts.head? <;> cases hus : us.head? <;> simp_all
  · simp [ht] at hts

theorem any_head?_sheds {p : Token.Kind → Bool} (h : Sheds f ts us)
    (hcomment : ∀ text, p (.comment text) = false)
    (hparts : us.head?.any (p ·.kind) = true → f.parts (.ofHead us) = true) :
    us.head?.any (p ·.kind) = ts.head?.any (p ·.kind) := by
  rcases h.head with hhead | ⟨⟨t, vs, rfl, ht⟩, hnot⟩
  · cases hts : ts.head? <;> cases hus : us.head? <;> simp_all
  · have hus : us.head?.any (p ·.kind) = false := by
      cases hp : us.head?.any (p ·.kind) with
      | false => rfl
      | true => simp [hparts hp] at hnot
    rw [hus]
    cases hkind : t.kind <;> simp_all [Token.Kind.isComment]

/-- A token that would be parted comes next only if it did so with the comments. -/
theorem nextIs_sheds (h : Sheds f ts us) (hkind : kind.isComment = false)
    (hparts : f.parts (.ofKind kind) = true) : nextIs kind us = nextIs kind ts := by
  refine any_head?_sheds h (p := fun other => decide (other = kind)) ?_ ?_
  · rintro text
    cases kind <;> simp_all [Token.Kind.isComment]
  · intro hus
    cases us <;> simp_all

theorem nextIs_of_sheds (h : Sheds f ts us) (hts : nextIs kind ts = true)
    (hkind : kind.isComment = false) : nextIs kind us = true := by
  obtain ⟨t, vs, rfl, rfl⟩ := nextIs_iff.mp hts
  obtain ⟨u, ws, rfl, hu, -⟩ := h.uncons hkind
  simp [hu]

theorem afterGroup?_sheds {depth : Nat} (h : afterGroup? depth ts = some c) (hts : Sheds f ts us) :
    ∃ d bracket, afterGroup? depth us = some d ∧ Sheds (.closing bracket) c.rest d.rest := by
  induction hts generalizing depth with
  | nil => simp [afterGroup?] at h
  | @keep _ t u ts us hu hts ih =>
      rcases t.kind.bracket_cases with ⟨bracket, ht⟩ | ⟨bracket, ht⟩ | ht
      · rw [afterGroup?_opening ht] at h
        rw [afterGroup?_opening (hu.trans ht)]
        exact ih h
      · cases depth with
        | zero =>
            rw [afterGroup?_close ht] at h
            cases h
            rw [ht] at hts
            exact ⟨_, bracket, afterGroup?_close (hu.trans ht), hts⟩
        | succ depth =>
            rw [afterGroup?_closing ht] at h
            rw [afterGroup?_closing (hu.trans ht)]
            exact ih h
      · rw [afterGroup?_other ht] at h
        rw [afterGroup?_other (by rw [hu]; exact ht)]
        exact ih h
  | @drop _ t _ _ ht _ _ ih =>
      have hother : t.kind.isBracket = false := by
        cases hkind : t.kind <;> simp_all [Token.Kind.isComment, Token.Kind.isBracket]
      rw [afterGroup?_other hother] at h
      exact ih h

theorem groups_sheds (h : Groups ts c) (hts : Sheds f ts us) :
    ∃ d bracket, Groups us d ∧ Sheds (.closing bracket) c.rest d.rest := by
  obtain ⟨t, vs, bracket, rfl, ht, hc⟩ := h
  obtain ⟨u, ws, rfl, hu, hts⟩ := hts.uncons (by rw [ht]; rfl)
  obtain ⟨d, other, hd, hcd⟩ := afterGroup?_sheds hc hts
  exact ⟨d, other, ⟨u, ws, bracket, rfl, hu.trans ht, hd⟩, hcd⟩

theorem nextIs_braces_sheds (h : Groups ts c) (hts : Sheds f ts us) :
    (nextIs (.opening .curly) us && nextIs (.closing .curly) us.tail) =
      (nextIs (.opening .curly) ts && nextIs (.closing .curly) ts.tail) := by
  obtain ⟨t, vs, bracket, rfl, ht, hc⟩ := h
  obtain ⟨u, ws, rfl, hu, hts⟩ := hts.uncons (by rw [ht]; rfl)
  rw [List.tail_cons, List.tail_cons, nextIs_cons, nextIs_cons, hu]
  by_cases hcurly : t.kind = .opening .curly
  · rw [hcurly] at hts
    rw [nextIs_sheds hts rfl rfl]
  · simp [hcurly]

end Cursor

namespace TypeExpr

open Cursor
open Token (Sheds Form)

variable {f : Form} {ts us : List Token} {c d : Cursor}

theorem afterLength?_sheds {depth : Nat} (h : afterLength? depth ts = some c)
    (hts : Sheds f ts us) :
    ∃ d g, afterLength? depth us = some d ∧ Sheds g c.rest d.rest := by
  induction hts generalizing depth with
  | nil => simp [afterLength?] at h
  | @keep _ t u ts us hu hts ih =>
      rcases t.kind.bracket_cases with ⟨bracket, ht⟩ | ⟨bracket, ht⟩ | ht
      · rw [afterLength?_opening ht] at h
        rw [afterLength?_opening (hu.trans ht)]
        exact ih h
      · by_cases hclose : bracket = .square ∧ depth = 0
        · obtain ⟨rfl, rfl⟩ := hclose
          rw [afterLength?_close ht] at h
          cases h
          exact ⟨_, _, afterLength?_close (hu.trans ht), hts⟩
        · have hdeep : bracket ≠ .square ∨ depth ≠ 0 := Decidable.not_and_iff_or_not.mp hclose
          rw [afterLength?_closing ht hdeep] at h
          rw [afterLength?_closing (hu.trans ht) hdeep]
          exact ih h
      · rw [afterLength?_other ht] at h
        rw [afterLength?_other (by rw [hu]; exact ht)]
        exact ih h
  | @drop _ t _ _ ht _ _ ih =>
      have hother : t.kind.isBracket = false := by
        cases hkind : t.kind <;> simp_all [Token.Kind.isComment, Token.Kind.isBracket]
      rw [afterLength?_other hother] at h
      exact ih h

/-- A length ends where it did, and is as simple as it was behind a token from which no comment may
part the bracket. -/
theorem endsLength_sheds {simple length : TypeExpr} (h : EndsLength simple ts length c)
    (hts : Sheds f ts us) (hf : f.parts (.closing .square) = true ∨ simple = computedLength) :
    ∃ d g, EndsLength simple us length d ∧ Sheds g c.rest d.rest := by
  obtain ⟨hc, rfl⟩ := h
  obtain ⟨d, g, hd, hcd⟩ := afterLength?_sheds hc hts
  refine ⟨d, g, ⟨hd, ?_⟩, hcd⟩
  rcases hf with hf | rfl
  · rw [@nextIs_sheds f (.closing .square) ts us hts rfl hf]
  · simp

theorem readsMember_sheds {name : String} {type : TypeExpr} (line : Nat)
    (h : ReadsMember name c type d) (hc : Sheds .name c.rest us) :
    ∃ d', ReadsMember name ⟨line, us⟩ type d' ∧ Sheds .name d.rest d'.rest := by
  cases h with
  | alone hdot => exact ⟨_, .alone (by rw [nextIs_sheds hc rfl rfl, hdot]), hc⟩
  | member ht hu =>
      obtain ⟨t', us', rfl, ht', hc⟩ := hc.uncons (by rw [ht]; rfl)
      obtain ⟨u', vs', rfl, hu', hc⟩ := hc.uncons (by rw [hu]; rfl)
      rw [hu] at hc
      exact ⟨_, .member (ht'.trans ht) (hu'.trans hu), hc⟩

theorem readsLength_sheds {length : TypeExpr} (h : ReadsLength ts length c)
    (hts : Sheds (.opening .square) ts us) :
    ∃ d g, ReadsLength us length d ∧ Sheds g c.rest d.rest := by
  cases h with
  | int ht he =>
      obtain ⟨u, vs, rfl, hu, hts⟩ := hts.uncons (by rw [ht]; rfl)
      rw [ht] at hts
      obtain ⟨d, g, hd, hcd⟩ := endsLength_sheds he hts (.inl rfl)
      exact ⟨d, g, .int (hu.trans ht) hd, hcd⟩
  | counted ht he =>
      obtain ⟨u, vs, rfl, hu, hts⟩ := hts.uncons (by rw [ht]; rfl)
      rw [ht] at hts
      obtain ⟨d, g, hd, hcd⟩ := endsLength_sheds he hts (.inl rfl)
      exact ⟨d, g, .counted (hu.trans ht) hd, hcd⟩
  | @name t ts _ _ _ _ _ ht hm he =>
      obtain ⟨u, vs, rfl, hu, hts⟩ := hts.uncons (by rw [ht]; rfl)
      rw [ht] at hts
      obtain ⟨e, hm', hce⟩ := readsMember_sheds u.line hm hts
      obtain ⟨d, g, hd, hcd⟩ := endsLength_sheds he hce (.inl rfl)
      exact ⟨d, g, .name (hu.trans ht) hm' hd, hcd⟩
  | @computed t ts _ _ ht he =>
      obtain ⟨d, g, hd, hcd⟩ := endsLength_sheds he hts (.inr rfl)
      have hhead : us.head?.any (beginsLength ·.kind) = false := by
        rw [any_head?_sheds hts (fun _ => rfl)]
        · simpa using ht
        · intro hus
          cases us with
          | nil => simp at hus
          | cons u us => cases hkind : u.kind <;> simp_all [beginsLength, Form.ofKind, Form.parts]
      cases us with
      | nil => simp [EndsLength, afterLength?] at hd
      | cons u us => exact ⟨d, g, .computed (by simpa using hhead) hd, hcd⟩

/-- No result of a function begins behind its parameters only because the comments in between are
left out. -/
def Stops (ts : List Token) : Prop :=
  ∀ bracket us, Sheds (.closing bracket) ts us →
    us.head?.any (beginsResult ·.kind) = ts.head?.any (beginsResult ·.kind)

theorem stops_of_head {t : Token} (ht : t.kind.isComment = false) : Stops (t :: ts) := by
  intro bracket us hts
  obtain ⟨u, vs, rfl, hu, -⟩ := hts.uncons ht
  simp [hu]

theorem isComment_of_reads {type : TypeExpr} (h : Reads ts type c) :
    ts.head?.any (·.kind.isComment) = false := by
  cases h with
  | name ht | pointer ht | slice ht | array ht | parens ht | receiver ht | sender ht | channel ht
  | map ht | dynamic ht | interface ht | struct ht | procedure ht | results ht | result ht =>
      simp [ht, Token.Kind.isComment]

theorem nextIs_round_of_beginsResult (h : ts.head?.any (beginsResult ·.kind) = false) :
    nextIs (.opening .round) ts = false := by
  cases ts with
  | nil => rfl
  | cons t ts =>
      rw [nextIs_cons, decide_eq_false_iff_not]
      intro ht
      simp [ht, beginsResult] at h

/-- A type expression that is read is read without the comments. -/
theorem reads_sheds {type : TypeExpr} (h : Reads ts type c) (hts : Sheds f ts us)
    (hstops : Stops c.rest) : ∃ d g, Reads us type d ∧ Sheds g c.rest d.rest := by
  induction h generalizing f us with
  | @name t ts _ _ _ ht hm =>
      obtain ⟨u, vs, rfl, hu, hts⟩ := hts.uncons (by rw [ht]; rfl)
      rw [ht] at hts
      obtain ⟨d, hm', hcd⟩ := readsMember_sheds u.line hm hts
      exact ⟨d, .name, .name (hu.trans ht) hm', hcd⟩
  | pointer ht _ ih =>
      obtain ⟨u, vs, rfl, hu, hts⟩ := hts.uncons (by rw [ht]; rfl)
      obtain ⟨d, g, hd, hcd⟩ := ih hts hstops
      exact ⟨d, g, .pointer (hu.trans ht) hd, hcd⟩
  | slice ht hu _ ih =>
      obtain ⟨t', us', rfl, ht', hts⟩ := hts.uncons (by rw [ht]; rfl)
      obtain ⟨u', vs', rfl, hu', hts⟩ := hts.uncons (by rw [hu]; rfl)
      obtain ⟨d, g, hd, hcd⟩ := ih hts hstops
      exact ⟨d, g, .slice (ht'.trans ht) (hu'.trans hu) hd, hcd⟩
  | array ht hclosing hl _ ih =>
      obtain ⟨u, vs, rfl, hu, hts⟩ := hts.uncons (by rw [ht]; rfl)
      rw [ht] at hts
      obtain ⟨e, _, he, hce⟩ := readsLength_sheds hl hts
      obtain ⟨d, g, hd, hcd⟩ := ih hce hstops
      exact ⟨d, g, .array (hu.trans ht) (by rw [nextIs_sheds hts rfl rfl, hclosing]) he hd, hcd⟩
  | parens ht _ hu ih =>
      obtain ⟨t', us', rfl, ht', hts⟩ := hts.uncons (by rw [ht]; rfl)
      have hnext := congrArg Token.Kind.isComment hu
      obtain ⟨⟨line, rest⟩, _, hd, hcd⟩ := ih hts (stops_of_head hnext)
      obtain ⟨u', vs', rfl, hu', hcd⟩ := hcd.uncons hnext
      exact ⟨_, _, .parens (ht'.trans ht) hd (hu'.trans hu), hcd⟩
  | receiver ht hu _ ih =>
      obtain ⟨t', us', rfl, ht', hts⟩ := hts.uncons (by rw [ht]; rfl)
      obtain ⟨u', vs', rfl, hu', hts⟩ := hts.uncons (by rw [hu]; rfl)
      obtain ⟨d, g, hd, hcd⟩ := ih hts hstops
      exact ⟨d, g, .receiver (ht'.trans ht) (hu'.trans hu) hd, hcd⟩
  | sender ht hu _ ih =>
      obtain ⟨t', us', rfl, ht', hts⟩ := hts.uncons (by rw [ht]; rfl)
      obtain ⟨u', vs', rfl, hu', hts⟩ := hts.uncons (by rw [hu]; rfl)
      obtain ⟨d, g, hd, hcd⟩ := ih hts hstops
      exact ⟨d, g, .sender (ht'.trans ht) (hu'.trans hu) hd, hcd⟩
  | @channel t ts _ _ ht harrow hr ih =>
      obtain ⟨u, vs, rfl, hu, hts⟩ := hts.uncons (by rw [ht]; rfl)
      obtain ⟨d, g, hd, hcd⟩ := ih hts hstops
      have harrow' := (any_head?_keep hts (isComment_of_reads hr)
        fun kind => decide (kind = .arrow)).trans harrow
      exact ⟨d, g, .channel (hu.trans ht) harrow' hd, hcd⟩
  | map ht hu _ hv _ ihKey ihValue =>
      obtain ⟨t', us', rfl, ht', hts⟩ := hts.uncons (by rw [ht]; rfl)
      obtain ⟨u', vs', rfl, hu', hts⟩ := hts.uncons (by rw [hu]; rfl)
      have hnext := congrArg Token.Kind.isComment hv
      obtain ⟨⟨line, rest⟩, _, hd, hcd⟩ := ihKey hts (stops_of_head hnext)
      obtain ⟨v', ws', rfl, hv', hcd⟩ := hcd.uncons hnext
      obtain ⟨e, g, he, hce⟩ := ihValue hcd hstops
      exact ⟨e, g, .map (ht'.trans ht) (hu'.trans hu) hd (hv'.trans hv) he, hce⟩
  | dynamic ht hg hempty =>
      obtain ⟨u, vs, rfl, hu, hts⟩ := hts.uncons (by rw [ht]; rfl)
      obtain ⟨d, bracket, hd, hcd⟩ := groups_sheds hg hts
      exact ⟨d, _, .dynamic (hu.trans ht) hd (by rwa [nextIs_braces_sheds hg hts]), hcd⟩
  | interface ht hg hempty =>
      obtain ⟨u, vs, rfl, hu, hts⟩ := hts.uncons (by rw [ht]; rfl)
      obtain ⟨d, bracket, hd, hcd⟩ := groups_sheds hg hts
      exact ⟨d, _, .interface (hu.trans ht) hd (by rwa [nextIs_braces_sheds hg hts]), hcd⟩
  | struct ht hg =>
      obtain ⟨u, vs, rfl, hu, hts⟩ := hts.uncons (by rw [ht]; rfl)
      obtain ⟨d, bracket, hd, hcd⟩ := groups_sheds hg hts
      exact ⟨d, _, .struct (hu.trans ht) hd, hcd⟩
  | procedure ht hround hg hresults hresult =>
      obtain ⟨u, vs, rfl, hu, hts⟩ := hts.uncons (by rw [ht]; rfl)
      obtain ⟨d, bracket, hd, hcd⟩ := groups_sheds hg hts
      have hresult' := (hstops bracket _ hcd).trans hresult
      exact ⟨d, _, .procedure (hu.trans ht) (nextIs_of_sheds hts hround rfl) hd
        (nextIs_round_of_beginsResult hresult') hresult', hcd⟩
  | results ht hround hg hresults hg' =>
      obtain ⟨u, vs, rfl, hu, hts⟩ := hts.uncons (by rw [ht]; rfl)
      obtain ⟨e, _, he, hce⟩ := groups_sheds hg hts
      obtain ⟨d, _, hd, hcd⟩ := groups_sheds hg' hce
      exact ⟨d, _, .results (hu.trans ht) (nextIs_of_sheds hts hround rfl) he
        (nextIs_of_sheds hce hresults rfl) hd, hcd⟩
  | result ht hround hg hresults hresult hr ih =>
      obtain ⟨u, vs, rfl, hu, hts⟩ := hts.uncons (by rw [ht]; rfl)
      obtain ⟨e, _, he, hce⟩ := groups_sheds hg hts
      obtain ⟨d, g, hd, hcd⟩ := ih hce hstops
      have hkeep := any_head?_keep hce (isComment_of_reads hr)
      have hresult' := (hkeep beginsResult).trans hresult
      have hresults' := (hkeep fun kind => decide (kind = .opening .round)).trans hresults
      exact ⟨d, g, .result (hu.trans ht) (nextIs_of_sheds hts hround rfl) he hresults' hresult' hd,
        hcd⟩

end TypeExpr

end DeclBridge
