import DeclBridge.Proofs.Grammar.Nesting
import DeclBridge.Proofs.Scan.Plain

/-!
Reading of tokens without carriage returns in their texts. No reader looks into the text of a
comment or of a string, so that the same is read, without carriage returns in the comments and tags.
-/

namespace DeclBridge

open Token (plainComment plainLiteral)

/-- The comment without carriage returns at the ends of its lines. -/
def Comment.plain (c : Comment) : Comment :=
  { c with text := String.ofList (plainComment c.text.toList) }

def Field.plain (f : Field) : Field :=
  { f with
    tag := f.tag.map fun tag => String.ofList (plainLiteral tag.toList)
    doc := f.doc.map Comment.plain }

def Decl.plain : Decl → Decl
  | .record r =>
      .record { r with
        fields := r.fields.map Field.plain
        comments := r.comments.map Comment.plain
        trailing := r.trailing.map Comment.plain }
  | .alias a =>
      .alias { a with
        comments := a.comments.map Comment.plain
        trailing := a.trailing.map Comment.plain }

/-- What stands at the top of a text, without carriage returns in its tags and comments. -/
def Node.plain : Node → Node
  | .comment c => .comment c.plain
  | .decl d => .decl d.plain
  | .other what => .other what

namespace Cursor

/-- The place among the tokens without carriage returns in their texts. -/
def plain (c : Cursor) : Cursor :=
  ⟨c.line, c.rest.map Token.plain⟩

variable {ts : List Token} {c d : Cursor} {kind : Token.Kind}

theorem any_head?_plain {p : Token.Kind → Bool} (hp : ∀ kind, p kind.plain = p kind) :
    (ts.map Token.plain).head?.any (p ·.kind) = ts.head?.any (p ·.kind) := by
  cases ts with
  | nil => rfl
  | cons t ts => exact hp t.kind

theorem all_head?_plain {p : Token.Kind → Bool} (hp : ∀ kind, p kind.plain = p kind) :
    (ts.map Token.plain).head?.all (p ·.kind) = ts.head?.all (p ·.kind) := by
  cases ts with
  | nil => rfl
  | cons t ts => exact hp t.kind

theorem plain_eq_iff (h : kind.isText = false) (other : Token.Kind) :
    other.plain = kind ↔ other = kind := by
  cases other with
  | comment | string =>
      constructor
      all_goals
        rintro rfl
        cases h
  | _ => exact Iff.rfl

theorem nextIs_plain (h : kind.isText = false) :
    nextIs kind (ts.map Token.plain) = nextIs kind ts :=
  any_head?_plain (p := fun other => decide (other = kind)) fun other =>
    decide_eq_decide.mpr (plain_eq_iff h other)

theorem isBracket_plain (kind : Token.Kind) : kind.plain.isBracket = kind.isBracket := by
  cases kind <;> rfl

theorem kind_plain {t : Token} (ht : t.kind = kind) (h : kind.isText = false) :
    t.plain.kind = kind := by
  rw [Token.plain, ht, Token.Kind.plain_of_isText h]

theorem afterGroup?_plain {depth : Nat} (h : afterGroup? depth ts = some c) :
    afterGroup? depth (ts.map Token.plain) = some c.plain := by
  induction ts generalizing depth with
  | nil => simp [afterGroup?] at h
  | cons t ts ih =>
      rw [List.map_cons]
      rcases t.kind.bracket_cases with ⟨bracket, ht⟩ | ⟨bracket, ht⟩ | ht
      · rw [afterGroup?_opening ht] at h
        rw [afterGroup?_opening (kind_plain ht rfl)]
        exact ih h
      · cases depth with
        | zero =>
            rw [afterGroup?_close ht] at h
            cases h
            exact afterGroup?_close (kind_plain ht rfl)
        | succ depth =>
            rw [afterGroup?_closing ht] at h
            rw [afterGroup?_closing (kind_plain ht rfl)]
            exact ih h
      · rw [afterGroup?_other ht] at h
        rw [afterGroup?_other ((isBracket_plain _).trans ht)]
        exact ih h

theorem groups_plain (h : Groups ts c) : Groups (ts.map Token.plain) c.plain := by
  obtain ⟨t, us, bracket, rfl, ht, hc⟩ := h
  exact ⟨t.plain, us.map Token.plain, bracket, rfl, kind_plain ht rfl, afterGroup?_plain hc⟩

theorem nextIs_braces_plain :
    (nextIs (.opening .curly) (ts.map Token.plain) &&
        nextIs (.closing .curly) (ts.map Token.plain).tail) =
      (nextIs (.opening .curly) ts && nextIs (.closing .curly) ts.tail) := by
  rw [← List.map_tail, nextIs_plain rfl, nextIs_plain rfl]

theorem afterDeclaration_plain (line depth : Nat) (ts : List Token) :
    afterDeclaration line depth (ts.map Token.plain) = (afterDeclaration line depth ts).plain := by
  induction ts generalizing line depth with
  | nil => rfl
  | cons t ts ih =>
      rw [List.map_cons]
      rcases t.kind.bracket_cases with ⟨bracket, ht⟩ | ⟨bracket, ht⟩ | ht
      · rw [afterDeclaration_opening ht, afterDeclaration_opening (kind_plain ht rfl)]
        exact ih _ _
      · cases depth with
        | zero =>
            rw [afterDeclaration_close ht, afterDeclaration_close (kind_plain ht rfl)]
            rfl
        | succ depth =>
            rw [afterDeclaration_closing ht, afterDeclaration_closing (kind_plain ht rfl)]
            exact ih _ _
      · by_cases hsemicolon : t.kind = .semicolon ∧ depth = 0
        · obtain ⟨ht, rfl⟩ := hsemicolon
          rw [afterDeclaration_semicolon ht, afterDeclaration_semicolon (kind_plain ht rfl)]
          rfl
        · have hdeep := Decidable.not_and_iff_or_not.mp hsemicolon
          rw [afterDeclaration_other ht hdeep,
            afterDeclaration_other ((isBracket_plain _).trans ht)]
          · exact ih _ _
          · exact hdeep.imp_left fun hne heq => hne ((plain_eq_iff rfl _).mp heq)

end Cursor

namespace TypeExpr

open Cursor

variable {ts : List Token} {c d : Cursor} {type : TypeExpr}

theorem afterLength?_plain {depth : Nat} (h : afterLength? depth ts = some c) :
    afterLength? depth (ts.map Token.plain) = some c.plain := by
  induction ts generalizing depth with
  | nil => simp [afterLength?] at h
  | cons t ts ih =>
      rw [List.map_cons]
      rcases t.kind.bracket_cases with ⟨bracket, ht⟩ | ⟨bracket, ht⟩ | ht
      · rw [afterLength?_opening ht] at h
        rw [afterLength?_opening (kind_plain ht rfl)]
        exact ih h
      · by_cases hclose : bracket = .square ∧ depth = 0
        · obtain ⟨rfl, rfl⟩ := hclose
          rw [afterLength?_close ht] at h
          cases h
          exact afterLength?_close (kind_plain ht rfl)
        · have hdeep : bracket ≠ .square ∨ depth ≠ 0 := Decidable.not_and_iff_or_not.mp hclose
          rw [afterLength?_closing ht hdeep] at h
          rw [afterLength?_closing (kind_plain ht rfl) hdeep]
          exact ih h
      · rw [afterLength?_other ht] at h
        rw [afterLength?_other ((isBracket_plain _).trans ht)]
        exact ih h

theorem endsLength_plain {simple length : TypeExpr} (h : EndsLength simple ts length c) :
    EndsLength simple (ts.map Token.plain) length c.plain := by
  refine ⟨afterLength?_plain h.1, ?_⟩
  rw [nextIs_plain rfl]
  exact h.2

theorem readsMember_plain {name : String} (h : ReadsMember name c type d) :
    ReadsMember name c.plain type d.plain := by
  cases h with
  | alone hdot => exact .alone ((nextIs_plain rfl).trans hdot)
  | member ht hu => exact .member (kind_plain ht rfl) (kind_plain hu rfl)

theorem readsLength_plain {length : TypeExpr} (h : ReadsLength ts length c) :
    ReadsLength (ts.map Token.plain) length c.plain := by
  have hbegins : ∀ kind : Token.Kind, beginsLength kind.plain = beginsLength kind := by
    intro kind
    cases kind <;> rfl
  cases h with
  | int ht he => exact .int (kind_plain ht rfl) (endsLength_plain he)
  | counted ht he => exact .counted (kind_plain ht rfl) (endsLength_plain he)
  | name ht hm he =>
      exact .name (kind_plain ht rfl) (readsMember_plain hm) (endsLength_plain he)
  | computed ht he => exact .computed ((hbegins _).trans ht) (endsLength_plain he)

theorem reads_plain (h : Reads ts type c) : Reads (ts.map Token.plain) type c.plain := by
  have hbegins : ∀ kind : Token.Kind, beginsResult kind.plain = beginsResult kind := by
    intro kind
    cases kind <;> rfl
  induction h with
  | name ht hm => exact .name (kind_plain ht rfl) (readsMember_plain hm)
  | pointer ht _ ih => exact .pointer (kind_plain ht rfl) ih
  | slice ht hu _ ih => exact .slice (kind_plain ht rfl) (kind_plain hu rfl) ih
  | array ht hclosing hl _ ih =>
      exact .array (kind_plain ht rfl) ((nextIs_plain rfl).trans hclosing) (readsLength_plain hl) ih
  | @parens t u _ _ _ _ ht _ hu ih =>
      exact .parens (u := u.plain) (kind_plain ht rfl) ih (kind_plain hu rfl)
  | receiver ht hu _ ih => exact .receiver (kind_plain ht rfl) (kind_plain hu rfl) ih
  | sender ht hu _ ih => exact .sender (kind_plain ht rfl) (kind_plain hu rfl) ih
  | channel ht harrow _ ih =>
      exact .channel (kind_plain ht rfl) ((nextIs_plain rfl).trans harrow) ih
  | map ht hu _ hv _ ihKey ihValue =>
      exact .map (kind_plain ht rfl) (kind_plain hu rfl) ihKey (kind_plain hv rfl) ihValue
  | dynamic ht hg hempty =>
      exact .dynamic (kind_plain ht rfl) (groups_plain hg) (nextIs_braces_plain.trans hempty)
  | interface ht hg hempty =>
      exact .interface (kind_plain ht rfl) (groups_plain hg) (nextIs_braces_plain.trans hempty)
  | struct ht hg => exact .struct (kind_plain ht rfl) (groups_plain hg)
  | procedure ht hround hg hresults hresult =>
      exact .procedure (kind_plain ht rfl) ((nextIs_plain rfl).trans hround) (groups_plain hg)
        ((nextIs_plain rfl).trans hresults) ((any_head?_plain hbegins).trans hresult)
  | results ht hround hg hresults hg' =>
      exact .results (kind_plain ht rfl) ((nextIs_plain rfl).trans hround) (groups_plain hg)
        ((nextIs_plain rfl).trans hresults) (groups_plain hg')
  | result ht hround hg hresults hresult _ ih =>
      exact .result (kind_plain ht rfl) ((nextIs_plain rfl).trans hround) (groups_plain hg)
        ((nextIs_plain rfl).trans hresults) ((any_head?_plain hbegins).trans hresult) ih

end TypeExpr

namespace Field

open Cursor

variable {ts : List Token} {c d : Cursor} {f : Field}

theorem endsField_plain (kind : Token.Kind) : endsField kind.plain = endsField kind := by
  cases kind <;> rfl

theorem readsEnd_plain {names : List String} {type : TypeExpr} (h : ReadsEnd names type c f d) :
    ReadsEnd names type c.plain f.plain d.plain := by
  cases h with
  | tagged ht hend =>
      exact .tagged (congrArg Token.Kind.plain ht) ((any_head?_plain endsField_plain).trans hend)
  | plain hend => exact .plain ((any_head?_plain endsField_plain).trans hend)

theorem readsNames_plain {names : List String} (h : ReadsNames c names d) :
    ReadsNames c.plain names d.plain := by
  induction h with
  | nil hcomma => exact .nil ((nextIs_plain rfl).trans hcomma)
  | cons ht hu _ ih => exact .cons (kind_plain ht rfl) (kind_plain hu rfl) ih

theorem reads_plain (h : Reads ts f c) : Reads (ts.map Token.plain) f.plain c.plain := by
  have hembedded : ∀ kind : Token.Kind, endsEmbedded kind.plain = endsEmbedded kind := by
    intro kind
    cases kind <;> rfl
  cases h with
  | pointer hstar hr he =>
      exact .pointer ((nextIs_plain rfl).trans hstar) (TypeExpr.reads_plain hr) (readsEnd_plain he)
  | qualified ht hdot hm he =>
      exact .qualified (kind_plain ht rfl) ((nextIs_plain rfl).trans hdot)
        (TypeExpr.readsMember_plain hm) (readsEnd_plain he)
  | embedded ht hdot hend he =>
      exact .embedded (kind_plain ht rfl) ((nextIs_plain rfl).trans hdot)
        ((any_head?_plain hembedded).trans hend) (readsEnd_plain he)
  | named ht hdot hend hn hr he =>
      exact .named (kind_plain ht rfl) ((nextIs_plain rfl).trans hdot)
        ((any_head?_plain hembedded).trans hend) (readsNames_plain hn) (TypeExpr.reads_plain hr)
        (readsEnd_plain he)

theorem readsAll_plain {lastLine : Nat} {doc : List Comment} {fields : List Field}
    (h : ReadsAll lastLine doc ts fields c) :
    ReadsAll lastLine (doc.map Comment.plain) (ts.map Token.plain) (fields.map Field.plain)
      c.plain := by
  induction h with
  | semicolon ht _ ih => exact .semicolon (kind_plain ht rfl) ih
  | @comment lastLine doc t _ text _ _ ht _ ih =>
      refine .comment (congrArg Token.Kind.plain ht) ?_
      rw [apply_ite (List.map Comment.plain), List.map_append] at ih
      exact ih
  | close ht => exact .close (kind_plain ht rfl)
  | field hf _ ih => exact .field (reads_plain hf) ih

end Field

namespace Decl

open Cursor

variable {ts : List Token} {c : Cursor} {line : Nat} {node : Node} {nodes : List Node}

theorem hasParameters_plain (ts : List Token) :
    hasParameters (ts.map Token.plain) = hasParameters ts := by
  obtain _ | ⟨_, _ | ⟨⟨first, _, _⟩, _ | ⟨⟨second, _, _⟩, us⟩⟩⟩ := ts
  · rfl
  · rfl
  · rfl
  · cases first with
    | identifier =>
        cases second with
        | star =>
            obtain _ | ⟨⟨third, _, _⟩, _ | ⟨⟨fourth, _, _⟩, _⟩⟩ := us
            · rfl
            · rfl
            · cases third with
              | identifier => cases fourth <;> rfl
              | _ => rfl
        | opening bracket => cases bracket <;> rfl
        | _ => rfl
    | _ => rfl

theorem isGeneric_plain (ts : List Token) :
    (nextIs (.opening .square) (ts.map Token.plain) && hasParameters (ts.map Token.plain)) =
      (nextIs (.opening .square) ts && hasParameters ts) := by
  rw [nextIs_plain rfl, hasParameters_plain]

theorem dropAssign_plain (ts : List Token) :
    dropAssign (ts.map Token.plain) = (dropAssign ts).map Token.plain := by
  cases ts with
  | nil => rfl
  | cons t ts =>
      simp only [List.map_cons, dropAssign, apply_ite (List.map Token.plain)]
      exact if_congr (plain_eq_iff rfl t.kind) rfl rfl

theorem isLineEnd_plain (t : Token) : t.plain.isLineEnd = t.isLineEnd := by
  rcases t with ⟨kind, lexeme, p⟩
  cases kind <;> rfl

theorem dropLineEnd_plain (ts : List Token) :
    dropLineEnd (ts.map Token.plain) = (dropLineEnd ts).map Token.plain := by
  cases ts with
  | nil => rfl
  | cons t ts =>
      simp only [List.map_cons, dropLineEnd, apply_ite (List.map Token.plain), isLineEnd_plain]

theorem commentOn?_plain (line : Nat) (ts : List Token) :
    commentOn? line (ts.map Token.plain) =
      (commentOn? line ts).map (Prod.map Comment.plain Cursor.plain) := by
  cases ts with
  | nil => rfl
  | cons t ts =>
      rcases t with ⟨kind, lexeme, p⟩
      cases kind with
      | comment text =>
          simp only [List.map_cons, commentOn?, Comment.ofToken?, Token.plain, Token.Kind.plain,
            Token.line, Option.filter_some]
          split <;> rfl
      | _ => rfl

theorem trailing_plain (c : Cursor) :
    trailing c.plain = Prod.map (Option.map Comment.plain) Cursor.plain (trailing c) := by
  have hcomment := commentOn?_plain c.line (dropLineEnd c.rest)
  rw [← dropLineEnd_plain] at hcomment
  unfold trailing
  rw [show c.plain.line = c.line from rfl, show c.plain.rest = c.rest.map Token.plain from rfl,
    hcomment]
  cases commentOn? c.line (dropLineEnd c.rest) <;> rfl

theorem readsBody_plain {name : String} {d : Decl} (h : ReadsBody name line ts d c) :
    ReadsBody name line (ts.map Token.plain) d.plain c.plain := by
  cases h with
  | record ht hu hf =>
      exact .record (kind_plain ht rfl) (kind_plain hu rfl) (Field.readsAll_plain hf)
  | type hstruct hr => exact .type ((nextIs_plain rfl).trans hstruct) (TypeExpr.reads_plain hr)

theorem withTrailing_plain (trailing : Option Comment) (d : Decl) :
    (d.withTrailing trailing).plain = d.plain.withTrailing (trailing.map Comment.plain) := by
  cases d <;> rfl

theorem readsSpec_plain (h : ReadsSpec line ts node c) :
    ReadsSpec line (ts.map Token.plain) node.plain c.plain := by
  have hends : ∀ kind : Token.Kind, endsDecl kind.plain = endsDecl kind := by
    intro kind
    cases kind <;> rfl
  cases h with
  | @generic t ts name ht hgeneric =>
      rw [← afterDeclaration_plain]
      exact .generic (kind_plain ht rfl) ((isGeneric_plain ts).trans hgeneric)
  | @decl t ts name d c ht hgeneric hb hend =>
      have htrailing := trailing_plain c
      have hbody := readsBody_plain hb
      rw [← dropAssign_plain] at hbody
      have hspec : ReadsSpec line (t.plain :: ts.map Token.plain) _ _ :=
        .decl (kind_plain ht rfl) ((isGeneric_plain ts).trans hgeneric) hbody
          ((all_head?_plain hends).trans hend)
      rw [htrailing] at hspec
      rw [Node.plain, withTrailing_plain]
      exact hspec

theorem readsGroup_plain {line : Option Nat} (h : ReadsGroup line ts nodes c) :
    ReadsGroup line (ts.map Token.plain) (nodes.map Node.plain) c.plain := by
  induction h with
  | semicolon ht _ ih => exact .semicolon (kind_plain ht rfl) ih
  | comment ht _ ih => exact .comment (congrArg Token.Kind.plain ht) ih
  | close ht => exact .close (kind_plain ht rfl)
  | spec hs _ ih => exact .spec (readsSpec_plain hs) ih

theorem reads_plain (h : Reads line ts nodes c) :
    Reads line (ts.map Token.plain) (nodes.map Node.plain) c.plain := by
  cases h with
  | group ht hg => exact .group (kind_plain ht rfl) (readsGroup_plain hg)
  | single hs => exact .single (readsSpec_plain hs)

end Decl

namespace Node

open Cursor

/-- From tokens without carriage returns in their texts the same is read, without carriage returns
in tags and comments. -/
theorem readsAll_plain {ts : List Token} {nodes : List Node} (h : ReadsAll ts nodes) :
    ReadsAll (ts.map Token.plain) (nodes.map Node.plain) := by
  induction h with
  | nil => exact .nil
  | semicolon ht _ ih => exact .semicolon (kind_plain ht rfl) ih
  | comment ht _ ih => exact .comment (congrArg Token.Kind.plain ht) ih
  | package ht hu _ ih => exact .package (kind_plain ht rfl) (kind_plain hu rfl) ih
  | type ht hd _ ih =>
      rw [List.map_append]
      exact .type (kind_plain ht rfl) (Decl.reads_plain hd) ih
  | @skipped t ts nodes ht _ ih =>
      have hskipped : t.plain = t := by
        rw [Token.plain_of_isText]
        rcases beginsSkipped_iff.mp ht with h | h | h | h <;> rw [h] <;> rfl
      rw [List.map_cons, hskipped]
      refine .skipped ht ?_
      rw [afterDeclaration_plain]
      exact ih

end Node

end DeclBridge
