import DeclBridge.Decl.OfTokens
import DeclBridge.Proofs.Grammar.TypeExpr

/-!
A grammar of fields and type declarations, with the comments between them. Fields and declarations
are read from tokens exactly if they are derived from them.
-/

namespace DeclBridge

open Cursor

namespace Field

/-- A field is completed by a tag, if there is one, and a token that may follow a field. -/
inductive ReadsEnd (names : List String) (type : TypeExpr) : Cursor → Field → Cursor → Prop where
  | tagged {line : Nat} {t : Token} {us : List Token} {text : String} :
      t.kind = .string text → us.head?.any (endsField ·.kind) = true →
      ReadsEnd names type ⟨line, t :: us⟩ ⟨names, type, some text, []⟩ ⟨t.line, us⟩
  | plain {c : Cursor} :
      c.rest.head?.any (endsField ·.kind) = true →
      ReadsEnd names type c ⟨names, type, none, []⟩ c

/-- More names of a field, each behind a comma. -/
inductive ReadsNames : Cursor → List String → Cursor → Prop where
  | nil {c : Cursor} : nextIs .comma c.rest = false → ReadsNames c [] c
  | cons {line : Nat} {t u : Token} {us : List Token} {name : String} {names : List String}
      {c : Cursor} :
      t.kind = .comma → u.kind = .identifier name → ReadsNames ⟨u.line, us⟩ names c →
      ReadsNames ⟨line, t :: u :: us⟩ (name :: names) c

/-- The tokens begin with a field, and the place is behind it. -/
inductive Reads : List Token → Field → Cursor → Prop where
  | pointer {ts : List Token} {type : TypeExpr} {f : Field} {c d : Cursor} :
      nextIs .star ts = true → TypeExpr.Reads ts type c → ReadsEnd [] type c f d → Reads ts f d
  | qualified {t : Token} {ts : List Token} {first : String} {type : TypeExpr} {f : Field}
      {c d : Cursor} :
      t.kind = .identifier first → nextIs .dot ts = true →
      TypeExpr.ReadsMember first ⟨t.line, ts⟩ type c → ReadsEnd [] type c f d →
      Reads (t :: ts) f d
  | embedded {t : Token} {ts : List Token} {first : String} {f : Field} {c : Cursor} :
      t.kind = .identifier first → nextIs .dot ts = false →
      ts.head?.any (endsEmbedded ·.kind) = true →
      ReadsEnd [] (.named first) ⟨t.line, ts⟩ f c → Reads (t :: ts) f c
  | named {t : Token} {ts : List Token} {first : String} {names : List String} {type : TypeExpr}
      {f : Field} {c d e : Cursor} :
      t.kind = .identifier first → nextIs .dot ts = false →
      ts.head?.any (endsEmbedded ·.kind) = false → ReadsNames ⟨t.line, ts⟩ names c →
      TypeExpr.Reads c.rest type d → ReadsEnd (first :: names) type d f e → Reads (t :: ts) f e

/-- The tokens begin with the fields of a struct and the brace that closes it. -/
inductive ReadsAll : Nat → List Comment → List Token → List Field → Cursor → Prop where
  | semicolon {lastLine : Nat} {doc : List Comment} {t : Token} {ts : List Token}
      {fields : List Field} {c : Cursor} :
      t.kind = .semicolon → ReadsAll lastLine doc ts fields c →
      ReadsAll lastLine doc (t :: ts) fields c
  | comment {lastLine : Nat} {doc : List Comment} {t : Token} {ts : List Token} {text : String}
      {fields : List Field} {c : Cursor} :
      t.kind = .comment text →
      ReadsAll lastLine (if t.line = lastLine then doc else doc ++ [⟨text, t.line⟩]) ts fields c →
      ReadsAll lastLine doc (t :: ts) fields c
  | close {lastLine : Nat} {doc : List Comment} {t : Token} {ts : List Token} :
      t.kind = .closing .curly → ReadsAll lastLine doc (t :: ts) [] ⟨t.line, ts⟩
  | field {lastLine : Nat} {doc : List Comment} {ts : List Token} {f : Field}
      {fields : List Field} {c d : Cursor} :
      Reads ts f c → ReadsAll c.line [] c.rest fields d →
      ReadsAll lastLine doc ts ({ f with doc } :: fields) d

/-- The next token is a string literal and is taken, or it is none and stays. -/
theorem takeIf_literal? {ts : List Token} (c : After ts) :
    (∃ t us text h, c.1.rest = t :: us ∧ t.kind = .string text ∧
        c.takeIf literal? = (some text, ⟨⟨t.line, us⟩, h⟩)) ∨
      ((∀ t us text, c.1.rest = t :: us → t.kind ≠ .string text) ∧
        c.takeIf literal? = (none, c)) := by
  rcases c with ⟨⟨line, _ | ⟨t, us⟩⟩, hc⟩
  · right
    exact ⟨by simp, rfl⟩
  · simp only [After.takeIf, literal?]
    split
    · rename_i text h
      left
      split at h
      · rename_i text' ht
        cases h
        exact ⟨t, us, text, Nat.lt_of_succ_lt hc, rfl, ht, rfl⟩
      · cases h
    · rename_i h
      right
      refine ⟨?_, rfl⟩
      rintro u vs text ⟨⟩ ht
      simp [ht] at h

theorem readEnd_eq_ok {names : List String} {type : TypeExpr} {ts : List Token} {c d : After ts}
    {f : Field} : readEnd names type c = .ok (f, d) ↔ ReadsEnd names type c.1 f d.1 := by
  rcases c with ⟨⟨line, rest⟩, hc⟩
  rcases d with ⟨d, hd⟩
  rcases takeIf_literal? ⟨⟨line, rest⟩, hc⟩ with
    ⟨t, us, text, hlt, rfl, ht, htake⟩ | ⟨hnone, htake⟩
  · simp only [readEnd, htake]
    split
    · rename_i hend
      constructor
      · rintro ⟨⟩
        exact .tagged ht hend
      · intro h
        cases h with
        | tagged ht' _ =>
            rw [ht] at ht'
            cases ht'
            rfl
        | plain h => simp [ht, endsField] at h
    · rename_i hend
      constructor
      · rintro ⟨⟩
      · intro h
        cases h with
        | tagged _ hend' => exact absurd hend' hend
        | plain h => simp [ht, endsField] at h
  · simp only [readEnd, htake]
    split
    · rename_i hend
      constructor
      · rintro ⟨⟩
        exact .plain hend
      · intro h
        cases h with
        | @tagged _ t us text ht _ => exact absurd ht (hnone t us text rfl)
        | plain => rfl
    · rename_i hend
      constructor
      · rintro ⟨⟩
      · intro h
        cases h with
        | @tagged _ t us text ht _ => exact absurd ht (hnone t us text rfl)
        | plain hend' => exact absurd hend' hend

theorem length_of_readsNames {c d : Cursor} {names : List String} (h : ReadsNames c names d) :
    d.rest.length ≤ c.rest.length := by
  induction h with
  | nil => exact Nat.le_refl _
  | cons _ _ _ ih => exact Nat.le_succ_of_le (Nat.le_succ_of_le ih)

theorem readNames_eq_ok {line : Nat} {ts : List Token} {names : List String}
    {c : { c : Cursor // c.rest.length ≤ ts.length }} :
    readNames line ts = .ok (names, c) ↔ ReadsNames ⟨line, ts⟩ names c.1 := by
  rcases c with ⟨c, hc⟩
  induction line, ts using readNames.induct generalizing names c with
  | case1 line ts hcomma ih =>
      rw [readNames, if_pos hcomma]
      constructor
      · intro h
        obtain ⟨⟨d, hd'⟩, hd, h⟩ := bind_eq_ok.mp h
        obtain ⟨t, us, rfl, ht, rfl⟩ := expect_eq_ok.mp hd
        obtain ⟨⟨name, ⟨e, he'⟩⟩, he, h⟩ := bind_eq_ok.mp h
        obtain ⟨u, vs, rfl, hu, rfl⟩ := identifier_eq_ok.mp he
        obtain ⟨⟨more, ⟨e, he'⟩⟩, he, ⟨⟩⟩ := bind_eq_ok.mp h
        exact .cons ht hu ((ih _ ⟨⟨u.line, vs⟩, by simp⟩ e he').mp he)
      · intro h
        cases h with
        | nil hcomma' => simp [hcomma] at hcomma'
        | @cons _ t u us name names _ ht hu h =>
            have hrest := length_of_readsNames h
            refine bind_eq_ok.mpr ⟨⟨⟨t.line, u :: us⟩, by simp⟩,
              expect_eq_ok.mpr ⟨t, u :: us, rfl, ht, rfl⟩, ?_⟩
            refine bind_eq_ok.mpr ⟨(name, ⟨⟨u.line, us⟩, by simp⟩),
              identifier_eq_ok.mpr ⟨u, us, rfl, hu, rfl⟩, ?_⟩
            exact bind_eq_ok.mpr ⟨(names, ⟨c, hrest⟩), (ih _ _ c hrest).mpr h, rfl⟩
  | case2 line ts hcomma =>
      rw [readNames, if_neg hcomma]
      constructor
      · rintro ⟨⟩
        exact .nil (eq_false_of_ne_true hcomma)
      · intro h
        cases h with
        | nil => rfl
        | cons ht => simp [ht] at hcomma

theorem length_of_readsEnd {names : List String} {type : TypeExpr} {c d : Cursor} {f : Field}
    (h : ReadsEnd names type c f d) : d.rest.length ≤ c.rest.length := by
  cases h with
  | tagged => simp
  | plain => exact Nat.le_refl _

theorem read_eq_ok {ts : List Token} {f : Field} {c : After ts} :
    read ts = .ok (f, c) ↔ Reads ts f c.1 := by
  rcases c with ⟨c, hc⟩
  constructor
  · intro h
    by_cases hstar : nextIs .star ts = true
    · rw [read, if_pos hstar] at h
      obtain ⟨⟨type, d⟩, hd, h⟩ := bind_eq_ok.mp h
      exact .pointer hstar (TypeExpr.read_eq_ok.mp hd) (readEnd_eq_ok.mp h)
    · rw [read, if_neg hstar] at h
      obtain ⟨⟨first, ⟨d, hd'⟩⟩, hd, h⟩ := bind_eq_ok.mp h
      obtain ⟨t, us, rfl, ht, rfl⟩ := identifier_eq_ok.mp hd
      simp only at h
      split at h
      · rename_i hdot
        obtain ⟨⟨type, e⟩, he, h⟩ := bind_eq_ok.mp h
        exact .qualified ht hdot (TypeExpr.readMember_eq_ok.mp he) (readEnd_eq_ok.mp h)
      · rename_i hdot
        split at h
        · rename_i hend
          exact .embedded ht (eq_false_of_ne_true hdot) hend (readEnd_eq_ok.mp h)
        · rename_i hend
          obtain ⟨⟨names, e⟩, he, h⟩ := bind_eq_ok.mp h
          obtain ⟨⟨type, g⟩, hg, h⟩ := bind_eq_ok.mp h
          exact .named ht (eq_false_of_ne_true hdot) (eq_false_of_ne_true hend)
            (readNames_eq_ok.mp he) (TypeExpr.read_eq_ok.mp hg) (readEnd_eq_ok.mp h)
  · intro h
    unfold read
    cases h with
    | pointer hstar ht he =>
        obtain ⟨hd, hread⟩ := TypeExpr.read_of_reads ht
        rw [if_pos hstar]
        exact bind_eq_ok.mpr ⟨_, hread, readEnd_eq_ok.mpr he⟩
    | @qualified t ts first type _ d _ ht hdot hm he =>
        rw [if_neg (by simp [ht])]
        refine bind_eq_ok.mpr ⟨(first, ⟨⟨t.line, ts⟩, by simp⟩),
          identifier_eq_ok.mpr ⟨t, ts, rfl, ht, rfl⟩, ?_⟩
        simp only [hdot, if_true]
        have hd := Nat.lt_succ_of_le (TypeExpr.length_of_readsMember hm)
        exact bind_eq_ok.mpr ⟨(type, ⟨d, hd⟩), TypeExpr.readMember_eq_ok.mpr hm,
          readEnd_eq_ok.mpr he⟩
    | @embedded t ts first _ _ ht hdot hend he =>
        rw [if_neg (by simp [ht])]
        refine bind_eq_ok.mpr ⟨(first, ⟨⟨t.line, ts⟩, by simp⟩),
          identifier_eq_ok.mpr ⟨t, ts, rfl, ht, rfl⟩, ?_⟩
        simp only [hdot, hend, if_true, Bool.false_eq_true, if_false]
        exact readEnd_eq_ok.mpr he
    | @named t ts first names type _ d e _ ht hdot hend hn hr he =>
        rw [if_neg (by simp [ht])]
        refine bind_eq_ok.mpr ⟨(first, ⟨⟨t.line, ts⟩, by simp⟩),
          identifier_eq_ok.mpr ⟨t, ts, rfl, ht, rfl⟩, ?_⟩
        simp only [hdot, hend, Bool.false_eq_true, if_false]
        obtain ⟨hlt, hread⟩ := TypeExpr.read_of_reads hr
        refine bind_eq_ok.mpr ⟨(names, ⟨d, length_of_readsNames hn⟩), readNames_eq_ok.mpr hn, ?_⟩
        exact bind_eq_ok.mpr ⟨_, hread, readEnd_eq_ok.mpr he⟩

theorem length_of_reads {ts : List Token} {f : Field} {c : Cursor} (h : Reads ts f c) :
    c.rest.length < ts.length := by
  cases h with
  | pointer _ ht he =>
      obtain ⟨hc, -⟩ := TypeExpr.read_of_reads ht
      exact Nat.lt_of_le_of_lt (length_of_readsEnd he) hc
  | qualified _ _ hm he =>
      exact Nat.lt_succ_of_le
        (Nat.le_trans (length_of_readsEnd he) (TypeExpr.length_of_readsMember hm))
  | embedded _ _ _ he => exact Nat.lt_succ_of_le (length_of_readsEnd he)
  | named _ _ _ hn ht he =>
      obtain ⟨hc, -⟩ := TypeExpr.read_of_reads ht
      have hnames := length_of_readsNames hn
      have hend := length_of_readsEnd he
      simp only [List.length_cons] at hnames ⊢
      omega

theorem head_of_reads {ts : List Token} {f : Field} {c : Cursor} (h : Reads ts f c) :
    ∃ t us, ts = t :: us ∧ (t.kind = .star ∨ ∃ name, t.kind = .identifier name) := by
  cases h with
  | pointer hstar =>
      obtain ⟨t, us, rfl, ht⟩ := nextIs_iff.mp hstar
      exact ⟨t, us, rfl, .inl ht⟩
  | qualified ht => exact ⟨_, _, rfl, .inr ⟨_, ht⟩⟩
  | embedded ht => exact ⟨_, _, rfl, .inr ⟨_, ht⟩⟩
  | named ht => exact ⟨_, _, rfl, .inr ⟨_, ht⟩⟩

theorem length_of_readsAll {lastLine : Nat} {doc : List Comment} {ts : List Token}
    {fields : List Field} {c : Cursor} (h : ReadsAll lastLine doc ts fields c) :
    c.rest.length < ts.length := by
  induction h with
  | semicolon _ _ ih => exact Nat.lt_succ_of_lt ih
  | comment _ _ ih => exact Nat.lt_succ_of_lt ih
  | close => exact Nat.lt_succ_self _
  | field hf _ ih => exact Nat.lt_trans ih (length_of_reads hf)

theorem readAll_eq_ok {lastLine : Nat} {doc : List Comment} {ts : List Token}
    {fields : List Field} {c : After ts} :
    readAll lastLine doc ts = .ok (fields, c) ↔ ReadsAll lastLine doc ts fields c.1 := by
  rcases c with ⟨c, hc⟩
  constructor
  · intro h
    induction lastLine, doc, ts using readAll.induct generalizing fields with
    | case1 => simp [readAll] at h
    | case2 lastLine doc t ts ht ih =>
        simp only [readAll, ht, bind_eq_ok] at h
        obtain ⟨⟨fields, ⟨d, hd'⟩⟩, hd, ⟨⟩⟩ := h
        exact .semicolon ht (ih hd' hd)
    | case3 lastLine doc t ts text ht =>
        rename_i ih
        simp only [readAll, ht, bind_eq_ok] at h
        obtain ⟨⟨fields, ⟨d, hd'⟩⟩, hd, ⟨⟩⟩ := h
        exact .comment ht (ih hd' hd)
    | case4 lastLine doc t ts ht =>
        simp only [readAll, ht] at h
        cases h
        exact .close ht
    | case5 lastLine doc t ts hsemicolon hcomment hclosing ih =>
        rw [readAll] at h
        split at h
        · simp_all
        · simp_all
        · simp_all
        · obtain ⟨⟨f, d⟩, hd, h⟩ := bind_eq_ok.mp h
          obtain ⟨⟨fields, ⟨e, he'⟩⟩, he, ⟨⟩⟩ := bind_eq_ok.mp h
          exact .field (read_eq_ok.mp hd) (ih d he' he)
  · intro h
    simp only at h
    induction h with
    | @semicolon _ _ t ts fields c ht h ih =>
        have hlt := length_of_readsAll h
        simp only [readAll, ht]
        exact bind_eq_ok.mpr ⟨(fields, ⟨c, hlt⟩), ih hlt, rfl⟩
    | @comment _ _ t ts _ fields c ht h ih =>
        have hlt := length_of_readsAll h
        simp only [readAll, ht]
        exact bind_eq_ok.mpr ⟨(fields, ⟨c, hlt⟩), ih hlt, rfl⟩
    | close ht =>
        simp only [readAll, ht]
        rfl
    | @field _ _ ts f fields c d hf h ih =>
        have hc := length_of_reads hf
        have hd := length_of_readsAll h
        have hread : read ts = .ok (f, ⟨c, hc⟩) := read_eq_ok.mpr hf
        obtain ⟨t, us, rfl, ht⟩ := head_of_reads hf
        rw [readAll]
        split
        · simp_all
        · simp_all
        · simp_all
        · exact bind_eq_ok.mpr ⟨_, hread, bind_eq_ok.mpr ⟨(fields, ⟨d, hd⟩), ih hd, rfl⟩⟩

end Field

namespace Decl

/-- The tokens without the semicolon of a line break before them. -/
def dropLineEnd : List Token → List Token
  | [] => []
  | t :: ts => if t.isLineEnd then ts else t :: ts

/-- The comment that comes first among the tokens, if it begins on the given line, and the place
behind it. -/
def commentOn? (line : Nat) : List Token → Option (Comment × Cursor)
  | [] => none
  | t :: ts => ((Comment.ofToken? t).filter (·.line = line)).map (·, ⟨t.line, ts⟩)

/-- The comment that trails what stands before a place, and the place behind it. -/
def trailing (c : Cursor) : Option Comment × Cursor :=
  match commentOn? c.line (dropLineEnd c.rest) with
  | some (comment, d) => (some comment, d)
  | none => (none, c)

/-- The tokens without the equals sign before them. -/
def dropAssign : List Token → List Token
  | [] => []
  | t :: ts => if t.kind = .assign then ts else t :: ts

/-- What a type name stands for is a struct or another type. -/
inductive ReadsBody (name : String) (line : Nat) : List Token → Decl → Cursor → Prop where
  | record {t u : Token} {ts : List Token} {fields : List Field} {c : Cursor} :
      t.kind = .keyword .struct → u.kind = .opening .curly → Field.ReadsAll 0 [] ts fields c →
      ReadsBody name line (t :: u :: ts) (.record ⟨name, line, fields, [], none⟩) c
  | type {ts : List Token} {type : TypeExpr} {c : Cursor} :
      nextIs (.keyword .struct) ts = false → TypeExpr.Reads ts type c →
      ReadsBody name line ts (.alias ⟨name, line, type, [], none⟩) c

/-- The tokens begin with a specification, which is generic or declares a type. -/
inductive ReadsSpec (line : Nat) : List Token → Node → Cursor → Prop where
  | generic {t : Token} {ts : List Token} {name : String} :
      t.kind = .identifier name → (nextIs (.opening .square) ts && hasParameters ts) = true →
      ReadsSpec line (t :: ts) (.other ("generic type " ++ name)) (afterDeclaration t.line 0 ts)
  | decl {t : Token} {ts : List Token} {name : String} {d : Decl} {c : Cursor} :
      t.kind = .identifier name → (nextIs (.opening .square) ts && hasParameters ts) = false →
      ReadsBody name line (dropAssign ts) d c → c.rest.head?.all (endsDecl ·.kind) = true →
      ReadsSpec line (t :: ts) (.decl (d.withTrailing (trailing c).1)) (trailing c).2

/-- The tokens begin with the specifications of a group and the parenthesis that closes it. -/
inductive ReadsGroup : Option Nat → List Token → List Node → Cursor → Prop where
  | semicolon {line : Option Nat} {t : Token} {ts : List Token} {nodes : List Node} {c : Cursor} :
      t.kind = .semicolon → ReadsGroup line ts nodes c → ReadsGroup line (t :: ts) nodes c
  | comment {line : Option Nat} {t : Token} {ts : List Token} {text : String} {nodes : List Node}
      {c : Cursor} :
      t.kind = .comment text → ReadsGroup none ts nodes c →
      ReadsGroup line (t :: ts) (.comment ⟨text, t.line⟩ :: nodes) c
  | close {line : Option Nat} {t : Token} {ts : List Token} :
      t.kind = .closing .round → ReadsGroup line (t :: ts) [] ⟨t.line, ts⟩
  | spec {line : Option Nat} {t : Token} {ts : List Token} {node : Node} {nodes : List Node}
      {c d : Cursor} :
      ReadsSpec (line.getD t.line) (t :: ts) node c → ReadsGroup none c.rest nodes d →
      ReadsGroup line (t :: ts) (node :: nodes) d

/-- The tokens begin with what follows the keyword of a type declaration. -/
inductive Reads (line : Nat) : List Token → List Node → Cursor → Prop where
  | group {t : Token} {ts : List Token} {nodes : List Node} {c : Cursor} :
      t.kind = .opening .round → ReadsGroup (some line) ts nodes c → Reads line (t :: ts) nodes c
  | single {ts : List Token} {node : Node} {c : Cursor} :
      ReadsSpec line ts node c → Reads line ts [node] c

theorem takeIf_isLineEnd {ts : List Token} (c : After ts) :
    (c.takeIf fun t => if t.isLineEnd then some t else none).2.1.rest = dropLineEnd c.1.rest := by
  rcases c with ⟨⟨line, _ | ⟨t, us⟩⟩, hc⟩
  · rfl
  · simp only [After.takeIf, dropLineEnd]
    by_cases ht : t.isLineEnd = true
    · simp only [ht, if_true]
      rfl
    · simp only [ht]
      rfl

theorem takeIf_assign {ts : List Token} (c : After ts) :
    (c.takeIf fun t => if t.kind = .assign then some t else none).2.1.rest =
      dropAssign c.1.rest := by
  rcases c with ⟨⟨line, _ | ⟨t, us⟩⟩, hc⟩
  · rfl
  · simp only [After.takeIf, dropAssign]
    by_cases ht : t.kind = .assign
    · simp only [ht, if_true]
      rfl
    · simp only [ht, if_false]

theorem takeIf_comment {ts : List Token} (line : Nat) (c : After ts) :
    ((c.takeIf fun t => (Comment.ofToken? t).filter (·.line = line)).1.map
        (·, (c.takeIf fun t => (Comment.ofToken? t).filter (·.line = line)).2.1)) =
      commentOn? line c.1.rest := by
  rcases c with ⟨⟨first, _ | ⟨t, us⟩⟩, hc⟩
  · rfl
  · simp only [After.takeIf, commentOn?]
    cases (Comment.ofToken? t).filter (·.line = line) <;> rfl

theorem readTrailing_eq {ts : List Token} (c : After ts) :
    ((readTrailing c).1, (readTrailing c).2.1) = trailing c.1 := by
  simp only [readTrailing, trailing, ← takeIf_isLineEnd, ← takeIf_comment]
  split
  · rename_i comment e h
    rw [h]
    rfl
  · rename_i e h
    rw [h]
    rfl

theorem length_dropLineEnd (ts : List Token) : (dropLineEnd ts).length ≤ ts.length := by
  cases ts with
  | nil => exact Nat.le_refl _
  | cons t ts =>
      simp only [dropLineEnd]
      split <;> simp

theorem length_dropAssign (ts : List Token) : (dropAssign ts).length ≤ ts.length := by
  cases ts with
  | nil => exact Nat.le_refl _
  | cons t ts =>
      simp only [dropAssign]
      split <;> simp

theorem commentOn?_eq_some {line : Nat} {ts : List Token} {comment : Comment} {c : Cursor} :
    commentOn? line ts = some (comment, c) ↔
      ∃ t us text, ts = t :: us ∧ t.kind = .comment text ∧ t.line = line ∧
        comment = ⟨text, line⟩ ∧ c = ⟨line, us⟩ := by
  cases ts with
  | nil => simp [commentOn?]
  | cons t ts =>
      simp only [commentOn?, Comment.ofToken?]
      constructor
      · intro h
        split at h
        · rename_i text ht
          simp only [Option.map_eq_some_iff, Option.filter_eq_some_iff, Option.some.injEq,
            decide_eq_true_eq, Prod.mk.injEq] at h
          obtain ⟨_, ⟨rfl, hline⟩, rfl, rfl⟩ := h
          simp only at hline
          subst hline
          exact ⟨t, ts, text, rfl, ht, rfl, rfl, rfl⟩
        · simp at h
      · rintro ⟨u, us, text, ⟨⟩, hu, rfl, rfl, rfl⟩
        simp [hu]

theorem length_trailing (c : Cursor) : (trailing c).2.rest.length ≤ c.rest.length := by
  unfold trailing
  split
  · rename_i comment d h
    obtain ⟨t, us, text, hts, -, -, -, rfl⟩ := commentOn?_eq_some.mp h
    have hle := length_dropLineEnd c.rest
    rw [hts, List.length_cons] at hle
    exact Nat.le_of_succ_le hle
  · exact Nat.le_refl _

theorem readBody_eq_ok {name : String} {line : Nat} {ts : List Token} {d : Decl} {c : After ts} :
    readBody name line ts = .ok (d, c) ↔ ReadsBody name line ts d c.1 := by
  rcases c with ⟨c, hc⟩
  by_cases hstruct : nextIs (.keyword .struct) ts = true
  · rw [readBody, if_pos hstruct]
    constructor
    · intro h
      obtain ⟨⟨e, he'⟩, he, h⟩ := bind_eq_ok.mp h
      obtain ⟨t, us, rfl, ht, rfl⟩ := expect_eq_ok.mp he
      obtain ⟨⟨g, hg'⟩, hg, h⟩ := bind_eq_ok.mp h
      obtain ⟨u, vs, rfl, hu, rfl⟩ := expect_eq_ok.mp hg
      obtain ⟨⟨fields, ⟨e, he'⟩⟩, he, ⟨⟩⟩ := bind_eq_ok.mp h
      exact .record ht hu (Field.readAll_eq_ok.mp he)
    · intro h
      cases h with
      | @record t u us fields _ ht hu hf =>
          refine bind_eq_ok.mpr ⟨⟨⟨t.line, u :: us⟩, by simp⟩,
            expect_eq_ok.mpr ⟨t, u :: us, rfl, ht, rfl⟩, ?_⟩
          refine bind_eq_ok.mpr ⟨⟨⟨u.line, us⟩, by simp⟩,
            expect_eq_ok.mpr ⟨u, us, rfl, hu, rfl⟩, ?_⟩
          exact bind_eq_ok.mpr ⟨(fields, ⟨c, Field.length_of_readsAll hf⟩),
            Field.readAll_eq_ok.mpr hf, rfl⟩
      | type hother => simp [hstruct] at hother
  · rw [readBody, if_neg hstruct]
    constructor
    · intro h
      obtain ⟨⟨type, ⟨e, he'⟩⟩, he, ⟨⟩⟩ := bind_eq_ok.mp h
      exact .type (eq_false_of_ne_true hstruct) (TypeExpr.read_eq_ok.mp he)
    · intro h
      cases h with
      | record ht => simp [ht] at hstruct
      | type _ hr => exact bind_eq_ok.mpr ⟨(_, ⟨c, hc⟩), TypeExpr.read_eq_ok.mpr hr, rfl⟩

theorem length_of_readsBody {name : String} {line : Nat} {ts : List Token} {d : Decl} {c : Cursor}
    (h : ReadsBody name line ts d c) : c.rest.length < ts.length := by
  cases h with
  | record _ _ hf => exact Nat.lt_succ_of_lt (Nat.lt_succ_of_lt (Field.length_of_readsAll hf))
  | type _ hr =>
      obtain ⟨hc, -⟩ := TypeExpr.read_of_reads hr
      exact hc

theorem length_of_readsSpec {line : Nat} {ts : List Token} {node : Node} {c : Cursor}
    (h : ReadsSpec line ts node c) : c.rest.length < ts.length := by
  cases h with
  | generic => exact Nat.lt_succ_of_le (length_afterDeclaration ..)
  | decl _ _ hb _ =>
      refine Nat.lt_succ_of_le (Nat.le_trans (length_trailing _) ?_)
      exact Nat.le_trans (Nat.le_of_lt (length_of_readsBody hb)) (length_dropAssign _)

theorem readSpec_eq_ok {line : Nat} {ts : List Token} {node : Node} {c : After ts} :
    readSpec line ts = .ok (node, c) ↔ ReadsSpec line ts node c.1 := by
  rcases c with ⟨c, hc⟩
  constructor
  · intro h
    obtain ⟨⟨name, ⟨e, he'⟩⟩, he, h⟩ := bind_eq_ok.mp h
    obtain ⟨t, us, rfl, ht, rfl⟩ := identifier_eq_ok.mp he
    simp only at h
    split at h
    · rename_i hgeneric
      cases h
      exact .generic ht hgeneric
    · rename_i hgeneric
      have hassign := takeIf_assign (⟨⟨t.line, us⟩, he'⟩ : After (t :: us))
      generalize After.takeIf (⟨⟨t.line, us⟩, he'⟩ : After (t :: us)) _ = taken at h hassign
      rcases taken with ⟨assign, ⟨⟨line', rest⟩, hlt⟩⟩
      simp only at hassign
      subst hassign
      obtain ⟨⟨d, e⟩, he, h⟩ := bind_eq_ok.mp h
      simp only at h
      split at h
      · rename_i hend
        obtain ⟨rfl, hplace⟩ := Prod.mk.inj (Except.ok.inj h)
        have htrailing := readTrailing_eq (After.trans ⟨⟨line', dropAssign us⟩, hlt⟩ e)
        rw [hplace, Prod.ext_iff] at htrailing
        simp only at htrailing
        show ReadsSpec line (t :: us) _ c
        rw [htrailing.1, htrailing.2]
        exact .decl ht (eq_false_of_ne_true hgeneric) (readBody_eq_ok.mp he) hend
      · cases h
  · intro h
    unfold readSpec
    cases h with
    | @generic t ts name ht hgeneric =>
        refine bind_eq_ok.mpr ⟨(name, ⟨⟨t.line, ts⟩, by simp⟩),
          identifier_eq_ok.mpr ⟨t, ts, rfl, ht, rfl⟩, ?_⟩
        simp only [hgeneric, if_true]
        rfl
    | @decl t ts name d e ht hgeneric hb hend =>
        have he' : (⟨t.line, ts⟩ : Cursor).rest.length < (t :: ts).length := by simp
        refine bind_eq_ok.mpr ⟨(name, ⟨⟨t.line, ts⟩, he'⟩),
          identifier_eq_ok.mpr ⟨t, ts, rfl, ht, rfl⟩, ?_⟩
        simp only [hgeneric, Bool.false_eq_true, if_false]
        have hassign := takeIf_assign (⟨⟨t.line, ts⟩, he'⟩ : After (t :: ts))
        generalize After.takeIf (⟨⟨t.line, ts⟩, he'⟩ : After (t :: ts)) _ = taken at hassign ⊢
        rcases taken with ⟨assign, ⟨⟨line', rest⟩, hlt⟩⟩
        simp only at hassign
        subst hassign
        have he : e.rest.length < (dropAssign ts).length := length_of_readsBody hb
        refine bind_eq_ok.mpr ⟨(d, ⟨e, he⟩), readBody_eq_ok.mpr hb, ?_⟩
        have htrailing := readTrailing_eq (After.trans ⟨⟨line', dropAssign ts⟩, hlt⟩ ⟨e, he⟩)
        rw [Prod.ext_iff] at htrailing
        simp only [After.trans] at htrailing
        simp only [After.trans, hend, if_true, htrailing.1]
        exact congrArg Except.ok (Prod.ext rfl (Subtype.ext htrailing.2))

theorem head_of_readsSpec {line : Nat} {ts : List Token} {node : Node} {c : Cursor}
    (h : ReadsSpec line ts node c) : ∃ t us name, ts = t :: us ∧ t.kind = .identifier name := by
  cases h with
  | generic ht => exact ⟨_, _, _, rfl, ht⟩
  | decl ht => exact ⟨_, _, _, rfl, ht⟩

theorem length_of_readsGroup {line : Option Nat} {ts : List Token} {nodes : List Node} {c : Cursor}
    (h : ReadsGroup line ts nodes c) : c.rest.length < ts.length := by
  induction h with
  | semicolon _ _ ih => exact Nat.lt_succ_of_lt ih
  | comment _ _ ih => exact Nat.lt_succ_of_lt ih
  | close => exact Nat.lt_succ_self _
  | spec hs _ ih => exact Nat.lt_trans ih (length_of_readsSpec hs)

theorem readGroup_eq_ok {line : Option Nat} {ts : List Token} {nodes : List Node} {c : After ts} :
    readGroup line ts = .ok (nodes, c) ↔ ReadsGroup line ts nodes c.1 := by
  rcases c with ⟨c, hc⟩
  constructor
  · intro h
    induction line, ts using readGroup.induct generalizing nodes with
    | case1 => simp [readGroup] at h
    | case2 line t ts ht ih =>
        simp only [readGroup, ht, bind_eq_ok] at h
        obtain ⟨⟨nodes, ⟨d, hd'⟩⟩, hd, ⟨⟩⟩ := h
        exact .semicolon ht (ih hd' hd)
    | case3 line t ts text ht ih =>
        simp only [readGroup, ht, bind_eq_ok] at h
        obtain ⟨⟨nodes, ⟨d, hd'⟩⟩, hd, ⟨⟩⟩ := h
        exact .comment ht (ih hd' hd)
    | case4 line t ts ht =>
        simp only [readGroup, ht] at h
        cases h
        exact .close ht
    | case5 line t ts hsemicolon hcomment hclosing ih =>
        rw [readGroup] at h
        split at h
        · simp_all
        · simp_all
        · simp_all
        · obtain ⟨⟨node, d⟩, hd, h⟩ := bind_eq_ok.mp h
          obtain ⟨⟨nodes, ⟨e, he'⟩⟩, he, ⟨⟩⟩ := bind_eq_ok.mp h
          exact .spec (readSpec_eq_ok.mp hd) (ih d he' he)
  · intro h
    simp only at h
    induction h with
    | @semicolon _ t ts nodes c ht h ih =>
        have hlt := length_of_readsGroup h
        simp only [readGroup, ht]
        exact bind_eq_ok.mpr ⟨(nodes, ⟨c, hlt⟩), ih hlt, rfl⟩
    | @comment _ t ts _ nodes c ht h ih =>
        have hlt := length_of_readsGroup h
        simp only [readGroup, ht]
        exact bind_eq_ok.mpr ⟨(nodes, ⟨c, hlt⟩), ih hlt, rfl⟩
    | close ht =>
        simp only [readGroup, ht]
        rfl
    | @spec line t ts node nodes c d hs h ih =>
        have hc := length_of_readsSpec hs
        have hd := length_of_readsGroup h
        have hread : readSpec (line.getD t.line) (t :: ts) = .ok (node, ⟨c, hc⟩) :=
          readSpec_eq_ok.mpr hs
        obtain ⟨_, _, name, ⟨⟩, ht⟩ := head_of_readsSpec hs
        rw [readGroup]
        split
        · simp_all
        · simp_all
        · simp_all
        · exact bind_eq_ok.mpr ⟨_, hread, bind_eq_ok.mpr ⟨(nodes, ⟨d, hd⟩), ih hd, rfl⟩⟩

theorem length_of_reads {line : Nat} {ts : List Token} {nodes : List Node} {c : Cursor}
    (h : Reads line ts nodes c) : c.rest.length < ts.length := by
  cases h with
  | group _ hg => exact Nat.lt_succ_of_lt (length_of_readsGroup hg)
  | single hs => exact length_of_readsSpec hs

theorem read_eq_ok {line : Nat} {ts : List Token} {nodes : List Node} {c : After ts} :
    read line ts = .ok (nodes, c) ↔ Reads line ts nodes c.1 := by
  rcases c with ⟨c, hc⟩
  by_cases hround : nextIs (.opening .round) ts = true
  · rw [read, if_pos hround]
    constructor
    · intro h
      obtain ⟨⟨e, he'⟩, he, h⟩ := bind_eq_ok.mp h
      obtain ⟨t, us, rfl, ht, rfl⟩ := expect_eq_ok.mp he
      obtain ⟨⟨nodes, ⟨d, hd'⟩⟩, hd, ⟨⟩⟩ := bind_eq_ok.mp h
      exact .group ht (readGroup_eq_ok.mp hd)
    · intro h
      cases h with
      | @group t us _ _ ht hg =>
          refine bind_eq_ok.mpr ⟨⟨⟨t.line, us⟩, by simp⟩,
            expect_eq_ok.mpr ⟨t, us, rfl, ht, rfl⟩, ?_⟩
          exact bind_eq_ok.mpr ⟨(nodes, ⟨c, length_of_readsGroup hg⟩),
            readGroup_eq_ok.mpr hg, rfl⟩
      | single hs =>
          obtain ⟨t, us, name, rfl, ht⟩ := head_of_readsSpec hs
          simp [ht] at hround
  · rw [read, if_neg hround]
    constructor
    · intro h
      obtain ⟨⟨node, ⟨d, hd'⟩⟩, hd, ⟨⟩⟩ := bind_eq_ok.mp h
      exact .single (readSpec_eq_ok.mp hd)
    · intro h
      cases h with
      | group ht => simp [ht] at hround
      | @single _ node _ hs =>
          exact bind_eq_ok.mpr ⟨(node, ⟨c, hc⟩), readSpec_eq_ok.mpr hs, rfl⟩

end Decl

end DeclBridge
