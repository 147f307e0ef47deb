import DeclBridge.Proofs.Checked.TypeExpr
import DeclBridge.Node

/-!
The reader of declarations with an index, up to the nodes of a whole source text.
-/

namespace DeclBridge.Checked.Parser

open Cursor (After afterFirst nextIs expect identifier)
open Exec (Agrees)
open DeclBridge.Field (endsField endsEmbedded literal? readEnd readNames)
open Decl (endsDecl hasParameters withTrailing readTrailing readBody readSpec readGroup)

section Steps

variable (tokens : List Token)

def takeIf {α : Type} (p : Token → Option α) (i : Nat) : Exec Error (Option α × Nat) := do
  match p (← peek tokens i) with
  | some a =>
      let (_, i) ← advance tokens i
      return (some a, i)
  | none => return (none, i)

def finishField (names : List String) (type : TypeExpr) (i : Nat) : Exec Error (Field × Nat) := do
  let (tag, i) ← takeIf tokens literal? i
  if endsField (← peek tokens i).kind then return (⟨names, type, tag, []⟩, i)
  else unexpected tokens .fieldEnd i

def parseNames (tokens : Parser) (i : Nat) : Exec Error (List String × Nat) := do
  if ← check tokens .comma i then
    let (_, i) ← advance tokens i
    let (name, i) ← expectIdentifier tokens i
    let (names, i) ← tokens |>.parseNames i
    return (name :: names, i)
  else return ([], i)
partial_fixpoint

def parseField (i : Nat) : Exec Error (Field × Nat) := do
  if ← check tokens .star i then
    let (type, i) ← parseType tokens i
    finishField tokens [] type i
  else
    let (first, i) ← expectIdentifier tokens i
    if ← check tokens .dot i then
      let (type, i) ← parseMember tokens first i
      finishField tokens [] type i
    else if endsEmbedded (← peek tokens i).kind then finishField tokens [] (.named first) i
    else
      let (names, i) ← parseNames tokens i
      let (type, i) ← parseType tokens i
      finishField tokens (first :: names) type i

def parseFields (tokens : Parser) (lastLine : Nat) (doc : List Comment) (i : Nat) :
    Exec Error (List Field × Nat) := do
  let t ← peek tokens i
  match t.kind with
  | .semicolon =>
      let (_, i) ← advance tokens i
      tokens |>.parseFields lastLine doc i
  | .comment text =>
      let (_, i) ← advance tokens i
      tokens |>.parseFields lastLine (if t.line = lastLine then doc else doc ++ [⟨text, t.line⟩]) i
  | .closing .curly =>
      let (_, i) ← advance tokens i
      return ([], i)
  | .eof => throw .unexpectedEnd
  | _ =>
      let (field, i) ← parseField tokens i
      let last ← previous tokens i
      let (fields, i) ← tokens |>.parseFields last.line [] i
      return ({ field with doc } :: fields, i)
partial_fixpoint

/-- Whether the bracket at an index begins type parameters. -/
def atTypeParameters (i : Nat) : Bool :=
  let kind (n : Nat) := tokens[i + n]?.map Token.kind
  match kind 1, kind 2 with
  | some (.identifier _), some (.identifier _) => true
  | some (.identifier _), some (.keyword word) => [.interface, .map, .chan, .func].contains word
  | some (.identifier _), some (.opening .square) => true
  | some (.identifier _), some .comma => true
  | some (.identifier _), some (.operator text) => text == "~"
  | some (.identifier _), some .star =>
      match kind 3, kind 4 with
      | some (.identifier _), some .comma => true
      | _, _ => false
  | _, _ => false

/-- Takes a comment on the line of the last token, the semicolon of a line break before it. -/
def trailingComment (i : Nat) : Exec Error (Option Comment × Nat) := do
  let lastLine := (← previous tokens i).line
  let j := if (tokens[i]?.map Token.isLineEnd).getD false then i + 1 else i
  match tokens[j]?.bind fun t => (Comment.ofToken? t).filter (·.line = lastLine) with
  | some comment => return (some comment, j + 1)
  | none => return (none, i)

def parseBody (name : String) (line : Nat) (i : Nat) : Exec Error (Decl × Nat) := do
  if ← check tokens (.keyword .struct) i then
    let (_, i) ← consume tokens (.keyword .struct) i
    let (_, i) ← consume tokens (.opening .curly) i
    let (fields, i) ← parseFields tokens 0 [] i
    return (.record ⟨name, line, fields, [], none⟩, i)
  else
    let (type, i) ← parseType tokens i
    return (.alias ⟨name, line, type, [], none⟩, i)

def parseTypeSpec (line i : Nat) : Exec Error (Node × Nat) := do
  let (name, i) ← expectIdentifier tokens i
  if (← check tokens (.opening .square) i) && atTypeParameters tokens i then
    let i ← skipDeclaration tokens 0 i
    return (.other ("generic type " ++ name), i)
  else
    let (_, i) ← takeIf tokens (fun t => if t.kind = .assign then some t else none) i
    let (decl, i) ← parseBody tokens name line i
    let t ← peek tokens i
    if endsDecl t.kind || t.kind == .eof then
      let (trailing, i) ← trailingComment tokens i
      return (.decl (decl.withTrailing trailing), i)
    else unexpected tokens .declarationEnd i

def parseGroup (tokens : Parser) (line : Option Nat) (i : Nat) : Exec Error (List Node × Nat) := do
  let t ← peek tokens i
  match t.kind with
  | .semicolon =>
      let (_, i) ← advance tokens i
      tokens |>.parseGroup line i
  | .comment text =>
      let (_, i) ← advance tokens i
      let (nodes, i) ← tokens |>.parseGroup none i
      return (.comment ⟨text, t.line⟩ :: nodes, i)
  | .closing .round =>
      let (_, i) ← advance tokens i
      return ([], i)
  | .eof => throw .unexpectedEnd
  | _ =>
      let (node, i) ← parseTypeSpec tokens (line.getD t.line) i
      let (nodes, i) ← tokens |>.parseGroup none i
      return (node :: nodes, i)
partial_fixpoint

/-- Takes a type declaration. -/
def parseTypeDecl (i : Nat) : Exec Error (List Node × Nat) := do
  let (keyword, i) ← consume tokens (.keyword .type) i
  if ← check tokens (.opening .round) i then
    let (_, i) ← advance tokens i
    parseGroup tokens (some keyword.line) i
  else
    let (node, i) ← parseTypeSpec tokens keyword.line i
    return ([node], i)

/-- Takes all nodes from an index on. -/
def parse (tokens : Parser) (i : Nat) : Exec Error (List Node) := do
  let t ← peek tokens i
  match t.kind with
  | .eof => return []
  | .semicolon =>
      let (_, i) ← advance tokens i
      tokens |>.parse i
  | .comment text =>
      let (_, i) ← advance tokens i
      return .comment ⟨text, t.line⟩ :: (← tokens |>.parse i)
  | .keyword .package =>
      let (_, i) ← advance tokens i
      let (name, i) ← expectIdentifier tokens i
      return .other ("package " ++ name) :: (← tokens |>.parse i)
  | .keyword .type =>
      let (nodes, i) ← parseTypeDecl tokens i
      return nodes ++ (← tokens |>.parse i)
  | .keyword .imports | .keyword .func | .keyword .var | .keyword .const =>
      let (keyword, i) ← advance tokens i
      let i ← skipDeclaration tokens 0 i
      return .other keyword.lexeme :: (← tokens |>.parse i)
  | _ => unexpected tokens .declaration i
partial_fixpoint

end Steps

variable {tokens ts : List Token} {i : Nat}

theorem takeIf_cons {α : Type} (p : Token → Option α) {line : Nat} {t : Token} {us : List Token}
    (hlt : (t :: us).length < ts.length) :
    After.takeIf (⟨⟨line, t :: us⟩, hlt⟩ : After ts) p =
      (p t, if (p t).isSome then ⟨⟨t.line, us⟩, Nat.lt_of_succ_lt hlt⟩
        else ⟨⟨line, t :: us⟩, hlt⟩) := by
  simp only [After.takeIf]
  cases p t <;> rfl

theorem takeIf_behind {α : Type} {p : Token → Option α} (hp : ∀ t, t.kind = .eof → p t = none)
    {c : After ts} (h : Behind tokens i c.1) :
    tokens[i]?.bind p = (c.takeIf p).1 ∧
      Behind tokens (if (c.takeIf p).1.isSome then i + 1 else i) (c.takeIf p).2.1 := by
  obtain ⟨⟨line, rest⟩, hlt⟩ := c
  cases rest with
  | nil =>
      obtain ⟨last, hlast, heof⟩ := h.rest.getElem?_end
      rw [hlast]
      exact ⟨hp last heof, h⟩
  | cons t us =>
      rw [takeIf_cons, h.rest.getElem?]
      cases hpt : p t with
      | none => exact ⟨hpt, h⟩
      | some a => exact ⟨hpt, h.rest.behind⟩

theorem takeIf_eq {α : Type} {p : Token → Option α} (hp : ∀ t, t.kind = .eof → p t = none)
    {c : After ts} (h : Behind tokens i c.1) :
    ∃ j, takeIf tokens p i = pure ((c.takeIf p).1, j) ∧ Behind tokens j (c.takeIf p).2.1 := by
  obtain ⟨⟨line, rest⟩, hlt⟩ := c
  cases rest with
  | nil =>
      obtain ⟨last, hpeek, heof⟩ := h.rest.peek_end
      refine ⟨i, ?_, h⟩
      rw [takeIf, hpeek, pure_bind, hp last heof]
      rfl
  | cons t us =>
      rw [takeIf_cons, takeIf, h.rest.peek, pure_bind]
      cases p t with
      | none => exact ⟨i, rfl, h⟩
      | some a =>
          simp only [h.rest.advance, pure_bind]
          exact ⟨i + 1, rfl, h.rest.behind⟩

theorem finishField_reads {c : After ts} (h : Behind tokens i c.1) (names : List String)
    (type : TypeExpr) : Reads tokens (finishField tokens names type i) (readEnd names type c) := by
  have hliteral : ∀ t : Token, t.kind = .eof → literal? t = none := by
    intro t ht
    simp [literal?, ht]
  obtain ⟨j, htake, hj⟩ := takeIf_eq hliteral h
  obtain ⟨t, ht, hends⟩ := hj.rest.peek_any (p := endsField) rfl
  rw [finishField, htake]
  simp only [pure_bind, ht, hends, readEnd]
  split
  · exact .pure ⟨rfl, hj⟩
  · rw [hj.rest.unexpected]
    exact .throw _

theorem parseNames_agrees {line : Nat} (h : Behind tokens i ⟨line, ts⟩) :
    Agrees (fun a b => a.1 = b.1 ∧ Behind tokens a.2 b.2.1) (parseNames tokens i)
      (readNames line ts) := by
  induction line, ts using DeclBridge.Field.readNames.induct generalizing i with
  | case1 line ts hcomma ih =>
      rw [parseNames, readNames, h.rest.check, pure_bind, hcomma]
      refine (advance_agrees h.rest hcomma).bind ?_
      rintro ⟨_, j⟩ c hc
      refine (expectIdentifier_reads hc.rest).bind ?_
      rintro ⟨name, k⟩ ⟨_, d⟩ ⟨rfl, hd⟩
      refine (ih c d hd).bind ?_
      rintro ⟨names, l⟩ ⟨_, e⟩ ⟨rfl, he⟩
      exact .pure ⟨rfl, he⟩
  | case2 line ts hcomma =>
      rw [parseNames, readNames, h.rest.check, pure_bind, if_neg hcomma, if_neg hcomma]
      exact .pure ⟨rfl, h⟩

theorem parseField_reads (h : Rest tokens i ts) :
    Reads tokens (parseField tokens i) (Field.read ts) := by
  rw [parseField, Field.read, h.check, pure_bind]
  split
  · refine (parseType_reads h).bind ?_
    rintro ⟨type, j⟩ ⟨_, c⟩ ⟨rfl, hc⟩
    exact finishField_reads hc _ _
  · refine (expectIdentifier_reads h).bind ?_
    rintro ⟨first, j⟩ ⟨_, c⟩ ⟨rfl, hc⟩
    obtain ⟨t, ht, hends⟩ := hc.rest.peek_any (p := endsEmbedded) rfl
    simp only [hc.rest.check, pure_bind, ht, hends]
    split
    · refine (parseMember_reads hc first).bind ?_
      rintro ⟨type, k⟩ ⟨_, d⟩ ⟨rfl, hd⟩
      exact finishField_reads hd _ _
    · split
      · exact finishField_reads hc _ _
      · refine (parseNames_agrees hc).bind ?_
        rintro ⟨names, k⟩ ⟨_, d⟩ ⟨rfl, hd⟩
        refine (parseType_reads hd.rest).bind ?_
        rintro ⟨type, l⟩ ⟨_, e⟩ ⟨rfl, he⟩
        exact finishField_reads (c := c.within d.2 e) he _ _

theorem parseFields_reads (h : Rest tokens i ts) (lastLine : Nat) (doc : List Comment) :
    Reads tokens (parseFields tokens lastLine doc i) (Field.readAll lastLine doc ts) := by
  induction hlength : ts.length using Nat.strongRecOn generalizing i lastLine doc ts with
  | _ n ih =>
      subst hlength
      cases ts with
      | nil =>
          obtain ⟨last, hpeek, hlast⟩ := h.peek_end
          rw [parseFields, hpeek, Field.readAll]
          simp only [pure_bind, hlast]
          exact .throw _
      | cons t ts =>
          have hnext (lastLine : Nat) (doc : List Comment) :=
            ih ts.length (Nat.lt_succ_self _) h.next lastLine doc rfl
          have hfield : Reads tokens (do
              let a ← parseField tokens i
              let last ← previous tokens a.2
              let b ← parseFields tokens last.line [] a.2
              return ({ a.1 with doc } :: b.1, b.2))
            (do
              let a ← Field.read (t :: ts)
              let b ← Field.readAll a.2.1.line [] a.2.1.rest
              return ({ a.1 with doc } :: b.1, a.2.trans b.2)) := by
            refine (parseField_reads h).bind ?_
            rintro ⟨field, j⟩ ⟨_, c⟩ ⟨rfl, hc⟩
            obtain ⟨last, hlast, hline⟩ := hc.previous
            simp only [hlast, pure_bind, hline]
            refine (ih _ c.2 hc.rest _ _ rfl).bind ?_
            rintro ⟨fields, k⟩ ⟨_, d⟩ ⟨rfl, hd⟩
            exact .pure ⟨rfl, hd⟩
          rw [parseFields, h.peek, Field.readAll]
          simp only [pure_bind, h.advance]
          cases hkind : t.kind with
          | semicolon => exact (hnext _ _).map_right fun _ _ hab => hab
          | comment text => exact (hnext _ _).map_right fun _ _ hab => hab
          | closing bracket =>
              cases bracket with
              | curly => exact .pure ⟨rfl, h.behind⟩
              | _ => exact hfield
          | eof => exact absurd hkind h.kind_ne
          | _ => exact hfield

theorem atTypeParameters_eq (h : Rest tokens i ts) :
    atTypeParameters tokens i = hasParameters ts := by
  simp only [atTypeParameters, h.kind_getElem?]
  match ts with
  | [] => rfl
  | [_] => rfl
  | [_, t] =>
      simp only [hasParameters, List.map_cons, List.map_nil, List.cons_append, List.nil_append,
        List.getElem?_cons_succ, List.getElem?_cons_zero]
      cases t.kind <;> rfl
  | [_, t, u] =>
      simp only [hasParameters, List.map_cons, List.map_nil, List.cons_append, List.nil_append,
        List.getElem?_cons_succ, List.getElem?_cons_zero]
      cases t.kind with
      | identifier =>
          cases u.kind with
          | opening bracket => cases bracket <;> rfl
          | _ => rfl
      | _ => rfl
  | [_, t, u, v] =>
      simp only [hasParameters, List.map_cons, List.map_nil, List.cons_append, List.nil_append,
        List.getElem?_cons_succ, List.getElem?_cons_zero]
      cases t.kind with
      | identifier =>
          cases u.kind with
          | opening bracket => cases bracket <;> rfl
          | star => cases v.kind <;> rfl
          | _ => rfl
      | _ => rfl
  | _ :: t :: u :: v :: w :: us =>
      simp only [hasParameters, List.map_cons, List.cons_append,
        List.getElem?_cons_succ, List.getElem?_cons_zero]
      cases t.kind with
      | identifier =>
          cases u.kind with
          | opening bracket => cases bracket <;> rfl
          | star =>
              cases v.kind with
              | identifier => cases w.kind <;> rfl
              | _ => rfl
          | _ => rfl
      | _ => rfl

theorem trailingComment_eq {c : After ts} (h : Behind tokens i c.1) :
    ∃ j, trailingComment tokens i = pure ((readTrailing c).1, j) ∧
      Behind tokens j (readTrailing c).2.1 := by
  obtain ⟨t, ht, hline⟩ := h.previous
  have hlineEnd : ∀ t : Token, t.kind = .eof → (if t.isLineEnd then some t else none) = none := by
    intro t ht
    simp [Token.isLineEnd, ht]
  have hcomment : ∀ t : Token, t.kind = .eof →
      (Comment.ofToken? t).filter (·.line = c.1.line) = none := by
    intro t ht
    simp [Comment.ofToken?, ht]
  obtain ⟨hfirst, hd⟩ := takeIf_behind hlineEnd h
  obtain ⟨hsecond, he⟩ := takeIf_behind hcomment hd
  rw [trailingComment, ht]
  simp only [pure_bind, hline, readTrailing]
  have hj : (if (tokens[i]?.map Token.isLineEnd).getD false = true then i + 1 else i) =
      if (c.takeIf fun t => if t.isLineEnd then some t else none).1.isSome then i + 1 else i := by
    rw [← hfirst]
    cases tokens[i]? with
    | none => rfl
    | some t => cases ht : t.isLineEnd <;> simp [ht]
  rw [hj, hsecond]
  generalize After.takeIf _ _ = taken at he ⊢
  obtain ⟨comment?, e⟩ := taken
  cases comment? with
  | some comment => exact ⟨_, rfl, he⟩
  | none => exact ⟨i, rfl, h⟩

theorem parseBody_reads (h : Rest tokens i ts) (name : String) (line : Nat) :
    Reads tokens (parseBody tokens name line i) (readBody name line ts) := by
  rw [parseBody, readBody, h.check, pure_bind]
  split
  · refine (consume_agrees h _).bind ?_
    rintro ⟨_, j⟩ c hc
    refine (consume_agrees hc.rest _).bind ?_
    rintro ⟨_, k⟩ d hd
    refine (parseFields_reads hd.rest _ _).bind ?_
    rintro ⟨fields, l⟩ ⟨_, e⟩ ⟨rfl, he⟩
    exact .pure ⟨rfl, he⟩
  · refine (parseType_reads h).bind ?_
    rintro ⟨type, j⟩ ⟨_, c⟩ ⟨rfl, hc⟩
    exact .pure ⟨rfl, hc⟩

theorem peek_endsDecl (h : Rest tokens i ts) :
    ∃ t, peek tokens i = pure t ∧
      (endsDecl t.kind || t.kind == .eof) = ts.head?.all (endsDecl ·.kind) := by
  cases ts with
  | nil =>
      obtain ⟨last, hlast, heof⟩ := h.peek_end
      exact ⟨last, hlast, by simp [heof]⟩
  | cons t ts => exact ⟨t, h.peek, by simp [beq_false_of_ne h.kind_ne]⟩

theorem parseTypeSpec_reads (h : Rest tokens i ts) (line : Nat) :
    Reads tokens (parseTypeSpec tokens line i) (readSpec line ts) := by
  rw [parseTypeSpec, readSpec]
  refine (expectIdentifier_reads h).bind ?_
  rintro ⟨name, j⟩ ⟨_, c⟩ ⟨rfl, hc⟩
  simp only [hc.rest.check, pure_bind, atTypeParameters_eq hc.rest]
  split
  · obtain ⟨k, hk, hdeclaration⟩ := skipDeclaration_eq 0 hc
    rw [hk]
    exact .pure ⟨rfl, hdeclaration⟩
  · have hassign : ∀ t : Token, t.kind = .eof →
        (if t.kind = .assign then some t else none) = none := by
      intro t ht
      simp [ht]
    obtain ⟨k, hk, hd⟩ := takeIf_eq hassign hc
    simp only [hk, pure_bind]
    refine (parseBody_reads hd.rest name line).bind ?_
    rintro ⟨decl, l⟩ ⟨_, e⟩ ⟨rfl, he⟩
    have hf : Behind tokens l (After.trans _ e).1 := he
    generalize After.trans _ e = f at hf ⊢
    obtain ⟨t, ht, hends⟩ := peek_endsDecl hf.rest
    simp only [ht, hends, pure_bind]
    split
    · obtain ⟨m, hm, htrailing⟩ := trailingComment_eq hf
      simp only [hm, pure_bind]
      exact .pure ⟨rfl, htrailing⟩
    · rw [hf.rest.unexpected]
      exact .throw _

theorem parseGroup_reads (h : Rest tokens i ts) (line : Option Nat) :
    Reads tokens (parseGroup tokens line i) (readGroup line ts) := by
  induction hlength : ts.length using Nat.strongRecOn generalizing i line ts with
  | _ n ih =>
      subst hlength
      cases ts with
      | nil =>
          obtain ⟨last, hpeek, hlast⟩ := h.peek_end
          rw [parseGroup, hpeek, readGroup]
          simp only [pure_bind, hlast]
          exact .throw _
      | cons t ts =>
          have hnext (line : Option Nat) := ih ts.length (Nat.lt_succ_self _) h.next line rfl
          have hspec : Reads tokens (do
              let a ← parseTypeSpec tokens (line.getD t.line) i
              let b ← parseGroup tokens none a.2
              return (a.1 :: b.1, b.2))
            (do
              let a ← readSpec (line.getD t.line) (t :: ts)
              let b ← readGroup none a.2.1.rest
              return (a.1 :: b.1, a.2.trans b.2)) := by
            refine (parseTypeSpec_reads h _).bind ?_
            rintro ⟨node, j⟩ ⟨_, c⟩ ⟨rfl, hc⟩
            refine (ih _ c.2 hc.rest none rfl).bind ?_
            rintro ⟨nodes, k⟩ ⟨_, d⟩ ⟨rfl, hd⟩
            exact .pure ⟨rfl, hd⟩
          rw [parseGroup, h.peek, readGroup]
          simp only [pure_bind, h.advance]
          cases hkind : t.kind with
          | semicolon => exact (hnext _).map_right fun _ _ hab => hab
          | comment text =>
              refine (hnext none).bind ?_
              rintro ⟨nodes, j⟩ ⟨_, c⟩ ⟨rfl, hc⟩
              exact .pure ⟨rfl, hc⟩
          | closing bracket =>
              cases bracket with
              | round => exact .pure ⟨rfl, h.behind⟩
              | _ => exact hspec
          | eof => exact absurd hkind h.kind_ne
          | _ => exact hspec

theorem parseTypeDecl_agrees {t : Token} (h : Rest tokens i (t :: ts))
    (ht : t.kind = .keyword .type) :
    Reads tokens (parseTypeDecl tokens i) (Decl.read t.line ts) := by
  have hconsume : consume tokens (.keyword .type) i = pure (t, i + 1) := by
    rw [consume, h.check]
    simp [nextIs, ht, h.advance]
  rw [parseTypeDecl, hconsume, Decl.read]
  simp only [pure_bind, h.next.check]
  split
  · rename_i hround
    refine (advance_agrees h.next hround).bind ?_
    rintro ⟨_, j⟩ c hc
    exact (parseGroup_reads hc.rest _).map_right fun _ _ hab => hab
  · refine (parseTypeSpec_reads h.next _).bind ?_
    rintro ⟨node, j⟩ ⟨_, c⟩ ⟨rfl, hc⟩
    exact .pure ⟨rfl, hc⟩

/-- The reader with an index reads the nodes of the tokens, and goes nowhere behind the mark of the
end. -/
theorem parse_agrees (h : Rest tokens i ts) :
    Agrees (· = ·) (parse tokens i) (Node.readAll ts) := by
  induction hlength : ts.length using Nat.strongRecOn generalizing i ts with
  | _ n ih =>
      subst hlength
      cases ts with
      | nil =>
          obtain ⟨last, hpeek, hlast⟩ := h.peek_end
          rw [parse, hpeek, Node.readAll]
          simp only [pure_bind, hlast]
          exact .pure rfl
      | cons t ts =>
          have hnext := ih ts.length (Nat.lt_succ_self _) h.next rfl
          -- Declarations of other things than types are skipped alike.
          have hother : Agrees (· = ·) (do
              let j ← skipDeclaration tokens 0 (i + 1)
              return .other t.lexeme :: (← parse tokens j))
            (do return .other t.lexeme ::
              (← Node.readAll (afterFirst t ts).skipDeclaration.1.rest)) := by
            obtain ⟨j, hj, hdeclaration⟩ := skipDeclaration_eq 0 h.behind
            rw [hj, pure_bind]
            refine (ih _ (afterFirst t ts).skipDeclaration.2 hdeclaration.rest rfl).bind ?_
            rintro nodes _ rfl
            exact .pure rfl
          rw [parse, h.peek, Node.readAll]
          simp only [pure_bind, h.advance]
          cases hkind : t.kind with
          | semicolon => exact hnext
          | comment text =>
              refine hnext.bind ?_
              rintro nodes _ rfl
              exact .pure rfl
          | keyword word =>
              cases word with
              | package =>
                  refine (expectIdentifier_reads h.next).bind ?_
                  rintro ⟨name, j⟩ ⟨_, c⟩ ⟨rfl, hc⟩
                  refine (ih _ (Nat.lt_succ_of_lt c.2) hc.rest rfl).bind ?_
                  rintro nodes _ rfl
                  exact .pure rfl
              | type =>
                  refine (parseTypeDecl_agrees h hkind).bind ?_
                  rintro ⟨nodes, j⟩ ⟨_, c⟩ ⟨rfl, hc⟩
                  refine (ih _ (Nat.lt_succ_of_lt c.2) hc.rest rfl).bind ?_
                  rintro more _ rfl
                  exact .pure rfl
              | imports | func | var | const => exact hother
              | _ => simp only [h.unexpected]; exact .throw _
          | eof => exact absurd hkind h.kind_ne
          | _ => simp only [h.unexpected]; exact .throw _

end DeclBridge.Checked.Parser
