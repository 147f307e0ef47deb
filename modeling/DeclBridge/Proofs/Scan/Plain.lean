import DeclBridge.Proofs.Scan.Returns
import DeclBridge.Tag.Literal

/-!
The tokens of a text without its carriage returns. They are the tokens of the text on the same
lines, but for the carriage returns inside comments and raw strings.
-/

namespace DeclBridge

open Text (withoutReturns ReturnsEndLines withoutReturns_cons withoutReturns_return)

namespace Token

/-- The text of a comment. A block comment loses the carriage returns at the ends of its lines; no
line of a line comment has one. -/
def plainComment (text : List Char) : List Char :=
  if ['/', '*'].isPrefixOf text ∧ ReturnsEndLines text then withoutReturns text else text

/-- The text of a string literal. A raw one loses its carriage returns. -/
def plainLiteral (text : List Char) : List Char :=
  if text.head? = some '`' ∧ text.tail.getLast? = some '`' then withoutReturns text else text

namespace Kind

/-- Whether the token is a comment or a string, the only ones with line breaks in them. -/
def isText : Kind → Bool
  | comment _ | string _ => true
  | _ => false

/-- The kind without carriage returns in its text. -/
def plain : Kind → Kind
  | comment text => comment (String.ofList (plainComment text.toList))
  | string text => string (String.ofList (plainLiteral text.toList))
  | kind => kind

theorem plain_of_isText {kind : Kind} (h : kind.isText = false) : kind.plain = kind := by
  cases kind <;> first | rfl | cases h

end Kind

/-- The token without carriage returns in its text. -/
def plain (t : Token) : Token :=
  { t with
    kind := t.kind.plain
    lexeme := if t.kind.isText then String.ofList (withoutReturns t.lexeme.toList) else t.lexeme }

variable {c : Char} {cs text : List Char} {shape : Shape} {n : Nat} {t : Token}

theorem plain_of_isText (h : t.kind.isText = false) : t.plain = t := by
  rw [plain, Kind.plain_of_isText h, h]
  rfl

theorem plainComment_of_not_mem (h : '\r' ∉ text) : plainComment text = text := by
  rw [plainComment]
  split
  · exact Text.withoutReturns_of_not_mem h
  · rfl

theorem plainLiteral_of_not_mem (h : '\r' ∉ text) : plainLiteral text = text := by
  rw [plainLiteral]
  split
  · exact Text.withoutReturns_of_not_mem h
  · rfl

/-- Carriage returns at the end are dropped; there is at most one, and none else. -/
theorem Shape.dropReturns_eq (h : '\r' ∉ text.dropLast) :
    dropReturns text = withoutReturns text := by
  have hplain : ∀ cs : List Char, '\r' ∉ cs → dropReturns cs = cs := by
    intro cs hcs
    rcases List.eq_nil_or_concat cs with rfl | ⟨front, c, rfl⟩
    · rfl
    · have hc : c ≠ '\r' := by
        rintro rfl
        simp at hcs
      simp [dropReturns, hc]
  have hdrop := hplain _ (Text.not_mem_withoutReturns text)
  have hlast : ∀ cs : List Char, dropReturns (cs ++ ['\r']) = dropReturns cs := by
    intro cs
    simp [dropReturns]
  rcases Text.eq_withoutReturns h with htext | htext
  · rw [← htext] at hdrop ⊢
    exact hdrop
  · conv_lhs => rw [htext, hlast, hdrop]

theorem isText_of_extent (h : extent c cs = .ok (shape, n))
    (hshape : shape ≠ .comment ∧ shape ≠ .string) (text : List Char) :
    (shape.kind text).isText = false := by
  cases shape with
  | comment => exact absurd rfl hshape.1
  | string => exact absurd rfl hshape.2
  | rune | int | float => rfl
  | word | operator => 
      simp only [Shape.kind]
      repeat' split
      all_goals rfl
  | exact kind =>
      have hall : ∀ kind ∈ exactKinds, kind.isText = false := by decide
      exact hall kind (mem_exactKinds_of_extent h)

theorem getLast?_of_blockComment {rest : List Char} (h : Reach.blockComment 1 rest = some n) :
    ('/' :: ('*' :: rest).take n).getLast? = some '/' := by
  obtain ⟨as, bs, rfl, rfl, has⟩ := Reach.blockComment_ends h
  rw [Nat.add_comm, List.take_succ_cons, List.take_left, List.getLast?_cons, List.getLast?_cons,
    Reach.getLast?_of_blockComment has]
  rfl

theorem getLast?_of_raw {m : Nat} (h : Reach.raw m cs = some n) :
    (cs.take (n - m)).getLast? = some '`' := by
  fun_induction Reach.raw m cs with
  | case1 => simp at h
  | case2 m cs =>
      cases h
      simp
  | case3 m c cs hc ih =>
      have hle : m + 1 ≤ n := by
        obtain ⟨as, -, -, rfl, -⟩ := Reach.raw_ends h
        omega
      have hlast := ih h
      rw [show n - m = (n - (m + 1)) + 1 by omega, List.take_succ_cons, List.getLast?_cons, hlast]
      rfl

/-- The text of a comment is free of carriage returns but for those that plain text loses. -/
theorem plainComment_dropReturns (hcs : ReturnsEndLines cs)
    (h : extent c cs = .ok (.comment, n)) :
    plainComment (Shape.dropReturns (c :: cs.take n)) = withoutReturns (c :: cs.take n) := by
  rw [extent_eq_ok] at h
  cases h with
  | @lineComment rest _ h =>
      have hbreak : '\n' ∉ '/' :: '/' :: rest.takeWhile (· != '\n') := by
        simp only [List.mem_cons, not_or]
        refine ⟨by decide, by decide, fun hmem => ?_⟩
        simpa using List.all_eq_true.mp List.all_takeWhile _ hmem
      have happend : ReturnsEndLines
          ('/' :: '/' :: rest.takeWhile (· != '\n') ++ rest.dropWhile (· != '\n')) := by
        rw [List.cons_append, List.cons_append, List.takeWhile_append_dropWhile]
        exact ⟨fun heq => absurd heq (by decide), hcs⟩
      rw [← h, Reach.take_lineComment, Shape.dropReturns_eq (happend.not_mem_dropLast hbreak),
        plainComment_of_not_mem (Text.not_mem_withoutReturns _)]
  | @blockComment rest _ h =>
      have hlast := getLast?_of_blockComment h
      have hlines : ReturnsEndLines ('/' :: ('*' :: rest).take n) := by
        have happend : ReturnsEndLines ('/' :: ('*' :: rest).take n ++ ('*' :: rest).drop n) := by
          rw [List.cons_append, List.take_append_drop]
          exact ⟨fun heq => absurd heq (by decide), hcs⟩
        exact happend.of_append (by rw [hlast]; decide)
      rw [Shape.dropReturns_of_getLast? hlast, plainComment, if_pos]
      refine ⟨?_, hlines⟩
      obtain ⟨k, rfl, -⟩ := Reach.blockComment_withoutReturns hcs.2 h
      rw [Nat.add_comm, List.take_succ_cons]
      rfl

theorem plainLiteral_take (hcs : ReturnsEndLines cs) (h : extent c cs = .ok (.string, n)) :
    plainLiteral (c :: cs.take n) = withoutReturns (c :: cs.take n) := by
  rw [extent_eq_ok] at h
  cases h with
  | quoted h =>
      obtain ⟨-, k, rfl, hk⟩ := Reach.quoted_withoutReturns hcs h
      have hmem : '\r' ∉ '"' :: cs.take (0 + k) := by
        rw [Nat.zero_add, List.mem_cons, not_or]
        exact ⟨by decide, hk⟩
      rw [plainLiteral_of_not_mem hmem, Text.withoutReturns_of_not_mem hmem]
  | raw h => rw [plainLiteral, if_pos ⟨rfl, getLast?_of_raw h⟩]

end Token

namespace Mark

open Token (Shape extent Moves plainComment plainLiteral)
open Token.Reach (isSpace)

variable {c : Char} {cs ds : List Char} {shape : Shape} {n : Nat} {p q r : Position}
  {marks : List Mark}

/-- A token without carriage returns in its text is the token of the text without them. -/
theorem plain_tokenAt (hcs : ReturnsEndLines cs) (h : extent c cs = .ok (shape, n))
    (p : Position) : (tokenAt p shape (c :: cs.take n)).plain =
      tokenAt p shape (withoutReturns (c :: cs.take n)) := by
  by_cases hcomment : shape = .comment
  · subst hcomment
    have hdrop : Shape.dropReturns (withoutReturns (c :: cs.take n)) =
        withoutReturns (c :: cs.take n) := by
      rw [Shape.dropReturns_eq, Text.withoutReturns_of_not_mem (Text.not_mem_withoutReturns _)]
      exact fun hmem => Text.not_mem_withoutReturns _ (List.dropLast_subset _ hmem)
    simp only [tokenAt, Token.plain, Shape.kind, Token.Kind.plain, Token.Kind.isText, if_true,
      String.toList_ofList, Token.plainComment_dropReturns hcs h, hdrop]
  · by_cases hstring : shape = .string
    · subst hstring
      simp only [tokenAt, Token.plain, Shape.kind, Token.Kind.plain, Token.Kind.isText, if_true,
        String.toList_ofList, Token.plainLiteral_take hcs h]
    · have hmem : '\r' ∉ c :: cs.take n := by
        rw [List.mem_cons, not_or]
        refine ⟨?_, by simpa [hcomment, hstring] using Token.not_mem_take_of_returnsEndLines hcs h⟩
        rintro rfl
        have hspace := Token.isSpace_of_extent h
        revert hspace
        decide
      rw [Text.withoutReturns_of_not_mem hmem]
      exact Token.plain_of_isText (Token.isText_of_extent h ⟨hcomment, hstring⟩ _)

/-- The second marks are the first ones without carriage returns in them, on the same lines. -/
inductive Restates : List Mark → List Mark → Prop where
  | nil : Restates [] []
  | lineBreak {p q : Position} {marks more : List Mark} :
      q.line = p.line → Restates marks more →
      Restates (.lineBreak p :: marks) (.lineBreak q :: more)
  | token {t u : Token} {marks more : List Mark} :
      Moves 0 t.plain u → Restates marks more → Restates (.token t :: marks) (.token u :: more)

theorem line_behind (p : Position) (shape : Shape) (text : List Char) :
    (behind p shape text).line = p.line + if shape = .rune then 0 else text.count '\n' := by
  rw [behind]
  split
  · rfl
  · exact Position.line_afterAll p text

/-- Where a line break follows on every carriage return, a text has the same marks without them. -/
theorem Scans.withoutReturns (h : Scans p cs marks q ds) (hcs : ReturnsEndLines cs)
    (hp : r.line = p.line) :
    ∃ marks' q', Scans r (Text.withoutReturns cs) marks' q' (Text.withoutReturns ds) ∧
      q'.line = q.line ∧ Restates marks marks' := by
  induction h generalizing r with
  | done => exact ⟨[], r, .done, hp, .nil⟩
  | @blank p q c cs ds marks hc _ ih =>
      -- Without the carriage return the column is another one, but not the line.
      by_cases hreturn : c = '\r'
      · subst hreturn
        rw [withoutReturns_return]
        exact ih hcs.2 hp
      · obtain ⟨marks', q', hscans, hq, hmarks⟩ := ih (r := r.shift 1) hcs.2 hp
        rw [withoutReturns_cons hreturn]
        exact ⟨marks', q', .blank hc hscans, hq, hmarks⟩
  | @lineBreak p q cs ds marks _ ih =>
      obtain ⟨marks', q', hscans, hq, hmarks⟩ :=
        ih (r := ⟨r.line + 1, 1⟩) hcs.2 (congrArg (· + 1) hp)
      rw [withoutReturns_cons (by decide)]
      exact ⟨_, q', .lineBreak hscans, hq, .lineBreak hp hmarks⟩
  | @token p q c cs ds shape n marks hc hn _ ih =>
      have hreturn : c ≠ '\r' := by
        rintro rfl
        revert hc
        decide
      have htext : Text.withoutReturns (c :: cs.take n) = c :: Text.withoutReturns (cs.take n) :=
        withoutReturns_cons hreturn
      have hplace : (behind r shape (Text.withoutReturns (c :: cs.take n))).line =
          (behind p shape (c :: cs.take n)).line := by
        rw [line_behind, line_behind, Text.count_withoutReturns, hp]
      obtain ⟨marks', q', hscans, hq, hmarks⟩ := ih (hcs.2.drop n) hplace
      rw [← Text.drop_withoutReturns cs n, htext] at hscans
      rw [withoutReturns_cons hreturn]
      have hextent := Token.extent_withoutReturns hcs.2 hn
      have htoken := Scans.token (p := r) hc hextent (by rwa [Text.take_withoutReturns])
      refine ⟨_, q', htoken, hq, .token ?_ hmarks⟩
      rw [plain_tokenAt hcs.2 hn, Text.take_withoutReturns, htext]
      exact ⟨rfl, rfl, hp⟩

end Mark

namespace Token

open Mark (Restates)

variable {last last' p p' : Position} {pending pending' : Option (List Token)}
  {marks marks' : List Mark} {comments comments' ts us vs ws : List Token}

theorem isSome_innerBreak?_plain (t : Token) :
    t.plain.innerBreak?.isSome = t.innerBreak?.isSome := by
  have hcontains : t.plain.lexeme.toList.contains '\n' = t.lexeme.toList.contains '\n' := by
    rw [plain]
    split
    · simp [Text.mem_withoutReturns]
    · rfl
  simp only [innerBreak?, hcontains]
  split <;> rfl

@[simp]
theorem Kind.isComment_plain (kind : Kind) : kind.plain.isComment = kind.isComment := by
  cases kind <;> rfl

@[simp]
theorem Kind.endsStatement_plain (kind : Kind) : kind.plain.endsStatement = kind.endsStatement := by
  cases kind <;> rfl

theorem Moves.isComment {t u : Token} (h : Moves 0 t.plain u) :
    u.kind.isComment = t.kind.isComment := by
  rw [h.kind]
  exact t.kind.isComment_plain

theorem Moves.endsStatement {t u : Token} (h : Moves 0 t.plain u) :
    u.kind.endsStatement = t.kind.endsStatement := by
  rw [h.kind]
  exact t.kind.endsStatement_plain

theorem Moves.isSome_innerBreak? {t u : Token} (h : Moves 0 t.plain u) :
    u.innerBreak?.isSome = t.innerBreak?.isSome := by
  rw [innerBreak?_isSome h.lexeme, isSome_innerBreak?_plain]

theorem Relocates.append_relocates (h : Relocates 0 [] ts us) (h' : Relocates 0 [] vs ws) :
    Relocates 0 [] (ts ++ vs) (us ++ ws) := by
  induction h with
  | nil => exact h'
  | cons htu _ ih => exact .cons htu ih

theorem lineEndBefore_plain (hcomments : Relocates 0 [] (comments.map plain) comments')
    (hp : p'.line = p.line) :
    Moves 0 (lineEndBefore comments p).plain (lineEndBefore comments' p') := by
  cases comments with
  | nil =>
      cases hcomments
      exact ⟨rfl, rfl, hp⟩
  | cons t ts =>
      obtain _ | ⟨htu, -⟩ := hcomments
      exact ⟨rfl, rfl, htu.line⟩

/-- The tokens of marks without carriage returns are the tokens without them. -/
theorem endStatements_plain (hmarks : Restates marks marks') (hlast : last'.line = last.line)
    (hpending : Option.Rel (fun ts us => Relocates 0 [] (ts.map plain) us) pending pending') :
    Relocates 0 [] ((endStatements last pending marks).map plain)
      (endStatements last' pending' marks') := by
  -- The same comments wait on both sides, so both go through the same cases.
  fun_induction endStatements last pending marks generalizing pending' marks' with
  | case1 =>
      cases hmarks
      cases hpending
      exact .nil
  | case2 comments =>
      cases hmarks
      cases hpending with
      | some hcomments => exact .cons (lineEndBefore_plain hcomments hlast) hcomments
  | case3 p marks ih =>
      cases hpending
      cases hmarks with
      | lineBreak hp hmarks =>
          rw [endStatements]
          exact ih hmarks .none
  | case4 comments p marks ih =>
      cases hpending with
      | some hcomments =>
          cases hmarks with
          | lineBreak hp hmarks =>
              rw [List.map_append]
              exact Relocates.append_relocates (.cons (lineEndBefore_plain hcomments hp) hcomments)
                (ih hmarks .none)
  | case5 t marks ht ih =>
      cases hpending
      cases hmarks with
      | token htu hmarks =>
          rw [endStatements, if_pos (htu.isComment.trans ht)]
          exact .cons htu (ih hmarks .none)
  | case6 t marks ht comments hbreak ih =>
      cases hpending with
      | some hcomments =>
          cases hmarks with
          | @token _ u _ _ htu hmarks =>
              have hbreak' : u.innerBreak? = none := by
                rw [← Option.not_isSome_iff_eq_none, htu.isSome_innerBreak?, hbreak]
                simp
              simp only [endStatements, htu.isComment.trans ht, hbreak', if_true]
              refine ih hmarks (.some ?_)
              rw [List.map_append]
              exact Relocates.append_relocates hcomments (.cons htu .nil)
  | case7 t marks ht comments p hbreak ih =>
      cases hpending with
      | some hcomments =>
          cases hmarks with
          | @token _ u _ _ htu hmarks =>
              obtain ⟨q, hbreak'⟩ : ∃ q, u.innerBreak? = some q := by
                rw [← Option.isSome_iff_exists, htu.isSome_innerBreak?, hbreak]
                rfl
              have hq : q.line = p.line := by
                rw [line_of_innerBreak? hbreak', line_of_innerBreak? hbreak]
                exact htu.line
              simp only [endStatements, htu.isComment.trans ht, hbreak', if_true, List.map_append]
              exact Relocates.append_relocates (.cons (lineEndBefore_plain hcomments hq) hcomments)
                (.cons htu (ih hmarks .none))
  | case8 pending t marks ht ih =>
      cases hmarks with
      | @token _ u _ _ htu hmarks =>
          rw [endStatements_token (htu.isComment.trans (eq_false_of_ne_true ht)), List.map_append,
            htu.endsStatement]
          refine Relocates.append_relocates ?_ (.cons htu (ih hmarks ?_))
          · cases hpending with
            | none => exact .nil
            | some hcomments => exact hcomments
          · split
            · exact .some .nil
            · exact .none

end Token

namespace Scanned

open Token (Relocates)

/-- Where a line break follows on every carriage return, a text has the same tokens without them, on
the same lines and without carriage returns in their texts. -/
theorem ofSource_withoutReturns {source : String} {s : Scanned} (h : ofSource source = .ok s)
    (hsource : ReturnsEndLines source.toList) :
    ∃ plain, ofSource (String.ofList (withoutReturns source.toList)) = .ok plain ∧
      Relocates 0 [] (s.tokens.map Token.plain) plain.tokens := by
  obtain ⟨marks, hmarks, htokens⟩ := ofSource_eq_ok.mp h
  obtain ⟨marks', last, hmarks', hlast, hrestates⟩ :=
    hmarks.withoutReturns (r := .start) hsource rfl
  refine ⟨⟨Token.endStatements last none marks', last⟩, ofSource_eq_ok.mpr ⟨marks', ?_, rfl⟩, ?_⟩
  · rw [String.toList_ofList]
    exact hmarks'
  · rw [htokens]
    exact Token.endStatements_plain hrestates hlast .none

end Scanned

end DeclBridge
