import DeclBridge.Proofs.Checked.Lexeme
import DeclBridge.Proofs.Scan.Tokens

/-!
The scanner with its list of tokens, into which the semicolons of line breaks are put before the
comments that are already there. Its tokens are those of the marks of the text.
-/

namespace DeclBridge.Checked

open Exec (slice insert sub)
open Token (Shape endStatements lineEndBefore)

/-- The tokens so far, the index of the next character and its place. -/
structure Scanner where
  tokens : List Token
  current : Nat
  place : Position

/-- The tokens with a semicolon behind the last statement, if it ends at a line break. The line
break is at `place`. -/
def insertLineEnd (tokens : List Token) (place : Position) : Exec Error (List Token) := do
  if (tokens.reverse.find? (!·.kind.isComment)).any (·.kind.endsStatement) then
    let comments := tokens.reverse.takeWhile (·.kind.isComment)
    let i ← sub tokens.length comments.length
    insert tokens i (.lineEnd ((tokens[i]?.map Token.position).getD place))
  else return tokens

/-- The tokens with one more. The first line break inside a comment may end a statement before
it. -/
def pushToken (tokens : List Token) (t : Token) : Exec Error (List Token) := do
  match t.innerBreak?.filter fun _ => t.kind.isComment with
  | some place => return (← insertLineEnd tokens place) ++ [t]
  | none => return tokens ++ [t]

/-- Takes a blank, a line break or a token. -/
def scanToken (source : List Char) (s : Scanner) : Exec Error Scanner := do
  let c ← Exec.get source s.current
  if Mark.isBlank c then return ⟨s.tokens, s.current + 1, s.place.shift 1⟩
  else if c = '\n' then
    let tokens ← insertLineEnd s.tokens (s.place.shift 1)
    return ⟨tokens, s.current + 1, ⟨s.place.line + 1, 1⟩⟩
  else
    let (shape, i) ← ExceptT.adapt (.lexical s.place) (lexemeEnd source s.current)
    let text ← slice source s.current i
    let tokens ← pushToken s.tokens ⟨shape.kind text, String.ofList text, s.place⟩
    return ⟨tokens, i, Mark.behind s.place shape text⟩

/-- Takes the rest of a text. -/
def Scanner.scanAll (source : List Char) (s : Scanner) : Exec Error Scanner := do
  if s.current < source.length then (← scanToken source s) |>.scanAll source
  else return s
partial_fixpoint

open Scanner (scanAll)

/-- The tokens of a text that is scanned to its end, with the mark of the end. -/
def finish (s : Scanner) : Exec Error (List Token) := do
  return (← insertLineEnd s.tokens s.place) ++ [⟨.eof, "", s.place⟩]

/-- The tokens of a source text and the mark of its end. -/
def scan (source : String) : Exec Error (List Token) := do
  finish (← scanAll source.toList ⟨[], 0, .start⟩)

/-- The tokens of a scanner and the comments that wait behind a statement. What comes before these
is in front. -/
inductive Waiting : List Token → List Token → Option (List Token) → Prop where
  | idle {tokens : List Token} :
      (tokens.reverse.find? (!·.kind.isComment)).any (·.kind.endsStatement) = false →
      Waiting tokens tokens none
  | ended {before comments : List Token} {t : Token} : t.kind.endsStatement = true →
      (∀ u ∈ comments, u.kind.isComment = true) →
      Waiting (before ++ [t] ++ comments) (before ++ [t]) (some comments)

theorem isComment_of_endsStatement {kind : Token.Kind} (h : kind.endsStatement = true) :
    kind.isComment = false := by
  cases kind <;> first | rfl | cases h

theorem find?_append_comment {tokens : List Token} {t : Token} (ht : t.kind.isComment = true) :
    (tokens ++ [t]).reverse.find? (!·.kind.isComment) =
      tokens.reverse.find? (!·.kind.isComment) := by
  simp [ht]

theorem find?_append_of_not_comment (tokens : List Token) {t : Token}
    (ht : t.kind.isComment = false) :
    (tokens ++ [t]).reverse.find? (!·.kind.isComment) = some t := by
  simp [ht]

theorem find?_append_comments {tokens comments : List Token}
    (h : ∀ u ∈ comments, u.kind.isComment = true) :
    (tokens ++ comments).reverse.find? (!·.kind.isComment) =
      tokens.reverse.find? (!·.kind.isComment) := by
  rw [List.reverse_append, List.find?_append, List.find?_eq_none.mpr (by simpa using h)]
  rfl

theorem insertLineEnd_idle {tokens : List Token} (place : Position)
    (h : (tokens.reverse.find? (!·.kind.isComment)).any (·.kind.endsStatement) = false) :
    insertLineEnd tokens place = pure tokens := by
  rw [insertLineEnd, h]
  rfl

theorem insertLineEnd_ended {before comments : List Token} {t : Token} (place : Position)
    (ht : t.kind.endsStatement = true) (h : ∀ u ∈ comments, u.kind.isComment = true) :
    insertLineEnd (before ++ [t] ++ comments) place =
      pure (before ++ [t] ++ lineEndBefore comments place :: comments) := by
  have hlast := find?_append_of_not_comment before (isComment_of_endsStatement ht)
  have htake : (before ++ [t] ++ comments).reverse.takeWhile (·.kind.isComment) =
      comments.reverse := by
    rw [List.reverse_append, List.takeWhile_append_of_pos (by simpa using h)]
    simp [isComment_of_endsStatement ht]
  have hplace : (before ++ [t] ++ comments)[(before ++ [t]).length]? = comments.head? := by
    rw [List.getElem?_append_right (Nat.le_refl _), Nat.sub_self, List.head?_eq_getElem?]
  have hsub : sub (before ++ [t] ++ comments).length comments.reverse.length =
      (pure (before ++ [t]).length : Exec Error Nat) := by
    rw [List.length_reverse, List.length_append, Exec.sub_of_le (Nat.le_add_left _ _),
      Nat.add_sub_cancel]
  rw [insertLineEnd, find?_append_comments h, hlast, htake, Option.any_some, if_pos ht]
  simp only [hsub, pure_bind, hplace]
  exact Exec.insert_append _ _ _

theorem find?_lineEnd (front : List Token) {comments : List Token} (place : Position)
    (h : ∀ u ∈ comments, u.kind.isComment = true) :
    ((front ++ lineEndBefore comments place :: comments).reverse.find?
      (!·.kind.isComment)).any (·.kind.endsStatement) = false := by
  rw [List.append_cons, find?_append_comments h, find?_append_of_not_comment _ rfl]
  rfl

/-- A line break ends the statement that may be open. -/
theorem insertLineEnd_waiting {tokens front : List Token} {pending : Option (List Token)}
    (h : Waiting tokens front pending) (place : Position) :
    ∃ tokens', insertLineEnd tokens place = pure tokens' ∧ Waiting tokens' tokens' none ∧
      (front ++ endStatements place pending [] = tokens') ∧
      ∀ last marks, front ++ endStatements last pending (.lineBreak place :: marks) =
        tokens' ++ endStatements last none marks := by
  cases h with
  | idle hlast =>
      exact ⟨tokens, insertLineEnd_idle place hlast, .idle hlast, List.append_nil _,
        fun _ _ => rfl⟩
  | ended ht hcomments =>
      refine ⟨_, insertLineEnd_ended place ht hcomments,
        .idle (find?_lineEnd _ place hcomments), rfl, fun last marks => ?_⟩
      simp [endStatements]

theorem Waiting.tokens_eq {tokens front : List Token} {pending : Option (List Token)}
    (h : Waiting tokens front pending) : tokens = front ++ pending.getD [] := by
  cases h with
  | idle => exact (List.append_nil _).symm
  | ended => rfl

theorem waiting_append {tokens : List Token} {t : Token} (ht : t.kind.isComment = false) :
    Waiting (tokens ++ [t]) (tokens ++ [t]) (if t.kind.endsStatement then some [] else none) := by
  split
  · rename_i hends
    simpa using @Waiting.ended tokens [] t hends (by simp)
  · rename_i hopen
    refine .idle ?_
    rw [find?_append_of_not_comment _ ht]
    exact eq_false_of_ne_true hopen

/-- One more token stands behind what was in front, or waits itself. -/
theorem pushToken_waiting {tokens front : List Token} {pending : Option (List Token)}
    (h : Waiting tokens front pending) (t : Token) :
    ∃ tokens' front' pending', pushToken tokens t = pure tokens' ∧
      Waiting tokens' front' pending' ∧
      ∀ last marks, front ++ endStatements last pending (.token t :: marks) =
        front' ++ endStatements last pending' marks := by
  cases ht : t.kind.isComment with
  | false =>
      refine ⟨tokens ++ [t], tokens ++ [t], if t.kind.endsStatement then some [] else none,
        ?_, waiting_append ht, fun last marks => ?_⟩
      · have hinner : (t.innerBreak?.filter fun _ => t.kind.isComment) = none := by simp [ht]
        rw [pushToken, hinner]
      · rw [Token.endStatements_token ht, h.tokens_eq]
        simp
  | true =>
      have hinner : (t.innerBreak?.filter fun _ => t.kind.isComment) = t.innerBreak? := by
        cases t.innerBreak? <;> simp [ht]
      rw [pushToken, hinner]
      cases h with
      | idle hlast =>
          refine ⟨tokens ++ [t], tokens ++ [t], none, ?_, .idle ?_, fun last marks => ?_⟩
          · cases t.innerBreak? with
            | none => rfl
            | some place => simp only [insertLineEnd_idle place hlast, pure_bind]
          · rw [find?_append_comment ht]
            exact hlast
          · simp [endStatements, ht]
      | @ended before comments u hu hcomments =>
          -- A comment with a line break ends the open statement; any other one waits.
          cases hbreak : t.innerBreak? with
          | none =>
              refine ⟨before ++ [u] ++ (comments ++ [t]), before ++ [u], some (comments ++ [t]),
                ?_, .ended hu ?_, fun last marks => ?_⟩
              · simp
              · intro v hv
                rcases List.mem_append.mp hv with hv | hv
                · exact hcomments v hv
                · rw [List.mem_singleton.mp hv, ht]
              · simp [endStatements, ht, hbreak]
          | some place =>
              have hlast := find?_lineEnd (before ++ [u]) place hcomments
              rw [← find?_append_comment ht] at hlast
              refine ⟨_, _, none, ?_, .idle hlast, fun last marks => ?_⟩
              · simp only [insertLineEnd_ended place hu hcomments, pure_bind]
              · simp [endStatements, ht, hbreak]

theorem tokens_cons {front front' : List Token} {pending pending' : Option (List Token)} {m : Mark}
    (h : ∀ last marks, front ++ endStatements last pending (m :: marks) =
      front' ++ endStatements last pending' marks) (x : Except Error (List Mark × Position)) :
    (do
      let (marks, last) ← (do
        let (marks, last) ← x
        return (m :: marks, last))
      return front ++ (⟨endStatements last pending marks, last⟩ : Scanned).toList) =
    (do
      let (marks, last) ← x
      return front' ++ (⟨endStatements last pending' marks, last⟩ : Scanned).toList) := by
  cases x with
  | error => rfl
  | ok result =>
      refine congrArg Except.ok ?_
      simp only [Scanned.toList]
      rw [← List.append_assoc, h, List.append_assoc]

/-- What the scanner makes of a text from a place on is what the marks of the text say, behind what
it has in front. -/
theorem scanAll_eq {source : List Char} {p : Position} {cs : List Char} {i : Nat}
    {tokens front : List Token} {pending : Option (List Token)} (hcs : StandsAt source i cs)
    (h : Waiting tokens front pending) :
    (scanAll source ⟨tokens, i, p⟩ >>= finish) = Exec.ofExcept (do
      let (marks, last) ← Mark.ofText p cs
      return front ++ (⟨endStatements last pending marks, last⟩ : Scanned).toList) := by
  -- The cases are the end of the text, a blank, a line break, a fault and a token.
  induction p, cs using Mark.ofText.induct generalizing i tokens front pending with
  | case1 p =>
      obtain ⟨tokens', htokens', -, heq, -⟩ := insertLineEnd_waiting h p
      rw [scanAll, if_neg (Nat.not_lt.mpr hcs.le), pure_bind, finish, htokens', Mark.ofText, ← heq]
      simp [Scanned.toList]
  | case2 p c cs hc ih =>
      rw [scanAll, if_pos hcs.lt, scanToken, hcs.get, Mark.ofText, if_pos hc]
      simp only [pure_bind, if_pos hc]
      exact ih hcs.next h
  | case3 p cs hc ih =>
      obtain ⟨tokens', htokens', hwaiting, -, heq⟩ := insertLineEnd_waiting h (p.shift 1)
      rw [scanAll, if_pos hcs.lt, scanToken, hcs.get, Mark.ofText, if_neg hc, if_pos rfl,
        tokens_cons heq, ← ih hcs.next hwaiting]
      simp only [pure_bind, if_neg hc, if_true, htokens']
  | case4 p c cs hc hbreak fault hn =>
      rw [scanAll, if_pos hcs.lt, scanToken, hcs.get, Mark.ofText, if_neg hc, if_neg hbreak, hn]
      simp only [pure_bind, if_neg hc, if_neg hbreak, lexemeEnd_eq hcs, hn]
      rfl
  | case5 p c cs hc hbreak shape n hn =>
      rename_i ih
      have hle : n ≤ cs.length := Token.extent_le hn
      obtain ⟨tokens', front', pending', htokens', hwaiting, heq⟩ := pushToken_waiting h
        ⟨shape.kind (c :: cs.take n), String.ofList (c :: cs.take n), p⟩
      have hlexeme : ExceptT.adapt (Error.lexical p) (lexemeEnd source i) =
          pure (shape, i + 1 + n) := by
        rw [lexemeEnd_eq hcs, hn]
        rfl
      rw [scanAll, if_pos hcs.lt, scanToken, hcs.get, Mark.ofText, if_neg hc, if_neg hbreak, hn]
      simp only [pure_bind, if_neg hc, if_neg hbreak, hlexeme, slice_eq hcs hle, htokens']
      rw [tokens_cons heq, ← ih (hcs.next.skip hle) hwaiting]

/-- The scanner finds the tokens of a text, and reads nowhere outside of the text. -/
theorem scan_eq (source : String) :
    scan source = Exec.ofExcept (Scanned.toList <$> Scanned.ofSource source) := by
  have hwhole : StandsAt source.toList 0 source.toList := ⟨[], rfl, rfl⟩
  rw [scan, scanAll_eq hwhole (.idle rfl), Scanned.ofSource]
  cases Mark.ofText .start source.toList <;> rfl

end DeclBridge.Checked
