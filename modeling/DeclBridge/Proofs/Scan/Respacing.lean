import Mathlib
import DeclBridge.Proofs.Scan.Order
import DeclBridge.Proofs.Scan.Whole

/-!
The tokens of a text written anew, with a single space between two tokens and line breaks only where
they end a statement or a comment. The scanner reads the same tokens again.
-/

namespace DeclBridge

namespace Token

/-- Whether the token is a comment that ends with its line. -/
def isLineComment (t : Token) : Bool :=
  t.kind.isComment && ['/', '/'].isPrefixOf t.lexeme.toList

/-- The token as it is written anew. -/
def respaced (t : Token) : List Char :=
  if t.isLineEnd then ['\n']
  else t.lexeme.toList ++ [if t.isLineComment then '\n' else ' ']

/-- The marks of a token that is written anew, but for their places. -/
def respacedMarks (t : Token) : List Mark :=
  if t.isLineEnd then [.lineBreak t.position]
  else if t.isLineComment then [.token t, .lineBreak t.position]
  else [.token t]

end Token

/-- The text of the tokens, written anew. -/
def Scanned.respaced (s : Scanned) : String :=
  String.ofList (s.toList.flatMap Token.respaced)

namespace Mark

open Token (isWhole)
open Token.Reach (isSpace lineComment whileTrue_eq)

variable {p q : Position} {cs ds rest : List Char} {marks : List Mark} {t : Token}

/-- A line break follows on every comment that ends with its line. -/
def BreaksLines (marks : List Mark) : Prop :=
  ∀ t m more, .token t :: m :: more <:+ marks → t.isLineComment = true → ∃ p, m = lineBreak p

theorem BreaksLines.suffix {marks' : List Mark} (h : BreaksLines marks)
    (hsuffix : marks' <:+ marks) : BreaksLines marks' :=
  fun t m more hmore => h t m more (hmore.trans hsuffix)

theorem drop_of_isLineComment {c : Char} {shape : Token.Shape} {n : Nat}
    (hn : Token.extent c cs = .ok (shape, n))
    (h : (tokenAt p shape (c :: cs.take n)).isLineComment = true) :
    cs.drop n = [] ∨ ∃ es, cs.drop n = '\n' :: es := by
  simp only [Token.isLineComment, tokenAt, String.toList_ofList, Bool.and_eq_true,
    List.isPrefixOf_iff_prefix] at h
  obtain ⟨hc, htake⟩ := List.cons_prefix_cons.mp h.2
  obtain ⟨es, rfl⟩ : ∃ es, cs = '/' :: es := by
    obtain ⟨es, hes⟩ := htake.trans (List.take_prefix n cs)
    exact ⟨es, hes.symm⟩
  subst hc
  obtain ⟨-, rfl⟩ := Prod.mk.inj (Except.ok.inj hn)
  have hdrop := @List.drop_left _ (es.takeWhile (· != '\n')) (es.dropWhile (· != '\n'))
  rw [List.takeWhile_append_dropWhile] at hdrop
  rw [lineComment, whileTrue_eq, Nat.add_comm, List.drop_succ_cons, hdrop]
  cases hrest : es.dropWhile (· != '\n') with
  | nil => exact .inl rfl
  | cons e rest =>
      have hbreak := List.head_dropWhile_not (· != '\n') (l := es) (by simp [hrest])
      simp only [hrest, List.head_cons, bne_eq_false_iff_eq] at hbreak
      rw [hbreak]
      exact .inr ⟨rest, rfl⟩

theorem Scans.breaksLines (h : Scans p cs marks q ds) : BreaksLines marks := by
  induction h with
  | done =>
      intro t m more hsuffix
      simp at hsuffix
  | blank _ _ ih => exact ih
  | lineBreak _ ih =>
      intro t m more hsuffix
      rcases List.suffix_cons_iff.mp hsuffix with hmarks | hsuffix
      · cases hmarks
      · exact ih t m more hsuffix
  | token _ hn h ih =>
      intro t m more hsuffix hline
      rcases List.suffix_cons_iff.mp hsuffix with hmarks | hsuffix
      · cases hmarks
        rcases drop_of_isLineComment hn hline with hdrop | ⟨es, hdrop⟩
        · rw [hdrop] at h
          cases h
        · rw [hdrop] at h
          cases h with
          | blank hblank => simp [isBlank] at hblank
          | lineBreak => exact ⟨_, rfl⟩
          | token hspace => exact absurd hspace (by decide)
      · exact ih t m more hsuffix hline

/-- A token that is written anew is scanned as it is written. -/
theorem scans_respaced (h : t.isLineEnd = false → t.IsGenuine) (p : Position) (rest : List Char) :
    ∃ marks q, Scans p (t.respaced ++ rest) marks q rest ∧
      marks.map content = t.respacedMarks.map content := by
  unfold Token.respaced Token.respacedMarks
  split
  · exact ⟨_, _, .lineBreak .done, rfl⟩
  · rename_i hend
    obtain ⟨hwhole, hkind⟩ := h (eq_false_of_ne_true hend)
    obtain ⟨c, cs, htext, hn⟩ := Token.isWhole_iff.mp hwhole
    have hspace := Token.isSpace_of_extent hn
    have hcontent : content (.token (tokenAt p t.kind.shape (c :: cs))) = content (.token t) := by
      rw [← htext]
      simp [content, tokenAt, hkind]
    rw [htext, List.append_assoc]
    split
    · have hscan := scans_of_extent p hspace (@Token.extent_append _ '\n' _ rest _ _ hn (by decide)
        (.inl rfl))
      refine ⟨_, _, hscan.trans (.lineBreak .done), ?_⟩
      rw [List.singleton_append, List.map_cons, hcontent]
      rfl
    · rename_i hline
      -- Only a line comment would go on behind the space.
      have hopen : ¬(c = '/' ∧ cs.head? = some '/') := by
        rintro ⟨rfl, hhead⟩
        obtain ⟨es, rfl⟩ := List.head?_eq_some_iff.mp hhead
        obtain ⟨hshape, -⟩ := Prod.mk.inj (Except.ok.inj hn)
        have hcomment : t.kind.isComment = true := by
          rw [← hkind, ← hshape]
          rfl
        simp [Token.isLineComment, hcomment, htext] at hline
      have hscan := scans_of_extent p hspace (@Token.extent_append _ ' ' _ rest _ _ hn (by decide)
        (.inr hopen))
      refine ⟨_, _, hscan.trans (.blank rfl .done), ?_⟩
      rw [List.append_nil, List.map_cons, hcontent]
      rfl

theorem scans_flatMap_respaced {ts : List Token} (h : ∀ t ∈ ts, t.isLineEnd = false → t.IsGenuine)
    (p : Position) (rest : List Char) :
    ∃ marks q, Scans p (ts.flatMap Token.respaced ++ rest) marks q rest ∧
      marks.map content = (ts.flatMap Token.respacedMarks).map content := by
  induction ts generalizing p with
  | nil => exact ⟨[], p, .done, rfl⟩
  | cons t ts ih =>
      obtain ⟨marks, q, hscan, hmarks⟩ :=
        scans_respaced (h t (by simp)) p (ts.flatMap Token.respaced ++ rest)
      obtain ⟨more, r, hscan', hmore⟩ := ih (fun u hu => h u (by simp [hu])) q
      refine ⟨marks ++ more, r, ?_, by simp [hmarks, hmore]⟩
      rw [List.flatMap_cons, List.append_assoc]
      exact hscan.trans hscan'

end Mark

namespace Token

open Mark (BreaksLines token)

variable {last : Position} {pending : Option (List Token)} {comments : List Token}
  {marks more : List Mark} {t : Token}

theorem isLineEnd_of_isComment (h : t.kind.isComment = true) : t.isLineEnd = false := by
  cases hkind : t.kind <;> simp_all [isLineEnd, Kind.isComment]

/-- Where no statement ends, comments stay as they are and line breaks mean nothing. -/
theorem endStatements_comments (h : ∀ t ∈ comments, t.kind.isComment = true) (more : List Mark) :
    endStatements last none (comments.flatMap respacedMarks ++ more) =
      comments ++ endStatements last none more := by
  induction comments with
  | nil => rfl
  | cons t comments ih =>
      have ht := h t (by simp)
      have hrest := ih fun u hu => h u (by simp [hu])
      rw [List.flatMap_cons, List.append_assoc, respacedMarks, isLineEnd_of_isComment ht]
      simp only [Bool.false_eq_true, if_false]
      split <;> simp [endStatements, ht, hrest]

/-- Comments without a line break wait for what follows them. -/
theorem endStatements_waiting (h : ∀ t ∈ comments, t.kind.isComment = true ∧ t.innerBreak? = none)
    (waiting : List Token) (more : List Mark) :
    endStatements last (some waiting) (comments.map token ++ more) =
      endStatements last (some (waiting ++ comments)) more := by
  induction comments generalizing waiting with
  | nil => rw [List.append_nil]; rfl
  | cons t comments ih =>
      obtain ⟨ht, hbreak⟩ := h t (by simp)
      have hrest := ih (fun u hu => h u (by simp [hu])) (waiting ++ [t])
      simp only [List.map_cons, List.cons_append, endStatements, ht, hbreak, if_true]
      rw [hrest, List.append_assoc]
      rfl

/-- No comment in front of another token on its line ends with the line. -/
theorem isLineComment_of_breaksLines
    (h : BreaksLines (comments.map token ++ token t :: marks)) :
    ∀ u ∈ comments, u.isLineComment = false := by
  intro u hu
  obtain ⟨before, after, rfl⟩ := List.append_of_mem hu
  refine eq_false_of_ne_true fun hline => ?_
  obtain ⟨v, hv⟩ : ∃ v vs, after.map token ++ token t :: marks = token v :: vs := by
    cases after <;> simp
  obtain ⟨vs, hvs⟩ := hv
  have hsuffix : token u :: token v :: vs <:+
      (before ++ u :: after).map token ++ token t :: marks := by
    refine ⟨before.map token, ?_⟩
    simp [hvs]
  obtain ⟨p, hp⟩ := h u _ _ hsuffix hline
  cases hp

theorem flatMap_respacedMarks (h : ∀ t ∈ comments, t.kind.isComment = true)
    (hline : ∀ t ∈ comments, t.isLineComment = false) :
    comments.flatMap respacedMarks = comments.map token := by
  induction comments with
  | nil => rfl
  | cons t comments ih =>
      have hrest := ih (fun u hu => h u (by simp [hu])) fun u hu => hline u (by simp [hu])
      rw [List.flatMap_cons, hrest, respacedMarks, isLineEnd_of_isComment (h t (by simp)),
        hline t (by simp)]
      rfl

/-- What the end of a statement is written anew as ends the statement, and nothing behind it
does until the next token. -/
theorem endStatements_lineEndBefore {waiting : List Token} (last p : Position) (us : List Token)
    (h : ∀ t ∈ comments, t.kind.isComment = true) :
    endStatements last (some [])
        ((lineEndBefore waiting p :: comments ++ us).flatMap respacedMarks) =
      lineEndBefore waiting p :: comments ++
        endStatements last none (us.flatMap respacedMarks) := by
  rw [List.cons_append, List.flatMap_cons, List.flatMap_append]
  have hbreak : respacedMarks (lineEndBefore waiting p) =
      [.lineBreak (lineEndBefore waiting p).position] := rfl
  rw [hbreak, List.singleton_append, endStatements, endStatements_comments h]
  rfl

/-- The tokens that are written anew end the same statements. -/
theorem endStatements_respaced
    (hpending : ∀ t ∈ pending.getD [], t.kind.isComment = true ∧ t.innerBreak? = none)
    (hwritten : ∀ t, token t ∈ marks → t.isLineEnd = false)
    (hbreaks : BreaksLines ((pending.getD []).map token ++ marks)) :
    endStatements last (pending.map fun _ => [])
      ((endStatements last pending marks).flatMap respacedMarks) =
        endStatements last pending marks := by
  -- The induction is on the rest of the tokens; what a case puts in front of it is scanned again.
  fun_induction endStatements last pending marks with
  | case1 => rfl
  | case2 comments =>
      have hcomments : ∀ t ∈ comments, t.kind.isComment = true := fun t ht => (hpending t ht).1
      have h := @endStatements_lineEndBefore comments comments last last [] hcomments
      simpa [endStatements] using h
  | case3 p marks ih =>
      refine ih (by simp) (fun t ht => hwritten t (by simp [ht])) ?_
      exact hbreaks.suffix (List.suffix_cons _ _)
  | case4 comments p marks ih =>
      have hcomments : ∀ t ∈ comments, t.kind.isComment = true := fun t ht => (hpending t ht).1
      have hrest := ih (by simp) (fun t ht => hwritten t (by simp [ht]))
        (hbreaks.suffix ((List.suffix_cons _ _).trans (List.suffix_append _ _)))
      rw [Option.map_some, endStatements_lineEndBefore last p _ hcomments]
      exact congrArg _ hrest
  | case5 t marks ht ih =>
      have hrest := ih (by simp) (fun u hu => hwritten u (by simp [hu]))
        (hbreaks.suffix (List.suffix_cons _ _))
      have hfirst := @endStatements_comments last [t] (by simpa using ht)
        ((endStatements last none marks).flatMap respacedMarks)
      rw [List.flatMap_singleton] at hfirst
      exact hfirst.trans (congrArg _ hrest)
  | case6 t marks ht comments hbreak ih =>
      have hwaiting := List.forall_mem_append.mpr
        ⟨hpending, List.forall_mem_singleton.mpr ⟨ht, hbreak⟩⟩
      exact ih hwaiting (fun u hu => hwritten u (by simp [hu])) (by simpa using hbreaks)
  | case7 t marks ht comments p hbreak ih =>
      have hcomments : ∀ u ∈ comments ++ [t], u.kind.isComment = true :=
        List.forall_mem_append.mpr
          ⟨fun u hu => (hpending u hu).1, List.forall_mem_singleton.mpr ht⟩
      have hrest := ih (by simp) (fun u hu => hwritten u (by simp [hu]))
        (hbreaks.suffix ((List.suffix_cons _ _).trans (List.suffix_append _ _)))
      have hlist : lineEndBefore comments p :: comments ++ t :: endStatements last none marks =
          lineEndBefore comments p :: (comments ++ [t]) ++ endStatements last none marks := by
        simp
      rw [Option.map_some, hlist, endStatements_lineEndBefore last p _ hcomments]
      exact congrArg _ hrest
  | case8 pending t marks ht ih =>
      have ht : t.kind.isComment = false := eq_false_of_ne_true ht
      -- Whether a statement is open behind the token or not, nothing waits there yet.
      generalize hnext : (if t.kind.endsStatement = true then some [] else none) = next at ih ⊢
      have hwaiting : next.getD [] = [] ∧ (next.map fun _ => []) = next := by
        rw [← hnext]
        split <;> exact ⟨rfl, rfl⟩
      have hrest := ih (by simp [hwaiting.1]) (fun u hu => hwritten u (by simp [hu])) (by
        rw [hwaiting.1]
        exact hbreaks.suffix ((List.suffix_cons _ _).trans (List.suffix_append _ _)))
      have hfirst : respacedMarks t = [token t] := by
        rw [respacedMarks, hwritten t (by simp)]
        simp [isLineComment, ht]
      have hcomments := flatMap_respacedMarks (fun u hu => (hpending u hu).1)
        (isLineComment_of_breaksLines hbreaks)
      rw [hwaiting.2] at hrest
      rw [List.flatMap_append, List.flatMap_cons, hcomments, hfirst, List.singleton_append]
      cases pending with
      | none =>
          rw [Option.map_none]
          simp only [Option.getD_none, List.map_nil, List.nil_append]
          rw [endStatements_token ht, hnext, hrest]
          rfl
      | some comments =>
          rw [Option.map_some, endStatements_waiting hpending, endStatements_token ht, hnext, hrest]
          rfl

end Token

namespace Scanned

open Token (face)

/-- A text that is written anew has the same tokens, with the same ends of statements. -/
theorem ofSource_respaced {source : String} {s : Scanned} (h : ofSource source = .ok s) :
    ∃ s', ofSource s.respaced = .ok s' ∧ s'.toList.map face = s.toList.map face := by
  obtain ⟨marks, hmarks, htokens⟩ := ofSource_eq_ok.mp h
  obtain ⟨marks', q, hscan, hcontent⟩ :=
    Mark.scans_flatMap_respaced (isGenuine_of_ofSource h) .start [' ']
  have htext : s.respaced.toList = s.tokens.flatMap Token.respaced ++ [' '] := by
    simp [respaced, toList, Token.respaced, Token.isLineEnd, Token.isLineComment,
      Token.Kind.isComment]
  have hsame : Token.endStatements s.last none (s.tokens.flatMap Token.respacedMarks) =
      s.tokens := by
    rw [htokens]
    exact @Token.endStatements_respaced s.last none marks (by simp) hmarks.isLineEnd
      hmarks.breaksLines
  have hfaces : (Token.endStatements (q.shift 1) none marks').map face =
      (Token.endStatements s.last none (s.tokens.flatMap Token.respacedMarks)).map face :=
    Token.faces_endStatements hcontent rfl
  refine ⟨⟨Token.endStatements (q.shift 1) none marks', q.shift 1⟩,
    ofSource_eq_ok.mpr ⟨marks', ?_, rfl⟩, ?_⟩
  · rw [htext, ← List.append_nil marks']
    exact hscan.trans (.blank rfl .done)
  · rw [hsame] at hfaces
    simp [toList, hfaces, face]

set_option maxRecDepth 4096 in
/-- The statement still ends in front of both comments, and the operator stays one token. -/
theorem ofSource_respaced_comments :
    ∃ s s', ofSource "a /* b\n */ // c\n*= 0x1F+.5" = .ok s ∧
      ofSource "a \n/* b\n */ // c\n*= 0x1F + .5 \n " = .ok s' ∧
      s'.toList.map face = s.toList.map face := by
  obtain ⟨s, hs, htext⟩ :
      ∃ s, ofSource "a /* b\n */ // c\n*= 0x1F+.5" = .ok s ∧
        s.respaced = "a \n/* b\n */ // c\n*= 0x1F + .5 \n " :=
    ⟨_, by cbv, by decide +kernel⟩
  rw [← htext]
  exact ⟨s, (ofSource_respaced hs).imp fun s' h => ⟨hs, h⟩⟩

end Scanned

end DeclBridge
