import DeclBridge.Proofs.Scan.Whole

/-!
How the tokens lie in their text. A text is white space and the texts of its tokens in turn, and it
is so in one way only.
-/

namespace DeclBridge

namespace Token

open Reach (isSpace)

/-- Whether the token is written in the text and is no comment. -/
def isWritten (t : Token) : Bool :=
  !t.kind.isComment && !t.isLineEnd

/-- The tokens that are written in the text, comments too. -/
def withoutLineEnds (ts : List Token) : List Token :=
  ts.filter (!·.isLineEnd)

/-- The text is white space with the texts of the tokens in it, in their order. -/
inductive Fills : List Char → List Token → Prop where
  | nil : Fills [] []
  | space {c : Char} {cs : List Char} {ts : List Token} :
      isSpace c = true → Fills cs ts → Fills (c :: cs) ts
  | token {t : Token} {cs : List Char} {ts : List Token} :
      Fills cs ts → Fills (t.lexeme.toList ++ cs) (t :: ts)

/-- The text begins, and not with white space. -/
def Opens (text : List Char) : Prop :=
  ∃ c cs, text = c :: cs ∧ isSpace c = false

variable {cs ds xs ys : List Char} {ts : List Token} {t : Token}

theorem withoutLineEnds_append (ts us : List Token) :
    withoutLineEnds (ts ++ us) = withoutLineEnds ts ++ withoutLineEnds us :=
  List.filter_append ..

theorem withoutLineEnds_cons (ht : t.isLineEnd = false) (ts : List Token) :
    withoutLineEnds (t :: ts) = t :: withoutLineEnds ts :=
  List.filter_cons_of_pos (by simp [ht])

theorem Opens.append (h : Opens xs) (ys : List Char) : Opens (xs ++ ys) := by
  obtain ⟨c, cs, rfl, hc⟩ := h
  exact ⟨c, cs ++ ys, rfl, hc⟩

theorem not_opens_space {c : Char} (hc : isSpace c = true) : ¬ Opens (c :: cs) := by
  rintro ⟨d, ds, hcs, hd⟩
  obtain ⟨rfl, -⟩ := List.cons.inj hcs
  rw [hc] at hd
  cases hd

theorem opens_of_isGenuine (h : t.IsGenuine) : Opens t.lexeme.toList := by
  obtain ⟨c, cs, htext, hn⟩ := isWhole_iff.mp h.isWhole
  exact ⟨c, cs, htext, isSpace_of_extent hn⟩

/-- White space and tokens in front of a token are told from it. -/
theorem Fills.unique (h : Fills cs ts) (h' : Fills ds ts)
    (hts : ∀ t ∈ ts, Opens t.lexeme.toList) (hxs : Opens xs) (hys : Opens ys)
    (heq : cs ++ xs = ds ++ ys) : cs = ds := by
  -- No token begins with white space, so white space meets white space and a token the same token.
  induction h generalizing ds with
  | nil =>
      cases h' with
      | nil => rfl
      | space hc =>
          rw [List.nil_append] at heq
          rw [heq] at hxs
          exact absurd hxs (not_opens_space hc)
  | @space c cs ts hc _ ih =>
      generalize hzs : c :: cs ++ xs = zs at heq
      cases h' with
      | nil =>
          rw [heq, List.nil_append] at hzs
          rw [← hzs] at hys
          exact absurd hys (not_opens_space hc)
      | space _ h' =>
          rw [← hzs] at heq
          obtain ⟨rfl, htail⟩ := List.cons.inj heq
          rw [ih h' hts htail]
      | @token t es _ _ =>
          have hopens := (hts t (by simp)).append (es ++ ys)
          rw [← List.append_assoc, ← heq, ← hzs] at hopens
          exact absurd hopens (not_opens_space hc)
  | @token t cs ts _ ih =>
      have hopens := (hts t (by simp)).append (cs ++ xs)
      generalize hus : t :: ts = us at h'
      cases h' with
      | nil => cases hus
      | space hc =>
          rw [← List.append_assoc, heq] at hopens
          exact absurd hopens (not_opens_space hc)
      | @token u es us' h' =>
          obtain ⟨rfl, rfl⟩ := List.cons.inj hus
          rw [List.append_assoc, List.append_assoc] at heq
          rw [ih h' (fun u hu => hts u (by simp [hu])) (List.append_cancel_left heq)]

end Token

namespace Mark

open Token (Fills extent)
open Token.Reach (isSpace)

/-- The token that a mark is, if it is one. -/
def token? : Mark → Option Token
  | lineBreak _ => none
  | token t => some t

@[simp]
theorem token?_token (t : Token) : token? (token t) = some t := rfl

/-- Whether there is a line break in the mark. -/
def breaksLine : Mark → Bool
  | lineBreak _ => true
  | token t => t.lexeme.toList.contains '\n'

variable {p q : Position} {cs ds : List Char} {marks before more : List Mark} {t : Token}

theorem mem_filterMap_token? : t ∈ marks.filterMap token? ↔ token t ∈ marks := by
  rw [List.mem_filterMap]
  constructor
  · rintro ⟨m, hm, ht⟩
    cases m with
    | lineBreak => cases ht
    | token u =>
        cases ht
        exact hm
  · intro h
    exact ⟨_, h, rfl⟩

/-- What is scanned is white space and the tokens, and its line breaks are those of the marks. -/
theorem Scans.fills (h : Scans p cs marks q ds) :
    ∃ text, cs = text ++ ds ∧ Fills text (marks.filterMap token?) ∧
      text.contains '\n' = marks.any breaksLine := by
  induction h with
  | done => exact ⟨[], rfl, .nil, rfl⟩
  | @blank p q c cs ds marks hc _ ih =>
      obtain ⟨text, rfl, hfills, hbreak⟩ := ih
      have hline : ('\n' == c) = false := by
        refine beq_false_of_ne ?_
        rintro rfl
        simp [isBlank] at hc
      refine ⟨c :: text, rfl, .space (by simp [isSpace, hc]) hfills, ?_⟩
      rw [List.contains_cons, hline, hbreak, Bool.false_or]
  | lineBreak _ ih =>
      obtain ⟨text, rfl, hfills, -⟩ := ih
      exact ⟨'\n' :: text, rfl, .space (by decide) hfills, by simp [breaksLine]⟩
  | @token p q c cs ds shape n marks _ _ _ ih =>
      obtain ⟨text, hcs, hfills, hbreak⟩ := ih
      have htoken := Fills.token (t := tokenAt p shape (c :: cs.take n)) hfills
      simp only [tokenAt, String.toList_ofList] at htoken
      refine ⟨c :: cs.take n ++ text, ?_, htoken, ?_⟩
      · rw [List.cons_append, List.cons_append, List.append_assoc, ← hcs, List.take_append_drop]
      · rw [List.any_cons, ← hbreak]
        simp [breaksLine, tokenAt, Bool.or_assoc]

theorem Scans.behind_token {c : Char} (h : Scans p (c :: cs) (.token t :: more) q ds)
    (hc : isSpace c = false) :
    ∃ rest r, c :: cs = t.lexeme.toList ++ rest ∧ Scans r rest more q ds := by
  cases h with
  | blank hblank => simp [isSpace, hblank] at hc
  | @token _ _ _ _ _ shape n _ _ _ h =>
      refine ⟨cs.drop n, _, ?_, h⟩
      simp [tokenAt]

theorem Scans.parts (h : Scans p cs (before ++ .token t :: more) q ds) :
    ∃ front rest r, cs = front ++ (t.lexeme.toList ++ rest) ∧
      Fills front (before.filterMap token?) ∧ front.contains '\n' = before.any breaksLine ∧
      Scans r rest more q ds := by
  obtain ⟨c, es, shape, n, hbefore, hn, -, hmore⟩ := h.reaches
  obtain ⟨front, rfl, hfills, hbreak⟩ := hbefore.fills
  obtain ⟨rest, r, hrest, hmore⟩ := hmore.behind_token (Token.isSpace_of_extent hn)
  exact ⟨front, rest, r, by rw [hrest], hfills, hbreak, hmore⟩

end Mark

namespace Token

open Mark (token token?)

variable {last : Position} {pending : Option (List Token)} {marks : List Mark}

/-- What is written stays, in its order. -/
theorem withoutLineEnds_endStatements (hpending : ∀ t ∈ pending.getD [], t.isLineEnd = false)
    (hwritten : ∀ t, token t ∈ marks → t.isLineEnd = false) :
    withoutLineEnds (endStatements last pending marks) =
      pending.getD [] ++ marks.filterMap token? := by
  have hlineEnd : ∀ (comments : List Token) (p : Position),
      (lineEndBefore comments p).isLineEnd = true := fun _ _ => rfl
  have hkeep : ∀ ts : List Token, (∀ t ∈ ts, t.isLineEnd = false) → withoutLineEnds ts = ts :=
    fun ts hts => List.filter_eq_self.mpr fun t ht => by simp [hts t ht]
  unfold withoutLineEnds at hkeep ⊢
  fun_induction endStatements last pending marks with
  | case1 => rfl
  | case2 comments => simpa [hlineEnd] using hpending
  | case3 p marks ih => exact ih (by simp) fun t ht => hwritten t (by simp [ht])
  | case4 comments p marks ih =>
      have hrest := ih (by simp) fun t ht => hwritten t (by simp [ht])
      rw [List.cons_append, List.filter_cons_of_neg (by simp [hlineEnd]), List.filter_append, hrest,
        hkeep comments hpending]
      rfl
  | case5 t marks ht ih =>
      have hrest := ih (by simp) fun u hu => hwritten u (by simp [hu])
      simp [hwritten t (by simp), hrest]
  | case6 t marks ht comments hbreak ih =>
      have hwaiting := List.forall_mem_append.mpr
        ⟨hpending, List.forall_mem_singleton.mpr (hwritten t (by simp))⟩
      have hrest := ih hwaiting fun u hu => hwritten u (by simp [hu])
      simp [hrest]
  | case7 t marks ht comments p hbreak ih =>
      have hrest := ih (by simp) fun u hu => hwritten u (by simp [hu])
      rw [List.cons_append, List.filter_cons_of_neg (by simp [hlineEnd]), List.filter_append,
        List.filter_cons_of_pos (by simp [hwritten t (by simp)]), hrest, hkeep comments hpending]
      simp
  | case8 pending t marks ht ih =>
      have hnext : (if t.kind.endsStatement = true then some [] else none).getD [] =
          ([] : List Token) := by
        split <;> rfl
      have hrest := ih (by simp [hnext]) fun u hu => hwritten u (by simp [hu])
      rw [List.filter_append, List.filter_cons_of_pos (by simp [hwritten t (by simp)]), hrest,
        hnext, hkeep _ hpending]
      simp

end Token

end DeclBridge
