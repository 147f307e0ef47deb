import Mathlib
import DeclBridge.Proofs.Scan.Layout
import DeclBridge.Proofs.Scan.Order

/-!
Where line breaks end statements: behind the tokens that may end one, if a line break comes before
the next token that is no comment.
-/

namespace DeclBridge

namespace Token

open Mark (token token? breaksLine)

/-- What stands in a text between a token and the next one that is no comment, with the tokens of
the text before and behind the first one. -/
def IsGap (source : List Char) (before : List Token) (t : Token) (after : List Token)
    (gap : List Char) : Prop :=
  ∃ front back u more,
    (withoutLineEnds after).dropWhile (·.kind.isComment) = u :: more ∧
    source = front ++ (t.lexeme.toList ++ (gap ++ (u.lexeme.toList ++ back))) ∧
    Fills front (withoutLineEnds before) ∧
    Fills gap ((withoutLineEnds after).takeWhile (·.kind.isComment)) ∧
    Fills back more

/-- Whether the line ends before the next token that is no comment. -/
def endsLine : List Mark → Bool
  | [] => true
  | .lineBreak _ :: _ => true
  | .token t :: marks => t.kind.isComment && (t.innerBreak?.isSome || endsLine marks)

variable {last : Position} {pending : Option (List Token)} {comments before after : List Token}
  {marks more : List Mark} {t u : Token}

theorem isSome_innerBreak? (t : Token) : t.innerBreak?.isSome = breaksLine (token t) := by
  simp only [innerBreak?, breaksLine]
  split <;> simp_all

theorem isWritten_iff : t.isWritten = true ↔ t.kind.isComment = false ∧ t.isLineEnd = false := by
  simp [isWritten]

theorem exists_of_append_eq {xs ys : List Token} (h : xs ++ ys = before ++ t :: after)
    (ht : t ∉ xs) : ∃ mid, before = xs ++ mid ∧ ys = mid ++ t :: after := by
  rcases List.append_eq_append_iff.mp h with ⟨mid, hbefore, hys⟩ | ⟨mid, hxs, hmore⟩
  · exact ⟨mid, hbefore, hys⟩
  · cases mid with
    | nil => exact ⟨[], by simpa using hxs.symm, by simpa using hmore.symm⟩
    | cons v vs =>
        obtain ⟨rfl, -⟩ := List.cons.inj hmore
        exact absurd (by rw [hxs]; simp) ht

/-- Behind a token that is no comment the rest of the tokens is that of the rest of the marks. -/
theorem exists_endStatements_eq (hpending : ∀ u ∈ pending.getD [], u.kind.isComment = true)
    (h : endStatements last pending marks = before ++ t :: after) (ht : t.isWritten = true) :
    ∃ front back, marks = front ++ token t :: back ∧
      after = endStatements last (if t.kind.endsStatement then some [] else none) back := by
  obtain ⟨hcomment, hlineEnd⟩ := isWritten_iff.mp ht
  have hnot : ∀ {comments : List Token}, (∀ u ∈ comments, u.kind.isComment = true) →
      t ∉ comments := by
    intro comments hcomments hmem
    rw [hcomments t hmem] at hcomment
    cases hcomment
  have hne : ∀ comments p, t ≠ lineEndBefore comments p := by
    rintro comments p rfl
    cases hlineEnd
  -- `t` is neither a comment nor the end of a statement, so only the last case can begin with it.
  fun_induction endStatements last pending marks generalizing before with
  | case1 => simp at h
  | case2 comments =>
      have hmem : t ∈ lineEndBefore comments last :: comments := by rw [h]; simp
      rcases List.mem_cons.mp hmem with rfl | hmem
      · exact absurd rfl (hne comments last)
      · exact absurd hmem (hnot hpending)
  | case3 p marks ih =>
      obtain ⟨front, back, hmarks, hafter⟩ := ih (by simp) h
      exact ⟨.lineBreak p :: front, back, by rw [hmarks]; rfl, hafter⟩
  | case4 comments p marks ih =>
      obtain ⟨mid, -, hrest⟩ := exists_of_append_eq h (by
        simp only [List.mem_cons, not_or]
        exact ⟨hne comments p, hnot hpending⟩)
      obtain ⟨front, back, hmarks, hafter⟩ := ih (by simp) hrest
      exact ⟨.lineBreak p :: front, back, by rw [hmarks]; rfl, hafter⟩
  | case5 v marks hv ih =>
      obtain ⟨mid, -, hrest⟩ := @exists_of_append_eq _ _ _ [v] _ h (hnot (by simpa using hv))
      obtain ⟨front, back, hmarks, hafter⟩ := ih (by simp) hrest
      exact ⟨token v :: front, back, by rw [hmarks]; rfl, hafter⟩
  | case6 v marks hv comments hbreak ih =>
      have hwaiting := List.forall_mem_append.mpr ⟨hpending, List.forall_mem_singleton.mpr hv⟩
      obtain ⟨front, back, hmarks, hafter⟩ := ih hwaiting h
      exact ⟨token v :: front, back, by rw [hmarks]; rfl, hafter⟩
  | case7 v marks hv comments p hbreak ih =>
      obtain ⟨mid, -, hrest⟩ := exists_of_append_eq h (by
        simp only [List.mem_cons, not_or]
        exact ⟨hne comments p, hnot hpending⟩)
      obtain ⟨mid, -, hrest⟩ := @exists_of_append_eq _ _ _ [v] _ hrest (hnot (by simpa using hv))
      obtain ⟨front, back, hmarks, hafter⟩ := ih (by simp) hrest
      exact ⟨token v :: front, back, by rw [hmarks]; rfl, hafter⟩
  | case8 pending v marks hv ih =>
      obtain ⟨mid, -, hrest⟩ := exists_of_append_eq h (hnot hpending)
      cases mid with
      | nil =>
          obtain ⟨rfl, rfl⟩ := List.cons.inj hrest
          exact ⟨[], marks, rfl, rfl⟩
      | cons w mid =>
          obtain ⟨-, hrest⟩ := List.cons.inj hrest
          obtain ⟨front, back, hmarks, hafter⟩ := ih (by split <;> simp) hrest
          exact ⟨token v :: front, back, by rw [hmarks]; rfl, hafter⟩

/-- A statement ends at once behind a token if the line ends before the next one that is no
comment. -/
theorem head_endStatements (hpending : ∀ u ∈ pending.getD [], u.isLineEnd = false)
    (hwritten : ∀ u, token u ∈ marks → u.isLineEnd = false) :
    (endStatements last pending marks).head?.any isLineEnd =
      (pending.isSome && endsLine marks) := by
  fun_induction endStatements last pending marks with
  | case1 | case2 | case4 => rfl
  | case3 p marks ih => exact ih (by simp) fun u hu => hwritten u (by simp [hu])
  | case5 t marks ht => simp [hwritten t (by simp)]
  | case6 t marks ht comments hbreak ih =>
      have hwaiting := List.forall_mem_append.mpr
        ⟨hpending, List.forall_mem_singleton.mpr (hwritten t (by simp))⟩
      have hrest := ih hwaiting fun u hu => hwritten u (by simp [hu])
      rw [hrest, endsLine, ht, hbreak]
      rfl
  | case7 t marks ht comments p hbreak =>
      rw [endsLine, ht, hbreak]
      rfl
  | case8 pending t marks ht =>
      rw [endsLine, eq_false_of_ne_true ht, Bool.false_and, Bool.and_false]
      cases hcomments : pending.getD [] with
      | nil => simp [hwritten t (by simp)]
      | cons c cs => simp [hpending c (by simp [hcomments])]

theorem exists_getLast?_append (xs : List Token)
    (h : ∃ u, before.getLast? = some u ∧ u.isWritten = true) :
    ∃ u, (xs ++ before).getLast? = some u ∧ u.isWritten = true := by
  obtain ⟨u, hu, hcode⟩ := h
  refine ⟨u, ?_, hcode⟩
  rw [List.getLast?_append, hu]
  rfl

/-- The end of a statement stands behind a token that is no comment, or in front of the comments
that wait. -/
theorem getLast?_of_isLineEnd (hpending : ∀ u ∈ pending.getD [], u.isLineEnd = false)
    (hwritten : ∀ u, token u ∈ marks → u.isLineEnd = false)
    (h : endStatements last pending marks = before ++ t :: after) (ht : t.isLineEnd = true) :
    (pending.isSome = true ∧ before = []) ∨
      ∃ u, before.getLast? = some u ∧ u.isWritten = true := by
  have hnot : ∀ {ts : List Token}, (∀ u ∈ ts, u.isLineEnd = false) → t ∉ ts := by
    intro ts hts hmem
    rw [hts t hmem] at ht
    cases ht
  -- The end of a statement comes first in its case, or it is found in the rest.
  fun_induction endStatements last pending marks generalizing before with
  | case1 => simp at h
  | case2 comments =>
      cases before with
      | nil => exact .inl ⟨rfl, rfl⟩
      | cons v before =>
          have hcomments := (List.cons.inj h).2
          exact absurd (by rw [hcomments]; simp) (hnot hpending)
  | case3 p marks ih => exact ih (by simp) (fun u hu => hwritten u (by simp [hu])) h
  | case4 comments p marks ih =>
      cases before with
      | nil => exact .inl ⟨rfl, rfl⟩
      | cons v before =>
          obtain ⟨mid, rfl, hrest⟩ := exists_of_append_eq (List.cons.inj h).2 (hnot hpending)
          have hmid := ih (by simp) (fun u hu => hwritten u (by simp [hu])) hrest
          exact .inr (exists_getLast?_append (v :: comments) (hmid.resolve_left (by simp)))
  | case5 v marks hv ih =>
      have hvs : t ∉ [v] := hnot (by simpa using hwritten v (by simp))
      obtain ⟨mid, rfl, hrest⟩ := @exists_of_append_eq _ _ _ [v] _ h hvs
      have hmid := ih (by simp) (fun u hu => hwritten u (by simp [hu])) hrest
      exact .inr (exists_getLast?_append [v] (hmid.resolve_left (by simp)))
  | case6 v marks hv comments hbreak ih =>
      have hwaiting := List.forall_mem_append.mpr
        ⟨hpending, List.forall_mem_singleton.mpr (hwritten v (by simp))⟩
      exact ih hwaiting (fun u hu => hwritten u (by simp [hu])) h
  | case7 v marks hv comments p hbreak ih =>
      cases before with
      | nil => exact .inl ⟨rfl, rfl⟩
      | cons w before =>
          have hvs : t ∉ [v] := hnot (by simpa using hwritten v (by simp))
          obtain ⟨tail, rfl, htail⟩ := exists_of_append_eq (List.cons.inj h).2 (hnot hpending)
          obtain ⟨mid, rfl, hrest⟩ := @exists_of_append_eq _ _ _ [v] _ htail hvs
          have hmid := ih (by simp) (fun u hu => hwritten u (by simp [hu])) hrest
          have htail := exists_getLast?_append [v] (hmid.resolve_left (by simp))
          exact .inr (exists_getLast?_append (w :: comments) htail)
  | case8 pending v marks hv ih =>
      obtain ⟨tail, rfl, htail⟩ := exists_of_append_eq h (hnot hpending)
      have hvs : t ∉ [v] := hnot (by simpa using hwritten v (by simp))
      obtain ⟨mid, rfl, hrest⟩ := @exists_of_append_eq _ _ _ [v] _ htail hvs
      right
      apply exists_getLast?_append
      obtain ⟨-, rfl⟩ | hmid := ih (by split <;> simp) (fun u hu => hwritten u (by simp [hu])) hrest
      · exact ⟨v, rfl, isWritten_iff.mpr ⟨eq_false_of_ne_true hv, hwritten v (by simp)⟩⟩
      · exact exists_getLast?_append [v] hmid

theorem endsLine_of_comments (h : ∀ v, token v ∈ marks → v.kind.isComment = true) :
    endsLine marks = true := by
  induction marks with
  | nil => rfl
  | cons m marks ih =>
      cases m with
      | lineBreak p => rfl
      | token v => simp [endsLine, h v (by simp), ih fun u hu => h u (by simp [hu])]

theorem endsLine_append (h : ∀ v, token v ∈ marks → v.kind.isComment = true)
    (hu : u.kind.isComment = false) (more : List Mark) :
    endsLine (marks ++ token u :: more) = marks.any breaksLine := by
  induction marks with
  | nil => simp [endsLine, hu]
  | cons m marks ih =>
      cases m with
      | lineBreak p => rfl
      | token v =>
          simp [endsLine, h v (by simp), ih fun u hu => h u (by simp [hu]), isSome_innerBreak?]

/-- The first mark that is a token other than a comment, if there is one. -/
theorem comments_or_exists (marks : List Mark) :
    (∀ v, token v ∈ marks → v.kind.isComment = true) ∨
      ∃ front u back, marks = front ++ token u :: back ∧
        (∀ v, token v ∈ front → v.kind.isComment = true) ∧ u.kind.isComment = false := by
  induction marks with
  | nil => exact .inl (by simp)
  | cons m marks ih =>
      cases m with
      | lineBreak p =>
          obtain hall | ⟨front, u, back, rfl, hfront, hu⟩ := ih
          · exact .inl (by simpa using hall)
          · exact .inr ⟨.lineBreak p :: front, u, back, rfl, by simpa using hfront, hu⟩
      | token v =>
          by_cases hv : v.kind.isComment = true
          · obtain hall | ⟨front, u, back, rfl, hfront, hu⟩ := ih
            · exact .inl (by simpa [hv] using hall)
            · exact .inr ⟨token v :: front, u, back, rfl, by simpa [hv] using hfront, hu⟩
          · exact .inr ⟨[], v, marks, rfl, by simp, eq_false_of_ne_true hv⟩

/-- What stands between two tokens of a text is told by the text. -/
theorem IsGap.unique {source gap gap' : List Char} (h : IsGap source before t after gap)
    (h' : IsGap source before t after gap')
    (hopens : ∀ u, u = t ∨ u ∈ withoutLineEnds before ∨ u ∈ withoutLineEnds after →
      Opens u.lexeme.toList) : gap = gap' := by
  obtain ⟨front, back, u, more, hafter, hsource, hfront, hgap, -⟩ := h
  obtain ⟨front', back', u', more', hafter', hsource', hfront', hgap', -⟩ := h'
  rw [hafter] at hafter'
  obtain ⟨rfl, rfl⟩ := List.cons.inj hafter'
  have ht := hopens t (.inl rfl)
  have hu : Opens u.lexeme.toList := by
    refine hopens u (.inr (.inr ?_))
    exact (List.dropWhile_suffix _).mem (by rw [hafter]; simp)
  rw [hsource] at hsource'
  have heq := hfront.unique hfront' (fun v hv => hopens v (.inr (.inl hv))) (ht.append _)
    (ht.append _) hsource'
  subst heq
  have hrest := List.append_cancel_left (List.append_cancel_left hsource')
  refine hgap.unique hgap' (fun v hv => hopens v (.inr (.inr ?_))) (hu.append _) (hu.append _) hrest
  exact (List.takeWhile_prefix _).mem hv

end Token

namespace Scanned

open Token (IsGap withoutLineEnds endsLine isWritten_iff)
open Mark (token token? breaksLine)

variable {source : String} {s : Scanned} {before after : List Token} {t : Token}

/-- A written token of a text parts its marks, and the marks behind it tell what follows it. -/
theorem exists_marks (h : ofSource source = .ok s) (hts : s.tokens = before ++ t :: after)
    (ht : t.isWritten = true) :
    ∃ front back, Mark.Scans .start source.toList (front ++ token t :: back) s.last [] ∧
      after.head?.any Token.isLineEnd = (t.kind.endsStatement && endsLine back) ∧
      withoutLineEnds before = front.filterMap token? ∧
      withoutLineEnds after = back.filterMap token? := by
  obtain ⟨marks, hmarks, htokens⟩ := ofSource_eq_ok.mp h
  have hwritten := hmarks.isLineEnd
  have hall := @Token.withoutLineEnds_endStatements s.last none _ (by simp) hwritten
  rw [hts] at htokens
  obtain ⟨front, back, rfl, hafter⟩ := Token.exists_endStatements_eq (by simp) htokens.symm ht
  have hrest : ∀ u, token u ∈ back → u.isLineEnd = false := by
    intro u hu
    exact hwritten u (by simp [hu])
  have hback : withoutLineEnds after = back.filterMap token? := by
    rw [hafter, Token.withoutLineEnds_endStatements _ hrest]
    · split <;> rfl
    · split <;> simp
  refine ⟨front, back, hmarks, ?_, ?_, hback⟩
  · rw [hafter, Token.head_endStatements _ hrest]
    · split <;> simp [*]
    · split <;> simp
  · rw [← htokens, Token.withoutLineEnds_append,
      Token.withoutLineEnds_cons (isWritten_iff.mp ht).2, hback, Option.getD_none, List.nil_append,
      List.filterMap_append, List.filterMap_cons_some (Mark.token?_token t)] at hall
    exact List.append_cancel_right hall

theorem isWritten_mem_iff {back : List Mark} {u : Token}
    (hafter : withoutLineEnds after = back.filterMap token?) :
    u ∈ after ∧ u.isWritten = true ↔ token u ∈ back ∧ u.kind.isComment = false := by
  rw [← Mark.mem_filterMap_token?, ← hafter, withoutLineEnds, List.mem_filter, isWritten_iff]
  simp only [Bool.not_eq_true', and_assoc, and_comm]

theorem isGap_unique {gap gap' : List Char} (h : ofSource source = .ok s)
    (hts : s.tokens = before ++ t :: after) (ht : t.isWritten = true)
    (hgap : IsGap source.toList before t after gap)
    (hgap' : IsGap source.toList before t after gap') : gap' = gap := by
  have hopens : ∀ u ∈ s.tokens, u.isLineEnd = false → Token.Opens u.lexeme.toList :=
    fun u hu hlineEnd => Token.opens_of_isGenuine (isGenuine_of_ofSource h u hu hlineEnd)
  refine hgap'.unique hgap ?_
  rintro v (rfl | hv | hv)
  · exact hopens v (by rw [hts]; simp) (isWritten_iff.mp ht).2
  · obtain ⟨hv, hlineEnd⟩ := List.mem_filter.mp hv
    exact hopens v (by rw [hts]; simp [hv]) (by simpa using hlineEnd)
  · obtain ⟨hv, hlineEnd⟩ := List.mem_filter.mp hv
    exact hopens v (by rw [hts]; simp [hv]) (by simpa using hlineEnd)

/-- A token and the next one that is no comment part the text, with the line breaks of the marks
between them. -/
theorem exists_isGap {p q : Position} {cs : List Char} {front mid back : List Mark} {u : Token}
    (hmarks : Mark.Scans p cs (front ++ token t :: (mid ++ token u :: back)) q [])
    (hbefore : withoutLineEnds before = front.filterMap token?)
    (hafter : withoutLineEnds after = (mid ++ token u :: back).filterMap token?)
    (hmid : ∀ v, token v ∈ mid → v.kind.isComment = true) (hu : u.kind.isComment = false) :
    ∃ gap, IsGap cs before t after gap ∧ gap.contains '\n' = mid.any breaksLine := by
  obtain ⟨first, rest, r, rfl, hfirst, -, hrest⟩ := hmarks.parts
  obtain ⟨gap, rest, r, rfl, hgap, hbreak, hrest⟩ := hrest.parts
  obtain ⟨others, rfl, hothers, -⟩ := hrest.fills
  have hcomments : ∀ v ∈ mid.filterMap token?, v.kind.isComment = true :=
    fun v hv => hmid v (Mark.mem_filterMap_token?.mp hv)
  rw [List.filterMap_append, List.filterMap_cons_some (Mark.token?_token u)] at hafter
  refine ⟨gap, ⟨first, others, u, back.filterMap token?, ?_, ?_, ?_, ?_, hothers⟩, hbreak⟩
  · rw [hafter, List.dropWhile_append_of_pos hcomments, List.dropWhile_cons_of_neg (by simp [hu])]
  · rw [List.append_nil]
  · rwa [hbefore]
  · rw [hafter, List.takeWhile_append_of_pos hcomments, List.takeWhile_cons_of_neg (by simp [hu]),
      List.append_nil]
    exact hgap

/-- A line ends statements behind the tokens that may end one, if it ends before the next token that
is no comment, and nowhere else. -/
theorem isLineEnd_ofSource (h : ofSource source = .ok s) (hts : s.tokens = before ++ t :: after) :
    (t.isLineEnd = true → ∃ u, before.getLast? = some u ∧ u.isWritten = true) ∧
    (t.isWritten = true →
      (after.head?.any Token.isLineEnd = true ↔
        t.kind.endsStatement = true ∧
          ((∀ u ∈ after, u.isWritten = false) ∨
            ∃ gap, IsGap source.toList before t after gap ∧ '\n' ∈ gap)) ∧
      ((∃ u ∈ after, u.isWritten = true) →
        ∃ gap, IsGap source.toList before t after gap ∧
          ∀ gap', IsGap source.toList before t after gap' → gap' = gap)) := by
  constructor
  · intro ht
    obtain ⟨marks, hmarks, htokens⟩ := ofSource_eq_ok.mp h
    rw [hts] at htokens
    obtain ⟨hsome, -⟩ | hcode :=
      Token.getLast?_of_isLineEnd (by simp) hmarks.isLineEnd htokens.symm ht
    · cases hsome
    · exact hcode
  · intro ht
    obtain ⟨front, back, hmarks, hhead, hbefore, hback⟩ := exists_marks h hts ht
    obtain hall | ⟨mid, u, more, rfl, hmid, hu⟩ := Token.comments_or_exists back
    · -- Only comments follow.
      have hnone : ∀ u ∈ after, u.isWritten = false := by
        intro u hu
        refine eq_false_of_ne_true fun hcode => ?_
        obtain ⟨hmem, hcomment⟩ := (isWritten_mem_iff hback).mp ⟨hu, hcode⟩
        rw [hall u hmem] at hcomment
        cases hcomment
      constructor
      · rw [hhead, Token.endsLine_of_comments hall, Bool.and_true]
        exact ⟨fun hends => ⟨hends, .inl hnone⟩, fun hends => hends.1⟩
      · rintro ⟨u, hu, hcode⟩
        rw [hnone u hu] at hcode
        cases hcode
    · -- `u` is the next token that is no comment.
      obtain ⟨gap, hgap, hbreak⟩ := exists_isGap hmarks hbefore hback hmid hu
      constructor
      · rw [hhead, Token.endsLine_append hmid hu, ← hbreak, Bool.and_eq_true, List.contains_iff_mem]
        constructor
        · rintro ⟨hends, hline⟩
          exact ⟨hends, .inr ⟨gap, hgap, hline⟩⟩
        · rintro ⟨hends, hnone | ⟨gap', hgap', hline⟩⟩
          · obtain ⟨hmem, hcode⟩ := (isWritten_mem_iff hback).mpr ⟨by simp, hu⟩
            rw [hnone u hmem] at hcode
            cases hcode
          · rw [isGap_unique h hts ht hgap hgap'] at hline
            exact ⟨hends, hline⟩
      · intro _
        exact ⟨gap, hgap, fun gap' hgap' => isGap_unique h hts ht hgap hgap'⟩

set_option maxRecDepth 4096 in
/-- The statement ends in front of both comments, by the line break in the first one. -/
theorem isLineEnd_ofSource_comments :
    ∃ s after, ofSource "x /* a\n*/ // b\n+= y" = .ok s ∧
      s.tokens = [] ++ ⟨.identifier "x", "x", .start⟩ :: after ∧
      after.head?.any Token.isLineEnd = true ∧
      ∃ gap, IsGap "x /* a\n*/ // b\n+= y".toList [] ⟨.identifier "x", "x", .start⟩ after gap ∧
        '\n' ∈ gap := by
  obtain ⟨s, after, hs, hts, hhead, hcode⟩ :
      ∃ s after, ofSource "x /* a\n*/ // b\n+= y" = .ok s ∧
        s.tokens = [] ++ ⟨.identifier "x", "x", .start⟩ :: after ∧
        after.head?.any Token.isLineEnd = true ∧ ∃ u ∈ after, u.isWritten = true :=
    ⟨_, _, by cbv, by rfl, by decide +kernel, by decide +kernel⟩
  obtain ⟨-, hnone | hgap⟩ := ((isLineEnd_ofSource hs hts).2 rfl).1.mp hhead
  · obtain ⟨u, hu, hcode⟩ := hcode
    rw [hnone u hu] at hcode
    cases hcode
  · exact ⟨s, after, hs, hts, hhead, hgap⟩

end Scanned

end DeclBridge
