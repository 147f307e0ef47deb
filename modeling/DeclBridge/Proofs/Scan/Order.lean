import DeclBridge.Proofs.Scan.Tokens

/-!
The order of tokens on lines. A token does not begin above the end of an earlier one, and behind the
end of a statement only comments follow on its line.
-/

namespace DeclBridge

/-- Whether a type expression may end with the token. -/
def Token.Kind.endsType : Kind → Bool
  | identifier _ | closing _ => true
  | _ => false

namespace Mark

open Token.Reach (isSpace)

theorem shape_of_endsType {shape : Token.Shape} {text : List Char}
    (h : (shape.kind text).endsType = true) : shape = .word ∨ ∃ kind, shape = .exact kind := by
  cases shape with
  | word => exact .inl rfl
  | exact kind => exact .inr ⟨kind, rfl⟩
  | operator =>
      simp only [Token.Shape.kind] at h
      split at h
      · cases h
      · split at h <;> cases h
  | _ => cases h

/-- What a type expression may end with is on one line. -/
theorem Scans.lastLine_eq {p q : Position} {cs ds : List Char} {marks : List Mark}
    (h : Scans p cs marks q ds) :
    ∀ t, .token t ∈ marks → t.kind.endsType = true → t.lastLine = t.line := by
  induction h with
  | done => simp
  | blank _ _ ih => exact ih
  | lineBreak _ ih =>
      intro t ht
      exact ih t (by simpa using ht)
  | @token p q c cs ds shape n marks hspace hn _ ih =>
      intro t ht hkind
      rcases List.mem_cons.mp ht with ht | ht
      · cases ht
        have hflat := Token.not_mem_take_of_extent hn (shape_of_endsType hkind)
        have hfirst : c ≠ '\n' := by
          rintro rfl
          revert hspace
          decide
        have hcount : (c :: cs.take n).count '\n' = 0 :=
          List.count_eq_zero.mpr (by simpa [hfirst.symm] using hflat)
        unfold Token.lastLine
        split
        · rfl
        · simp only [tokenAt, String.toList_ofList, hcount]
          rfl
      · exact ih t ht hkind

/-- No token that is written is the end of a statement that a line break stands for. -/
theorem Scans.isLineEnd {p q : Position} {cs ds : List Char} {marks : List Mark}
    (h : Scans p cs marks q ds) : ∀ t, .token t ∈ marks → t.isLineEnd = false := by
  induction h with
  | done => simp
  | blank _ _ ih => exact ih
  | lineBreak _ ih =>
      intro t ht
      exact ih t (by simpa using ht)
  | @token p q c cs ds shape n marks hspace _ _ ih =>
      intro t ht
      rcases List.mem_cons.mp ht with ht | ht
      · cases ht
        refine eq_false_of_ne_true (fun hend => ?_)
        simp only [Token.isLineEnd, tokenAt, Bool.and_eq_true, beq_iff_eq] at hend
        have hlist := congrArg String.toList hend.2
        rw [String.toList_ofList] at hlist
        cases (List.cons.inj hlist).1
        revert hspace
        decide
      · exact ih t ht

end Mark

namespace Token

open Mark (token)

/-- How a token lies to a later one. -/
structure Precedes (t u : Token) : Prop where
  line : t.line ≤ u.line
  lastLine : t.isLineEnd = false → t.lastLine ≤ u.line
  lineEnd : t.isLineEnd = true → u.kind.isComment = true ∨ t.line < u.line

variable {ts : List Token} {p last : Position} {marks : List Mark}

theorem precedes_of_lastLine {t u : Token} (ht : t.isLineEnd = false) (h : t.lastLine ≤ u.line) :
    Precedes t u :=
  ⟨Nat.le_trans t.line_le_lastLine h, fun _ => h, fun hend => by rw [ht] at hend; cases hend⟩

/-- Comments that wait and the marks behind them are in the order of the lines up to the last
one. -/
structure InOrder (last : Position) (pending : List Token) (marks : List Mark) : Prop where
  comment : ∀ t ∈ pending, t.kind.isComment = true
  written : ∀ t, token t ∈ pending.map token ++ marks → t.isLineEnd = false
  pairwise : (pending.map token ++ marks).Pairwise fun m n => m.lastLine ≤ n.line
  last : ∀ m ∈ pending.map token ++ marks, m.lastLine ≤ last.line

variable {pending : List Token} {m : Mark}

theorem InOrder.behind (h : InOrder last pending (m :: marks)) : InOrder last [] marks := by
  have hsub : (([] : List Token).map token ++ marks).Sublist (pending.map token ++ m :: marks) :=
    (List.sublist_cons_self m marks).trans (List.sublist_append_right _ _)
  exact ⟨by simp, fun t ht => h.written t (hsub.subset ht), h.pairwise.sublist hsub,
    fun n hn => h.last n (hsub.subset hn)⟩

theorem InOrder.pairwise_pending (h : InOrder last pending marks) : pending.Pairwise Precedes := by
  have hpairwise := (List.pairwise_append.mp h.pairwise).1
  rw [List.pairwise_map] at hpairwise
  refine hpairwise.imp_of_mem ?_
  intro t u ht _ hline
  exact precedes_of_lastLine (h.written t (by simp [ht])) hline

theorem InOrder.lastLine_le (h : InOrder last pending (m :: marks)) :
    ∀ t ∈ pending, t.lastLine ≤ m.line := by
  intro t ht
  exact (List.pairwise_append.mp h.pairwise).2.2 (token t) (by simp [ht]) m (by simp)

theorem InOrder.line_le (h : InOrder last pending (m :: marks)) {waiting : Option (List Token)}
    (hwaiting : waiting.getD [] = []) :
    ∀ t ∈ endStatements last waiting marks, m.lastLine ≤ t.line := by
  have hmarks := List.pairwise_cons.mp (List.pairwise_append.mp h.pairwise).2.1
  have hwithin : ∀ t ∈ endStatements last waiting marks, Within m.lastLine last.line t :=
    within_endStatements (fun n hn => ⟨hmarks.1 n hn, h.last n (by simp [hn])⟩)
      (by simp [hwaiting]) ⟨h.last m (by simp), Nat.le_refl _⟩
  exact fun t ht => (hwithin t ht).first

/-- The comments that wait stand between the end of their statement and what follows it. -/
theorem pairwise_lineEndBefore (h : InOrder last pending marks)
    (hline : ∀ t ∈ pending, t.lastLine ≤ p.line) (hts : ts.Pairwise Precedes)
    (hbelow : ∀ t ∈ ts, p.line ≤ t.line ∧ (t.kind.isComment = true ∨ p.line < t.line)) :
    (lineEndBefore pending p :: pending ++ ts).Pairwise Precedes := by
  have hfirst : (lineEndBefore pending p).line ≤ p.line ∧
      ∀ t ∈ pending, (lineEndBefore pending p).line ≤ t.line := by
    cases pending with
    | nil => exact ⟨Nat.le_refl _, by simp⟩
    | cons c cs =>
        refine ⟨Nat.le_trans c.line_le_lastLine (hline c (by simp)), ?_⟩
        intro t ht
        rcases List.mem_cons.mp ht with rfl | ht
        · exact Nat.le_refl _
        · exact ((List.pairwise_cons.mp h.pairwise_pending).1 t ht).line
  have hend : (lineEndBefore pending p).isLineEnd = true := rfl
  rw [List.cons_append, List.pairwise_cons, List.pairwise_append]
  refine ⟨?_, h.pairwise_pending, hts, ?_⟩
  · intro t ht
    rcases List.mem_append.mp ht with ht | ht
    · exact ⟨hfirst.2 t ht, by simp [hend], fun _ => .inl (h.comment t ht)⟩
    · exact ⟨Nat.le_trans hfirst.1 (hbelow t ht).1, by simp [hend],
        fun _ => (hbelow t ht).2.imp_right (Nat.lt_of_le_of_lt hfirst.1)⟩
  · intro t ht u hu
    exact precedes_of_lastLine (h.written t (by simp [ht]))
      (Nat.le_trans (hline t ht) (hbelow u hu).1)

theorem lastLine_of_innerBreak? {t : Token} (ht : t.kind.isComment = true)
    (h : t.innerBreak? = some p) : t.line < t.lastLine := by
  have hbreak : '\n' ∈ t.lexeme.toList := by
    simp only [innerBreak?] at h
    split at h
    · rename_i hbreak
      simpa using hbreak
    · cases h
  have hcount := List.count_pos_iff.mpr hbreak
  rw [lastLine]
  split
  · simp_all [Kind.isComment]
  · omega

/-- The tokens of a text are in the order of its lines. -/
theorem pairwise_endStatements {waiting : Option (List Token)}
    (h : InOrder last (waiting.getD []) marks) :
    (endStatements last waiting marks).Pairwise Precedes := by
  -- `InOrder` goes from case to case: it tells of the comments that wait and the marks behind them.
  fun_induction endStatements last waiting marks with
  | case1 => exact .nil
  | case2 comments =>
      have hall : (lineEndBefore comments last :: comments ++ []).Pairwise Precedes :=
        pairwise_lineEndBefore h (fun t ht => h.last (token t) (by simpa using ht)) .nil (by simp)
      rwa [List.append_nil] at hall
  | case3 p marks ih => exact ih h.behind
  | case4 comments p marks ih =>
      have hbelow : ∀ t ∈ endStatements last none marks, p.line + 1 ≤ t.line := h.line_le rfl
      refine pairwise_lineEndBefore h h.lastLine_le (ih h.behind) ?_
      intro t ht
      exact ⟨Nat.le_of_succ_le (hbelow t ht), .inr (hbelow t ht)⟩
  | case5 t marks ht ih =>
      have hbelow : ∀ u ∈ endStatements last none marks, t.lastLine ≤ u.line := h.line_le rfl
      refine .cons ?_ (ih h.behind)
      intro u hu
      exact precedes_of_lastLine (h.written t (by simp)) (hbelow u hu)
  | case6 t marks ht comments hbreak ih =>
      refine ih ?_
      have hlist : comments.map token ++ token t :: marks =
          (comments ++ [t]).map token ++ marks := by
        simp
      refine ⟨?_, ?_, ?_, ?_⟩
      · intro u hu
        rcases List.mem_append.mp hu with hu | hu
        · exact h.comment u hu
        · cases List.mem_singleton.mp hu
          exact ht
      · exact hlist ▸ h.written
      · exact hlist ▸ h.pairwise
      · exact hlist ▸ h.last
  | case7 t marks ht comments p hbreak ih =>
      have hbelow : ∀ u ∈ endStatements last none marks, t.lastLine ≤ u.line := h.line_le rfl
      -- The statement ends at the first line break in `t`: on the line of `t`, above what follows.
      have hline := line_of_innerBreak? hbreak
      have hlast := lastLine_of_innerBreak? ht hbreak
      refine pairwise_lineEndBefore h ?_ (.cons ?_ (ih h.behind)) ?_
      · rw [hline]
        exact h.lastLine_le
      · intro u hu
        exact precedes_of_lastLine (h.written t (by simp)) (hbelow u hu)
      · intro u hu
        rcases List.mem_cons.mp hu with rfl | hu
        · exact ⟨Nat.le_of_eq hline, .inl ht⟩
        · have hlt : p.line < u.line := by
            rw [hline]
            exact Nat.lt_of_lt_of_le hlast (hbelow u hu)
          exact ⟨Nat.le_of_lt hlt, .inr hlt⟩
  | case8 waiting t marks ht ih =>
      have hnext : (if t.kind.endsStatement = true then some [] else none).getD [] =
          ([] : List Token) := by
        split <;> rfl
      rw [hnext] at ih
      rw [List.pairwise_append, List.pairwise_cons]
      refine ⟨h.pairwise_pending, ⟨?_, ih h.behind⟩, ?_⟩
      · intro u hu
        exact precedes_of_lastLine (h.written t (by simp)) (h.line_le hnext u hu)
      · intro u hu v hv
        have hline := h.lastLine_le u hu
        refine precedes_of_lastLine (h.written u (by simp [hu])) ?_
        rcases List.mem_cons.mp hv with rfl | hv
        · exact hline
        · exact Nat.le_trans hline
            (Nat.le_trans (Mark.line_le_lastLine (token t)) (h.line_le hnext v hv))

end Token

namespace Scanned

theorem pairwise_ofSource {source : String} {s : Scanned} (h : ofSource source = .ok s) :
    s.tokens.Pairwise Token.Precedes := by
  obtain ⟨marks, hmarks, htokens⟩ := ofSource_eq_ok.mp h
  rw [htokens]
  refine Token.pairwise_endStatements ⟨by simp, hmarks.isLineEnd, hmarks.pairwise, ?_⟩
  exact fun m hm => (hmarks.lines m hm).2

theorem lastLine_of_ofSource {source : String} {s : Scanned} (h : ofSource source = .ok s)
    {t : Token} (ht : t ∈ s.tokens) (hkind : t.kind.endsType = true) : t.lastLine = t.line := by
  obtain ⟨marks, hmarks, htokens⟩ := ofSource_eq_ok.mp h
  rw [htokens] at ht
  rcases Token.mem_endStatements ht with ht | ht | ⟨p, rfl⟩
  · simp at ht
  · exact hmarks.lastLine_eq t ht hkind
  · cases hkind

end Scanned

end DeclBridge
