import DeclBridge.Proofs.Scan.Marks

/-!
The tokens of a text and those of a longer one. Tokens move with their lines, and what stands behind
a line break does not change the tokens before it.
-/

namespace DeclBridge

namespace Token

/-- The second token is the first one `k` lines below, in any column. -/
structure Moves (k : Nat) (t u : Token) : Prop where
  kind : u.kind = t.kind
  lexeme : u.lexeme = t.lexeme
  line : u.line = t.line + k

theorem moves_down (k : Nat) (t : Token) : Moves k t (t.down k) :=
  ⟨rfl, rfl, rfl⟩

theorem Moves.refl (t : Token) : Moves 0 t t :=
  ⟨rfl, rfl, rfl⟩

/-- The second list holds the tokens of the first one `k` lines below, and `more` behind them. -/
inductive Relocates (k : Nat) (more : List Token) : List Token → List Token → Prop where
  | nil : Relocates k more [] more
  | cons {t u : Token} {ts us : List Token} :
      Moves k t u → Relocates k more ts us → Relocates k more (t :: ts) (u :: us)

theorem relocates_down (k : Nat) (ts : List Token) : Relocates k [] ts (ts.map (Token.down k)) := by
  induction ts with
  | nil => exact .nil
  | cons t ts ih => exact .cons (moves_down k t) ih

theorem Relocates.append {more ts us : List Token} (vs : List Token)
    (h : Relocates 0 more ts us) : Relocates 0 more (vs ++ ts) (vs ++ us) := by
  induction vs with
  | nil => exact h
  | cons v vs ih => exact .cons (.refl v) ih

theorem lineEndBefore_moves {comments : List Token} {p q : Position} (h : q.line = p.line) :
    Moves 0 (lineEndBefore comments p) (lineEndBefore comments q) := by
  cases comments with
  | nil => exact ⟨rfl, rfl, h⟩
  | cons => exact .refl _

theorem endStatements_token {t : Token} (ht : t.kind.isComment = false) (last : Position)
    (pending : Option (List Token)) (marks : List Mark) :
    endStatements last pending (.token t :: marks) =
      pending.getD [] ++
        t :: endStatements last (if t.kind.endsStatement then some [] else none) marks := by
  cases pending <;> simp [endStatements, ht]

/-- The end of a text counts as the line break behind it does. -/
theorem endStatements_append {last last' p : Position} (hline : p.line = last.line)
    (pending : Option (List Token)) (marks more : List Mark) :
    Relocates 0 (endStatements last' none more) (endStatements last pending marks)
      (endStatements last' pending (marks ++ .lineBreak p :: more)) := by
  fun_induction endStatements last pending marks with
  | case1 => exact .nil
  | case2 comments =>
      -- The end of the first text ends the statement, as the line break does.
      simp only [List.nil_append, endStatements, List.cons_append]
      refine .cons (lineEndBefore_moves hline) ?_
      simpa using Relocates.append comments .nil
  | case3 _ _ ih => exact ih
  | case4 comments q marks ih =>
      simp only [List.cons_append, endStatements]
      exact .cons (.refl _) (ih.append comments)
  | case5 t marks ht ih =>
      simp only [List.cons_append, endStatements, ht, if_true]
      exact .cons (.refl t) ih
  | case6 t marks ht comments hbreak ih =>
      simp only [List.cons_append, endStatements, ht, hbreak, if_true]
      exact ih
  | case7 t marks ht comments q hbreak ih =>
      simp only [List.cons_append, endStatements, ht, hbreak, if_true]
      exact .cons (.refl _) (Relocates.append comments (.cons (.refl t) ih))
  | case8 pending t marks ht ih =>
      rw [List.cons_append, endStatements_token (eq_false_of_ne_true ht)]
      exact Relocates.append (pending.getD []) (.cons (.refl t) ih)

theorem lineEndBefore_down (k : Nat) (comments : List Token) (p : Position) :
    lineEndBefore (comments.map (Token.down k)) (p.down k) =
      (lineEndBefore comments p).down k := by
  cases comments <;> rfl

theorem innerBreak?_down (k : Nat) (t : Token) :
    (t.down k).innerBreak? = t.innerBreak?.map (Position.down k) := by
  by_cases h : t.lexeme.toList.contains '\n' = true
  · simp only [innerBreak?, Token.down, h, if_true]
    rfl
  · simp only [innerBreak?, Token.down, h]
    rfl

/-- The tokens of marks some lines below are the same tokens there. -/
theorem endStatements_down (k : Nat) (last : Position) (pending : Option (List Token))
    (marks : List Mark) :
    endStatements (last.down k) (pending.map (List.map (Token.down k)))
        (marks.map (Mark.down k)) =
      (endStatements last pending marks).map (Token.down k) := by
  fun_induction endStatements last pending marks with
  | case1 => rfl
  | case2 comments =>
      simp only [Option.map_some, List.map_nil, endStatements, List.map_cons, lineEndBefore_down]
  | case3 p marks ih => exact ih
  | case4 comments p marks ih =>
      simp only [Option.map_some, Option.map_none, List.map_cons, Mark.down, endStatements,
        lineEndBefore_down, List.map_append] at ih ⊢
      rw [ih]
  | case5 t marks ht ih =>
      simp only [Option.map_none, List.map_cons, Mark.down, endStatements] at ih ⊢
      rw [if_pos (show (t.down k).kind.isComment = true from ht), ih]
  | case6 t marks ht comments hbreak ih =>
      simp only [Option.map_some, List.map_cons, Mark.down, endStatements, innerBreak?_down, hbreak,
        Option.map_none, List.map_append, List.map_nil] at ih ⊢
      rw [if_pos (show (t.down k).kind.isComment = true from ht), ih]
  | case7 t marks ht comments p hbreak ih =>
      simp only [Option.map_some, Option.map_none, List.map_cons, Mark.down, endStatements,
        innerBreak?_down, hbreak, lineEndBefore_down, List.map_append] at ih ⊢
      rw [if_pos (show (t.down k).kind.isComment = true from ht), ih]
  | case8 pending t marks ht ih =>
      have hpending : (pending.map (List.map (Token.down k))).getD [] =
          (pending.getD []).map (Token.down k) := by
        cases pending <;> rfl
      have hnext : (if t.kind.endsStatement = true then some [] else none).map
          (List.map (Token.down k)) = if t.kind.endsStatement = true then some [] else none := by
        split <;> rfl
      rw [hnext] at ih
      have ht : (t.down k).kind.isComment = false := eq_false_of_ne_true ht
      rw [List.map_cons, Mark.down, endStatements_token ht, hpending, List.map_append,
        List.map_cons, ← ih]
      rfl

theorem line_of_innerBreak? {t : Token} {p : Position} (h : t.innerBreak? = some p) :
    p.line = t.line := by
  simp only [innerBreak?] at h
  split at h
  · cases h
    rfl
  · cases h

/-- The token lies on the lines from `a` to `b`. -/
structure Within (a b : Nat) (t : Token) : Prop where
  first : a ≤ t.line
  last : t.line ≤ b
  comment : t.kind.isComment = true → t.lastLine ≤ b

theorem within_lineEndBefore {a b : Nat} {comments : List Token} {p : Position}
    (hcomments : ∀ t ∈ comments, Within a b t) (hp : a ≤ p.line ∧ p.line ≤ b) :
    Within a b (lineEndBefore comments p) := by
  cases comments with
  | nil => exact ⟨hp.1, hp.2, by simp [lineEndBefore, lineEnd, Kind.isComment]⟩
  | cons t ts =>
      have ht := hcomments t (by simp)
      exact ⟨ht.first, ht.last, by simp [lineEndBefore, lineEnd, Kind.isComment]⟩

/-- The tokens of a text lie on its lines. -/
theorem within_endStatements {a b : Nat} {last : Position} {pending : Option (List Token)}
    {marks : List Mark} (hmarks : ∀ m ∈ marks, a ≤ m.line ∧ m.lastLine ≤ b)
    (hpending : ∀ t ∈ pending.getD [], Within a b t) (hlast : a ≤ last.line ∧ last.line ≤ b) :
    ∀ t ∈ endStatements last pending marks, Within a b t := by
  have hhead : ∀ {t : Token} {marks : List Mark},
      (∀ m ∈ Mark.token t :: marks, a ≤ m.line ∧ m.lastLine ≤ b) → Within a b t := by
    intro t marks h
    obtain ⟨hfirst, hlast⟩ := h (.token t) (by simp)
    exact ⟨hfirst, Nat.le_trans t.line_le_lastLine hlast, fun _ => hlast⟩
  have htail : ∀ {m : Mark} {marks : List Mark},
      (∀ n ∈ m :: marks, a ≤ n.line ∧ n.lastLine ≤ b) →
        ∀ n ∈ marks, a ≤ n.line ∧ n.lastLine ≤ b :=
    fun h n hn => h n (List.mem_cons_of_mem _ hn)
  fun_induction endStatements last pending marks with
  | case1 => simp
  | case2 comments =>
      intro t ht
      rcases List.mem_cons.mp ht with rfl | ht
      · exact within_lineEndBefore hpending hlast
      · exact hpending t ht
  | case3 p marks ih => exact ih (htail hmarks) hpending
  | case4 comments p marks ih =>
      obtain ⟨hfirst, hline⟩ := hmarks (.lineBreak p) (by simp)
      intro t ht
      rcases List.mem_append.mp ht with ht | ht
      · rcases List.mem_cons.mp ht with rfl | ht
        · exact within_lineEndBefore hpending ⟨hfirst, Nat.le_of_succ_le hline⟩
        · exact hpending t ht
      · exact ih (htail hmarks) (by simp) t ht
  | case5 t marks ht ih =>
      intro u hu
      rcases List.mem_cons.mp hu with rfl | hu
      · exact hhead hmarks
      · exact ih (htail hmarks) (by simp) u hu
  | case6 t marks ht comments hbreak ih =>
      refine ih (htail hmarks) ?_
      intro u hu
      rcases List.mem_append.mp hu with hu | hu
      · exact hpending u hu
      · cases List.mem_singleton.mp hu
        exact hhead hmarks
  | case7 t marks ht comments p hbreak ih =>
      have htoken := hhead hmarks
      intro u hu
      rcases List.mem_append.mp hu with hu | hu
      · rcases List.mem_cons.mp hu with rfl | hu
        · refine within_lineEndBefore hpending ?_
          rw [line_of_innerBreak? hbreak]
          exact ⟨htoken.first, htoken.last⟩
        · exact hpending u hu
      · rcases List.mem_cons.mp hu with rfl | hu
        · exact htoken
        · exact ih (htail hmarks) (by simp) u hu
  | case8 pending t marks ht ih =>
      intro u hu
      rcases List.mem_append.mp hu with hu | hu
      · exact hpending u hu
      · rcases List.mem_cons.mp hu with rfl | hu
        · exact hhead hmarks
        · refine ih (htail hmarks) ?_ u hu
          split <;> simp

theorem mem_endStatements {last : Position} {pending : Option (List Token)} {marks : List Mark}
    {t : Token} (h : t ∈ endStatements last pending marks) :
    t ∈ pending.getD [] ∨ .token t ∈ marks ∨ ∃ p, t = lineEnd p := by
  fun_induction endStatements last pending marks with
  | case1 => simp at h
  | case2 | case3 | case4 | case5 | case6 | case7 => grind [lineEndBefore]
  | case8 pending t marks ht ih =>
      have hnext : (if t.kind.endsStatement = true then some [] else none).getD [] =
          ([] : List Token) := by
        split <;> rfl
      grind

end Token

namespace Scanned

open Token (Relocates Within endStatements)

theorem ofSource_eq_ok {source : String} {s : Scanned} :
    ofSource source = .ok s ↔
      ∃ marks, Mark.Scans .start source.toList marks s.last [] ∧
        s.tokens = endStatements s.last none marks := by
  rcases s with ⟨tokens, last⟩
  constructor
  · intro h
    obtain ⟨⟨marks, place⟩, hmarks, ⟨⟩⟩ := bind_eq_ok.mp h
    exact ⟨marks, Mark.scans_of_ofText hmarks, rfl⟩
  · rintro ⟨marks, hmarks, htokens⟩
    refine bind_eq_ok.mpr ⟨(marks, last), Mark.ofText_of_scans hmarks, ?_⟩
    simp only at htokens
    rw [htokens]
    rfl

theorem within_ofSource {source : String} {s : Scanned} (h : ofSource source = .ok s) :
    ∀ t ∈ s.tokens, Within 1 s.last.line t := by
  obtain ⟨marks, hmarks, htokens⟩ := ofSource_eq_ok.mp h
  rw [htokens]
  exact Token.within_endStatements hmarks.lines (by simp) ⟨hmarks.line_le, Nat.le_refl _⟩

theorem comment_of_ofSource {source : String} {s : Scanned} (h : ofSource source = .ok s)
    {t : Token} (ht : t ∈ s.tokens) {text : String} (hkind : t.kind = .comment text) :
    t.line + text.toList.count '\n' ≤ s.last.line := by
  have hlast := (within_ofSource h t ht).comment (by rw [hkind]; rfl)
  obtain ⟨marks, hmarks, htokens⟩ := ofSource_eq_ok.mp h
  rw [htokens] at ht
  have hmark : .token t ∈ marks := by
    rcases Token.mem_endStatements ht with ht | ht | ⟨p, rfl⟩
    · simp at ht
    · exact ht
    · cases hkind
  rw [hmarks.comment_text hmark hkind]
  refine Nat.le_trans (Nat.add_le_add_left ?_ _) (by rwa [Token.lastLine, hkind] at hlast)
  exact (Token.Shape.dropReturns_sublist _).count_le _

/-- Two texts with an empty line between them have the tokens of both, those of the second one below
the lines of the first. -/
theorem ofSource_join {source source' : String} {s s' : Scanned}
    (h : ofSource source = .ok s) (h' : ofSource source' = .ok s') :
    ∃ joined, ofSource (source ++ "\n\n" ++ source') = .ok joined ∧
      Relocates 0 (s'.tokens.map (Token.down (s.last.line + 1))) s.tokens joined.tokens := by
  obtain ⟨marks, hmarks, htokens⟩ := ofSource_eq_ok.mp h
  obtain ⟨marks', hmarks', htokens'⟩ := ofSource_eq_ok.mp h'
  have hbelow : Position.start.down (s.last.line + 1) = ⟨s.last.line + 1 + 1, 1⟩ := by
    simp only [Position.start, Position.down, Position.mk.injEq, and_true]
    omega
  have hrest := hmarks'.down (s.last.line + 1)
  rw [hbelow] at hrest
  have hscan :=
    (hmarks.append_lineBreak ('\n' :: source'.toList)).trans (.lineBreak (.lineBreak hrest))
  have htext : (source ++ "\n\n" ++ source').toList =
      source.toList ++ '\n' :: '\n' :: source'.toList := by
    simp
  rw [← htext] at hscan
  refine ⟨⟨endStatements (s'.last.down (s.last.line + 1)) none _, s'.last.down (s.last.line + 1)⟩,
    ofSource_eq_ok.mpr ⟨_, hscan, rfl⟩, ?_⟩
  have hmore := Token.endStatements_down (s.last.line + 1) s'.last none marks'
  rw [← htokens'] at hmore
  rw [htokens, ← hmore]
  exact Token.endStatements_append (by rfl) none marks (.lineBreak _ :: marks'.map _)

end Scanned

end DeclBridge
