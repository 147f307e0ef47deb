import Mathlib
import DeclBridge.Proofs.Scan.Layout
import DeclBridge.Proofs.Scan.Order

/-!
Where the tokens stand in their text. A text is the texts of its tokens with white space around
them, and the place of a token counts the line breaks and the characters in front of it, unless a
rune literal in front of it holds a line break.
-/

namespace DeclBridge

namespace Position

/-- The place behind a text, counted in the text itself: one line more than it has line breaks, and
one column more than it has characters behind the last of them. -/
def counted (text : List Char) : Position :=
  ⟨1 + text.count '\n', 1 + (text.reverse.takeWhile (· != '\n')).length⟩

theorem after_counted (text : List Char) (c : Char) :
    (counted text).after c = counted (text ++ [c]) := by
  unfold after counted
  by_cases hc : c = '\n'
  · subst hc
    simp [Nat.add_assoc]
  · have hcount : [c].count '\n' = 0 := List.count_eq_zero.mpr (by simpa using Ne.symm hc)
    rw [if_neg hc, List.count_append, hcount, List.reverse_append, List.reverse_singleton,
      List.singleton_append, List.takeWhile_cons_of_pos (by simpa using hc), List.length_cons]
    simp [shift, Nat.add_assoc]

theorem afterAll_start (text : List Char) : start.afterAll text = counted text := by
  induction text using List.reverseRecOn with
  | nil => rfl
  | append_singleton text c ih =>
      rw [afterAll_append, ih]
      exact after_counted text c

theorem afterAll_of_not_mem {text : List Char} (h : '\n' ∉ text) (p : Position) :
    p.afterAll text = p.shift text.length := by
  induction text generalizing p with
  | nil => rfl
  | cons c text ih =>
      rw [List.mem_cons, not_or] at h
      rw [afterAll_cons, ih h.2, after, if_neg (Ne.symm h.1)]
      simp only [shift, List.length_cons, Position.mk.injEq, true_and]
      omega

end Position

namespace Token

open Reach (isSpace isSpace_iff)

/-- The texts of the tokens, each with the gap behind it. -/
def interleave (ts : List Token) (gaps : List (List Char)) : List Char :=
  (List.zipWith (fun t gap => t.lexeme.toList ++ gap) ts gaps).flatten

/-- The source is a gap of white space and then the texts of the tokens, each with a gap behind
it. -/
structure Gaps (source : List Char) (ts : List Token) (first : List Char)
    (gaps : List (List Char)) : Prop where
  length : gaps.length = ts.length
  blank : ∀ gap ∈ first :: gaps, ∀ c ∈ gap, c ∈ [' ', '\r', '\t', '\n']
  text : source = first ++ interleave ts gaps

variable {cs ds front : List Char} {ts before after : List Token} {t : Token}

theorem isSpace_iff_mem {c : Char} : isSpace c = true ↔ c ∈ [' ', '\r', '\t', '\n'] := by
  simp [isSpace_iff]

theorem Fills.gaps (h : Fills cs ts) : ∃ first gaps, Gaps cs ts first gaps := by
  induction h with
  | nil => exact ⟨[], [], rfl, by simp, rfl⟩
  | @space c cs ts hc _ ih =>
      obtain ⟨first, gaps, hlength, hblank, rfl⟩ := ih
      refine ⟨c :: first, gaps, hlength, ?_, rfl⟩
      intro gap hgap d hd
      rcases List.mem_cons.mp hgap with rfl | hgap
      · rcases List.mem_cons.mp hd with rfl | hd
        · exact isSpace_iff_mem.mp hc
        · exact hblank first List.mem_cons_self d hd
      · exact hblank gap (List.mem_cons_of_mem _ hgap) d hd
  | @token t cs ts _ ih =>
      obtain ⟨first, gaps, hlength, hblank, rfl⟩ := ih
      refine ⟨[], first :: gaps, by simp [hlength], ?_, by simp [interleave]⟩
      intro gap hgap
      rcases List.mem_cons.mp hgap with rfl | hgap
      · simp
      · exact hblank gap hgap

theorem takeWhile_isSpace_append (hblank : ∀ c ∈ cs, c ∈ [' ', '\r', '\t', '\n'])
    (hds : Opens ds) : (cs ++ ds).takeWhile isSpace = cs := by
  obtain ⟨d, ds, rfl, hd⟩ := hds
  rw [List.takeWhile_append_of_pos fun c hc => isSpace_iff_mem.mpr (hblank c hc),
    List.takeWhile_cons_of_neg (by simp [hd]), List.append_nil]

/-- White space and tokens lie in a text in one way only. -/
theorem Gaps.unique {first first' : List Char} {gaps gaps' : List (List Char)}
    (h : Gaps cs ts first gaps) (h' : Gaps cs ts first' gaps')
    (hts : ∀ t ∈ ts, Opens t.lexeme.toList) : first' = first ∧ gaps' = gaps := by
  induction ts generalizing cs first first' gaps gaps' with
  | nil =>
      have hgaps := List.eq_nil_of_length_eq_zero h.length
      have hgaps' := List.eq_nil_of_length_eq_zero h'.length
      subst hgaps hgaps'
      have heq := h'.text.symm.trans h.text
      simpa [interleave] using heq
  | cons t ts ih =>
      obtain ⟨hlength, hblank, rfl⟩ := h
      obtain ⟨hlength', hblank', hsource⟩ := h'
      obtain ⟨gap, gaps, rfl⟩ := List.exists_cons_of_length_eq_add_one hlength
      obtain ⟨gap', gaps', rfl⟩ := List.exists_cons_of_length_eq_add_one hlength'
      have hopens : ∀ rest, Opens (t.lexeme.toList ++ rest) := (hts t (by simp)).append
      simp only [interleave, List.zipWith_cons_cons, List.flatten_cons, List.append_assoc]
        at hsource
      have hfirst : first' = first := by
        rw [← takeWhile_isSpace_append (hblank' first' List.mem_cons_self) (hopens _), ← hsource,
          takeWhile_isSpace_append (hblank first List.mem_cons_self) (hopens _)]
      subst hfirst
      have hrest := List.append_cancel_left (List.append_cancel_left hsource)
      obtain ⟨rfl, rfl⟩ := @ih _ gap gap' gaps gaps'
        ⟨by simpa using hlength, fun g hg => hblank g (List.mem_cons_of_mem _ hg), rfl⟩
        ⟨by simpa using hlength', fun g hg => hblank' g (List.mem_cons_of_mem _ hg), hrest⟩
        fun u hu => hts u (by simp [hu])
      exact ⟨rfl, rfl⟩

/-- The text in front of a token holds the tokens before it, and the text behind it those after
it. -/
def Stands (source : List Char) (before : List Token) (t : Token) (after : List Token)
    (front : List Char) : Prop :=
  ∃ back, source = front ++ (t.lexeme.toList ++ back) ∧ Fills front (withoutLineEnds before) ∧
    Fills back (withoutLineEnds after)

/-- The line breaks of a rune literal, which count neither as lines nor as the beginnings of
lines. -/
def hiddenBreaks (t : Token) : Nat :=
  match t.kind with
  | .char _ => t.lexeme.toList.count '\n'
  | _ => 0

theorem hiddenBreaks_of_isLineEnd (h : t.isLineEnd = true) : t.hiddenBreaks = 0 := by
  unfold hiddenBreaks
  split
  · next hkind => simp [isLineEnd, hkind] at h
  · rfl

theorem hiddenBreaks_tokenAt {c : Char} {shape : Shape} {n : Nat}
    (hn : extent c cs = .ok (shape, n)) (p : Position) :
    (Mark.tokenAt p shape (c :: cs.take n)).hiddenBreaks =
      if shape = .rune then (c :: cs.take n).count '\n' else 0 := by
  have hshape : (shape.kind (c :: cs.take n)).shape = shape := shape_kind (isWhole_of_extent hn)
  unfold hiddenBreaks Mark.tokenAt
  rw [String.toList_ofList]
  split
  · next hkind =>
      dsimp only at hkind
      rw [hkind] at hshape
      exact (if_pos hshape.symm).symm
  · next hkind =>
      rw [if_neg]
      rintro rfl
      exact hkind _ rfl

end Token

namespace Mark

open Token (extent hiddenBreaks)

variable {p q : Position} {c : Char} {cs ds : List Char} {shape : Token.Shape} {n : Nat}
  {marks : List Mark}

/-- Behind a token the scanner is as many lines too high as there are hidden line breaks. -/
theorem behind_eq (hn : extent c cs = .ok (shape, n)) (p : Position) :
    (behind p shape (c :: cs.take n)).line + (tokenAt p shape (c :: cs.take n)).hiddenBreaks =
        p.line + (c :: cs.take n).count '\n' ∧
      ((tokenAt p shape (c :: cs.take n)).hiddenBreaks = 0 →
        behind p shape (c :: cs.take n) = p.afterAll (c :: cs.take n)) := by
  rw [Token.hiddenBreaks_tokenAt hn, behind]
  split
  · refine ⟨rfl, ?_⟩
    intro hcount
    exact (Position.afterAll_of_not_mem (List.count_eq_zero.mp hcount) p).symm
  · exact ⟨Position.line_afterAll p _, fun _ => rfl⟩

theorem Scans.place (h : Scans p cs marks q ds) :
    ∃ text, cs = text ++ ds ∧
      q.line + ((marks.filterMap token?).map hiddenBreaks).sum = p.line + text.count '\n' ∧
      ((∀ t ∈ marks.filterMap token?, t.hiddenBreaks = 0) → q = p.afterAll text) := by
  induction h with
  | done => exact ⟨[], rfl, rfl, fun _ => rfl⟩
  | @blank p q c cs ds marks hc _ ih =>
      obtain ⟨text, rfl, hline, hplace⟩ := ih
      have hbreak : c ≠ '\n' := by
        rintro rfl
        simp [isBlank] at hc
      refine ⟨c :: text, rfl, ?_, ?_⟩
      · rw [List.count_cons_of_ne hbreak]
        exact hline
      · intro hhidden
        rw [Position.afterAll_cons, Position.after, if_neg hbreak]
        exact hplace hhidden
  | lineBreak _ ih =>
      obtain ⟨text, rfl, hline, hplace⟩ := ih
      refine ⟨'\n' :: text, rfl, ?_, hplace⟩
      rw [List.count_cons_self, List.filterMap_cons_none rfl]
      dsimp only at hline
      omega
  | @token p q c cs ds shape n marks _ hn _ ih =>
      obtain ⟨text, hcs, hline, hplace⟩ := ih
      obtain ⟨hbehind, heq⟩ := behind_eq hn p
      refine ⟨c :: cs.take n ++ text, ?_, ?_, ?_⟩
      · rw [List.cons_append, List.cons_append, List.append_assoc, ← hcs, List.take_append_drop]
      · rw [List.filterMap_cons_some (token?_token _), List.map_cons, List.sum_cons,
          List.count_append]
        omega
      · intro hhidden
        rw [List.filterMap_cons_some (token?_token _), List.forall_mem_cons] at hhidden
        rw [Position.afterAll_append, ← heq hhidden.1]
        exact hplace hhidden.2

/-- A place is the counted one exactly if no line break in front of it is hidden. -/
theorem Scans.place_iff (h : Scans .start cs marks q ds) :
    ∃ text, cs = text ++ ds ∧
      (q = .counted text ↔ ∀ t ∈ marks.filterMap token?, t.hiddenBreaks = 0) := by
  obtain ⟨text, hcs, hline, hplace⟩ := h.place
  rw [Position.afterAll_start] at hplace
  refine ⟨text, hcs, ?_, hplace⟩
  rintro rfl
  have hsum : ((marks.filterMap token?).map hiddenBreaks).sum = 0 := by
    simp only [Position.counted, Position.start] at hline
    omega
  intro t ht
  exact List.sum_eq_zero_iff_forall_eq_nat.mp hsum _ (List.mem_map_of_mem ht)

end Mark

namespace Scanned

open Token (withoutLineEnds Gaps Stands Fills)
open Mark (token token?)

variable {source : String} {s : Scanned} {before after : List Token} {t : Token}

theorem withoutLineEnds_ofSource (h : ofSource source = .ok s) :
    ∃ marks, Mark.Scans .start source.toList marks s.last [] ∧
      withoutLineEnds s.tokens = marks.filterMap token? := by
  obtain ⟨marks, hmarks, htokens⟩ := ofSource_eq_ok.mp h
  refine ⟨marks, hmarks, ?_⟩
  rw [htokens]
  exact Token.withoutLineEnds_endStatements (by simp) hmarks.isLineEnd

theorem isGenuine_of_mem (h : ofSource source = .ok s) (ht : t ∈ withoutLineEnds s.tokens) :
    t.IsGenuine := by
  obtain ⟨hmem, hlineEnd⟩ := List.mem_filter.mp ht
  exact isGenuine_of_ofSource h t hmem (by simpa using hlineEnd)

/-- A source text is white space and the texts of its tokens in turn, in one way only, and the text
of each token is what the scanner makes that token of. -/
theorem ofSource_gaps (h : ofSource source = .ok s) :
    (∃ first gaps, Gaps source.toList (withoutLineEnds s.tokens) first gaps ∧
      ∀ first' gaps', Gaps source.toList (withoutLineEnds s.tokens) first' gaps' →
        first' = first ∧ gaps' = gaps) ∧
    ∀ t ∈ withoutLineEnds s.tokens, t.IsGenuine := by
  have hgenuine : ∀ t ∈ withoutLineEnds s.tokens, t.IsGenuine := fun t => isGenuine_of_mem h
  refine ⟨?_, hgenuine⟩
  obtain ⟨marks, hmarks, htokens⟩ := withoutLineEnds_ofSource h
  obtain ⟨text, htext, hfills, -⟩ := hmarks.fills
  rw [List.append_nil] at htext
  rw [← htext, ← htokens] at hfills
  obtain ⟨first, gaps, hgaps⟩ := hfills.gaps
  refine ⟨first, gaps, hgaps, ?_⟩
  intro first' gaps' hgaps'
  exact hgaps.unique hgaps' fun t ht => Token.opens_of_isGenuine (hgenuine t ht)

/-- Comments are tokens, and the carriage return belongs to the one on its line. -/
theorem ofSource_gaps_comments :
    ∃ s, ofSource "\tx /* a\n*/ += 'b' // c\r\n" = .ok s ∧
      (withoutLineEnds s.tokens).map Token.lexeme =
        ["x", "/* a\n*/", "+=", "'b'", "// c\r"] ∧
      ∃ first gaps, Gaps "\tx /* a\n*/ += 'b' // c\r\n".toList (withoutLineEnds s.tokens) first
        gaps := by
  obtain ⟨s, hs, hlexemes⟩ : ∃ s, ofSource "\tx /* a\n*/ += 'b' // c\r\n" = .ok s ∧
      (withoutLineEnds s.tokens).map Token.lexeme =
        ["x", "/* a\n*/", "+=", "'b'", "// c\r"] :=
    ⟨_, by cbv, by decide +kernel⟩
  obtain ⟨⟨first, gaps, hgaps, -⟩, -⟩ := ofSource_gaps hs
  exact ⟨s, hs, hlexemes, first, gaps, hgaps⟩

theorem marks_around (h : ofSource source = .ok s) (hts : s.tokens = before ++ t :: after)
    (ht : t.isLineEnd = false) :
    ∃ front back, Mark.Scans .start source.toList (front ++ token t :: back) s.last [] ∧
      withoutLineEnds before = front.filterMap token? ∧
      withoutLineEnds after = back.filterMap token? := by
  obtain ⟨marks, hmarks, htokens⟩ := withoutLineEnds_ofSource h
  rw [hts, Token.withoutLineEnds_append, Token.withoutLineEnds_cons ht] at htokens
  obtain ⟨left, right, rfl, hleft, hright⟩ := List.filterMap_eq_append_iff.mp htokens.symm
  obtain ⟨skipped, m, back, rfl, hskipped, hm, hback⟩ := List.filterMap_eq_cons_iff.mp hright
  obtain ⟨rfl⟩ : m = token t := by
    cases m with
    | lineBreak => cases hm
    | token u => cases hm; rfl
  refine ⟨left ++ skipped, back, by rwa [List.append_assoc], ?_, hback.symm⟩
  rw [List.filterMap_append, hleft, List.filterMap_eq_nil_iff.mpr hskipped, List.append_nil]

/-- A written token of a source text parts the text. -/
theorem exists_stands (h : ofSource source = .ok s) (hts : s.tokens = before ++ t :: after)
    (ht : t.isLineEnd = false) :
    ∃ front, Stands source.toList before t after front ∧
      (t.position = .counted front ↔ ∀ u ∈ withoutLineEnds before, u.hiddenBreaks = 0) := by
  obtain ⟨marks, marks', hmarks, hbefore, hafter⟩ := marks_around h hts ht
  obtain ⟨c, es, shape, n, hfront, hn, -, hback⟩ := hmarks.reaches
  obtain ⟨front, hsource, hplace⟩ := hfront.place_iff
  obtain ⟨front', hsource', hfills, -⟩ := hfront.fills
  obtain rfl := List.append_cancel_right (hsource.symm.trans hsource')
  obtain ⟨rest, r, htext, hrest⟩ := hback.behind_token (Token.isSpace_of_extent hn)
  obtain ⟨back, hend, hfills', -⟩ := hrest.fills
  rw [List.append_nil] at hend
  rw [← hbefore] at hplace hfills
  rw [← hafter, ← hend] at hfills'
  refine ⟨front, ⟨rest, ?_, hfills, hfills'⟩, hplace⟩
  rw [hsource, htext]

theorem stands_unique (h : ofSource source = .ok s) (hts : s.tokens = before ++ t :: after)
    (ht : t.isLineEnd = false) {front front' : List Char}
    (hfront : Stands source.toList before t after front)
    (hfront' : Stands source.toList before t after front') : front = front' := by
  obtain ⟨back, hsource, hfills, -⟩ := hfront
  obtain ⟨back', hsource', hfills', -⟩ := hfront'
  have hopens : ∀ u ∈ withoutLineEnds s.tokens, Token.Opens u.lexeme.toList := by
    intro u hu
    exact Token.opens_of_isGenuine (isGenuine_of_mem h hu)
  rw [hts, Token.withoutLineEnds_append, Token.withoutLineEnds_cons ht] at hopens
  have hopen := hopens t (by simp)
  refine hfills.unique hfills' ?_ (hopen.append back) (hopen.append back')
    (hsource.symm.trans hsource')
  intro u hu
  exact hopens u (by simp [hu])

theorem hiddenBreaks_withoutLineEnds {ts : List Token} :
    (∀ u ∈ withoutLineEnds ts, u.hiddenBreaks = 0) ↔ ∀ u ∈ ts, u.hiddenBreaks = 0 := by
  constructor
  · intro h u hu
    by_cases hlineEnd : u.isLineEnd = true
    · exact Token.hiddenBreaks_of_isLineEnd hlineEnd
    · exact h u (List.mem_filter.mpr ⟨hu, by simpa using hlineEnd⟩)
  · intro h u hu
    exact h u (List.mem_filter.mp hu).1

theorem position_iff (h : ofSource source = .ok s) (hts : s.tokens = before ++ t :: after)
    (ht : t.isLineEnd = false) {front : List Char}
    (hfront : Stands source.toList before t after front) :
    t.position = .counted front ↔ ∀ u ∈ before, u.hiddenBreaks = 0 := by
  obtain ⟨front', hfront', hplace⟩ := exists_stands h hts ht
  rw [stands_unique h hts ht hfront hfront', hplace, hiddenBreaks_withoutLineEnds]

theorem last_iff (h : ofSource source = .ok s) :
    s.last = .counted source.toList ↔ ∀ u ∈ s.tokens, u.hiddenBreaks = 0 := by
  obtain ⟨marks, hmarks, htokens⟩ := withoutLineEnds_ofSource h
  obtain ⟨text, htext, hplace⟩ := hmarks.place_iff
  rw [List.append_nil] at htext
  rw [htext, hplace, ← htokens, hiddenBreaks_withoutLineEnds]

/-- Every written token of the text and the end of the text are at the places that are counted in
the text. -/
def CountsPlaces (source : String) : Prop :=
  ∀ s, ofSource source = .ok s →
    (∀ before t after, s.tokens = before ++ t :: after → t.isLineEnd = false →
      ∃ front, Stands source.toList before t after front ∧ t.position = .counted front) ∧
    s.last = .counted source.toList

/-- The places of a text are the counted ones exactly if no rune literal of it holds a line
break. -/
theorem countsPlaces_iff (source : String) :
    CountsPlaces source ↔
      ∀ s, ofSource source = .ok s → ∀ t ∈ s.tokens, t.hiddenBreaks = 0 := by
  constructor
  · intro h s hs
    exact (last_iff hs).mp (h s hs).2
  · intro h s hs
    refine ⟨?_, (last_iff hs).mpr (h s hs)⟩
    intro before t after hts ht
    obtain ⟨front, hfront, hplace⟩ := exists_stands hs hts ht
    refine ⟨front, hfront, hplace.mpr (hiddenBreaks_withoutLineEnds.mpr ?_)⟩
    intro u hu
    exact h s hs u (by simp [hts, hu])

/-- Behind a rune literal with an escaped line break everything is one line too high. -/
theorem not_countsPlaces_rune : ¬ CountsPlaces "'\\\n';" := by
  intro h
  have hsource : ofSource "'\\\n';" = .ok
      ⟨[⟨.char "'\\\n'", "'\\\n'", ⟨1, 1⟩⟩, ⟨.semicolon, ";", ⟨1, 5⟩⟩], ⟨1, 6⟩⟩ := by
    cbv
  have hlast : (⟨1, 6⟩ : Position) = .counted ['\'', '\\', '\n', '\'', ';'] := (h _ hsource).2
  revert hlast
  decide

end Scanned

end DeclBridge
