import DeclBridge.Proofs.Scan.Extent
import DeclBridge.Token.Scanned

/-!
Scanning as a judgment on texts and places. Scanning is checked with the text behind it present, so
that two scans in a row are one and the longest match is never split.
-/

namespace DeclBridge

namespace Position

def down (k : Nat) (p : Position) : Position :=
  ⟨p.line + k, p.column⟩

theorem afterAll_down (k : Nat) (p : Position) (cs : List Char) :
    (p.down k).afterAll cs = (p.afterAll cs).down k := by
  induction cs generalizing p with
  | nil => rfl
  | cons c cs ih =>
      rw [afterAll_cons, afterAll_cons, ← ih]
      congr 1
      simp only [after, down, shift]
      split
      · simp only [Position.mk.injEq, and_true]
        omega
      · rfl

theorem line_afterAll (p : Position) (cs : List Char) :
    (p.afterAll cs).line = p.line + cs.count '\n' := by
  induction cs generalizing p with
  | nil => rfl
  | cons c cs ih =>
      rw [afterAll_cons, ih, List.count_cons, after]
      by_cases hc : c = '\n'
      · simp only [hc, if_true, beq_self_eq_true]
        omega
      · simp [hc, shift]

end Position

namespace Token

def down (k : Nat) (t : Token) : Token :=
  { t with position := t.position.down k }

/-- The line on which the token ends. A rune literal stays on its line, whatever it holds. -/
def lastLine (t : Token) : Nat :=
  match t.kind with
  | .char _ => t.line
  | _ => t.line + t.lexeme.toList.count '\n'

theorem line_le_lastLine (t : Token) : t.line ≤ t.lastLine := by
  unfold lastLine
  split
  · exact Nat.le_refl _
  · exact Nat.le_add_right _ _

end Token

theorem Token.Shape.dropReturns_sublist (text : List Char) :
    (dropReturns text).Sublist text := by
  have h := (List.dropWhile_sublist (· == '\r') (l := text.reverse)).reverse
  rwa [List.reverse_reverse] at h

namespace Mark

open Token (Shape extent)
open Token.Reach (isSpace isSpace_iff)

def down (k : Nat) : Mark → Mark
  | lineBreak behind => lineBreak (behind.down k)
  | token t => token (t.down k)

def line : Mark → Nat
  | lineBreak behind => behind.line
  | token t => t.line

/-- The line on which the next mark begins at the earliest. -/
def lastLine : Mark → Nat
  | lineBreak behind => behind.line + 1
  | token t => t.lastLine

/-- The token of the given shape and text at a place. -/
def tokenAt (p : Position) (shape : Shape) (text : List Char) : Token :=
  ⟨shape.kind text, String.ofList text, p⟩

/-- The marks of the text from a place on, up to another place before the rest of the text. -/
inductive Scans : Position → List Char → List Mark → Position → List Char → Prop where
  | done {p : Position} {cs : List Char} : Scans p cs [] p cs
  | blank {p q : Position} {c : Char} {cs ds : List Char} {marks : List Mark} :
      isBlank c = true → Scans (p.shift 1) cs marks q ds → Scans p (c :: cs) marks q ds
  | lineBreak {p q : Position} {cs ds : List Char} {marks : List Mark} :
      Scans ⟨p.line + 1, 1⟩ cs marks q ds →
      Scans p ('\n' :: cs) (lineBreak (p.shift 1) :: marks) q ds
  | token {p q : Position} {c : Char} {cs ds : List Char} {shape : Shape} {n : Nat}
      {marks : List Mark} :
      isSpace c = false → extent c cs = .ok (shape, n) →
      Scans (behind p shape (c :: cs.take n)) (cs.drop n) marks q ds →
      Scans p (c :: cs) (token (tokenAt p shape (c :: cs.take n)) :: marks) q ds

theorem Scans.trans {p q r : Position} {cs ds es : List Char} {marks more : List Mark}
    (h : Scans p cs marks q ds) (h' : Scans q ds more r es) :
    Scans p cs (marks ++ more) r es := by
  induction h with
  | done => exact h'
  | blank hc _ ih => exact .blank hc (ih h')
  | lineBreak _ ih => exact .lineBreak (ih h')
  | token hc hn _ ih => exact .token hc hn (ih h')

theorem scans_of_ofText {p last : Position} {cs : List Char} {marks : List Mark}
    (h : ofText p cs = .ok (marks, last)) : Scans p cs marks last [] := by
  induction p, cs using ofText.induct generalizing marks with
  | case1 p =>
      rw [ofText] at h
      cases h
      exact .done
  | case2 p c cs hc ih =>
      rw [ofText, if_pos hc] at h
      exact .blank hc (ih h)
  | case3 p cs hc ih =>
      rw [ofText, if_neg hc, if_pos rfl] at h
      obtain ⟨⟨more, place⟩, hmore, ⟨⟩⟩ := bind_eq_ok.mp h
      exact .lineBreak (ih hmore)
  | case4 p c cs hc hbreak fault hn =>
      rw [ofText, if_neg hc, if_neg hbreak, hn] at h
      cases h
  | case5 p c cs hc hbreak shape n hn =>
      rename_i ih
      rw [ofText, if_neg hc, if_neg hbreak, hn] at h
      obtain ⟨⟨more, place⟩, hmore, ⟨⟩⟩ := bind_eq_ok.mp h
      exact .token (by simp [isSpace, hc, hbreak]) hn (ih hmore)

theorem ofText_of_scans {p last : Position} {cs : List Char} {marks : List Mark}
    (h : Scans p cs marks last []) : ofText p cs = .ok (marks, last) := by
  generalize hds : ([] : List Char) = ds at h
  induction h with
  | done =>
      subst hds
      rw [ofText]
  | blank hc _ ih =>
      rw [ofText, if_pos hc]
      exact ih hds
  | @lineBreak p q cs ds marks _ ih =>
      rw [ofText, if_neg (by decide), if_pos rfl]
      exact bind_eq_ok.mpr ⟨(marks, q), ih hds, rfl⟩
  | @token p q c cs ds shape n marks hc hn _ ih =>
      simp only [isSpace, Bool.or_eq_false_iff, beq_eq_false_iff_ne] at hc
      rw [ofText, if_neg (by simp [hc.1]), if_neg hc.2, hn]
      exact bind_eq_ok.mpr ⟨(marks, q), ih hds, rfl⟩

theorem behind_down (k : Nat) (p : Position) (shape : Shape) (text : List Char) :
    behind (p.down k) shape text = (behind p shape text).down k := by
  unfold behind
  split
  · rfl
  · exact Position.afterAll_down k p text

/-- The same text some lines below has the same marks there. -/
theorem Scans.down (k : Nat) {p q : Position} {cs ds : List Char} {marks : List Mark}
    (h : Scans p cs marks q ds) : Scans (p.down k) cs (marks.map (Mark.down k)) (q.down k) ds := by
  induction h with
  | done => exact .done
  | blank hc _ ih => exact .blank hc ih
  | @lineBreak p q cs ds marks _ ih =>
      have hline : (⟨p.line + 1, 1⟩ : Position).down k = ⟨(p.down k).line + 1, 1⟩ := by
        simp only [Position.down, Position.mk.injEq, and_true]
        omega
      rw [hline] at ih
      exact .lineBreak ih
  | token hc hn _ ih =>
      rw [← behind_down] at ih
      exact .token hc hn ih

theorem Scans.append_lineBreak (fs : List Char) {p q : Position} {cs ds : List Char}
    {marks : List Mark} (h : Scans p cs marks q ds) :
    Scans p (cs ++ '\n' :: fs) marks q (ds ++ '\n' :: fs) := by
  induction h with
  | done => exact .done
  | blank hc _ ih => exact .blank hc ih
  | lineBreak _ ih => exact .lineBreak ih
  | @token p q c cs ds shape n marks hc hn _ ih =>
      have hle := Token.extent_le hn
      have htake : (cs ++ '\n' :: fs).take n = cs.take n := List.take_append_of_le_length hle
      rw [← List.drop_append_of_le_length hle] at ih
      rw [← htake] at ih ⊢
      exact .token hc (Token.extent_append hn (by decide) (.inl rfl)) ih

theorem lastLine_tokenAt_le (p : Position) (shape : Shape) (text : List Char) :
    (tokenAt p shape text).lastLine ≤ (behind p shape text).line := by
  unfold behind
  split
  · rename_i hrune
    subst hrune
    exact Nat.le_refl _
  · rw [Position.line_afterAll, Token.lastLine]
    split
    · exact Nat.le_add_right _ _
    · simp [tokenAt, Token.line]

theorem line_le_lastLine (m : Mark) : m.line ≤ m.lastLine := by
  cases m with
  | lineBreak => exact Nat.le_succ _
  | token t => exact t.line_le_lastLine

theorem Scans.line_le {p q : Position} {cs ds : List Char} {marks : List Mark}
    (h : Scans p cs marks q ds) : p.line ≤ q.line := by
  induction h with
  | done => exact Nat.le_refl _
  | blank _ _ ih => exact ih
  | lineBreak _ ih => exact Nat.le_of_succ_le ih
  | @token p q c cs ds shape n marks _ _ _ ih =>
      have hline := lastLine_tokenAt_le p shape (c :: cs.take n)
      have hstart := Token.line_le_lastLine (tokenAt p shape (c :: cs.take n))
      exact Nat.le_trans hstart (Nat.le_trans hline ih)

theorem Scans.lines {p q : Position} {cs ds : List Char} {marks : List Mark}
    (h : Scans p cs marks q ds) : ∀ m ∈ marks, p.line ≤ m.line ∧ m.lastLine ≤ q.line := by
  induction h with
  | done => simp
  | blank _ _ ih => exact ih
  | lineBreak h ih =>
      intro m hm
      cases hm with
      | head => exact ⟨Nat.le_refl _, h.line_le⟩
      | tail _ hm => exact ⟨Nat.le_of_succ_le (ih m hm).1, (ih m hm).2⟩
  | @token p q c cs ds shape n marks _ _ h ih =>
      have hline := lastLine_tokenAt_le p shape (c :: cs.take n)
      have hstart := Token.line_le_lastLine (tokenAt p shape (c :: cs.take n))
      intro m hm
      cases hm with
      | head => exact ⟨Nat.le_refl _, Nat.le_trans hline h.line_le⟩
      | tail _ hm =>
          exact ⟨Nat.le_trans hstart (Nat.le_trans hline (ih m hm).1), (ih m hm).2⟩

/-- A mark ends before the next one begins. -/
theorem Scans.pairwise {p q : Position} {cs ds : List Char} {marks : List Mark}
    (h : Scans p cs marks q ds) : marks.Pairwise fun m m' => m.lastLine ≤ m'.line := by
  induction h with
  | done => exact .nil
  | blank _ _ ih => exact ih
  | lineBreak h ih => exact .cons (fun m hm => (h.lines m hm).1) ih
  | @token p q c cs ds shape n marks _ _ h ih =>
      have hline := lastLine_tokenAt_le p shape (c :: cs.take n)
      exact .cons (fun m hm => Nat.le_trans hline (h.lines m hm).1) ih

/-- The text of a comment is what is written, up to carriage returns at its end. -/
theorem comment_tokenAt {p : Position} {c : Char} {cs : List Char} {shape : Shape} {n : Nat}
    {text : List Char} {comment : String} (hn : extent c cs = .ok (shape, n))
    (h : (tokenAt p shape text).kind = .comment comment) :
    comment.toList = Shape.dropReturns text := by
  unfold tokenAt Shape.kind at h
  cases shape with
  | comment =>
      cases h
      exact String.toList_ofList
  | word =>
      simp only at h
      split at h <;> cases h
  | operator =>
      simp only at h
      split at h
      · cases h
      · split at h <;> cases h
  | exact kind =>
      have hkind := Token.isComment_of_extent hn
      simp only at h
      rw [h] at hkind
      cases hkind
  | _ => cases h

theorem Scans.comment_text {p q : Position} {cs ds : List Char} {marks : List Mark}
    (h : Scans p cs marks q ds) {t : Token} (ht : .token t ∈ marks) {comment : String}
    (hcomment : t.kind = .comment comment) :
    comment.toList = Shape.dropReturns t.lexeme.toList := by
  induction h with
  | done => simp at ht
  | blank _ _ ih => exact ih ht
  | lineBreak _ ih =>
      rcases List.mem_cons.mp ht with ht | ht
      · cases ht
      · exact ih ht
  | token _ hn _ ih =>
      rcases List.mem_cons.mp ht with ht | ht
      · cases ht
        rw [comment_tokenAt hn hcomment, tokenAt, String.toList_ofList]
      · exact ih ht

end Mark

end DeclBridge
