import DeclBridge.Proofs.Scan.Form

/-!
How far a token reaches depends on the text up to its end and on one or two characters more. White
space behind the text of a token leaves the token as it is.
-/

namespace DeclBridge.Token

namespace Reach

theorem whileTrue_append {p : Char → Bool} {n : Nat} {cs ds : List Char} {b : Char}
    (hb : p b = false) : whileTrue p n (cs ++ b :: ds) = whileTrue p n cs := by
  induction cs generalizing n with
  | nil => simp [whileTrue, hb]
  | cons c cs ih => simp [whileTrue, ih]

theorem whileTrue_le (p : Char → Bool) (n : Nat) (cs : List Char) :
    whileTrue p n cs ≤ n + cs.length := by
  induction cs generalizing n with
  | nil => exact Nat.le_refl _
  | cons c cs ih =>
      rw [whileTrue]
      split
      · have := ih (n + 1)
        simp only [List.length_cons]
        omega
      · exact Nat.le_add_right _ _

theorem whileTrue_eq (p : Char → Bool) (n : Nat) (cs : List Char) :
    whileTrue p n cs = n + (cs.takeWhile p).length := by
  induction cs generalizing n with
  | nil => rfl
  | cons c cs ih =>
      by_cases hc : p c = true
      · rw [whileTrue, if_pos hc, ih, List.takeWhile_cons_of_pos hc, List.length_cons]
        omega
      · rw [whileTrue, if_neg hc, List.takeWhile_cons_of_neg hc]
        rfl

theorem mem_take_whileTrue {p : Char → Bool} {d : Char} {cs : List Char}
    (h : d ∈ cs.take (whileTrue p 0 cs)) : p d = true := by
  rw [whileTrue_eq, Nat.zero_add,
    ← List.prefix_iff_eq_take.mp (List.takeWhile_prefix p)] at h
  exact List.all_eq_true.mp List.all_takeWhile d h

theorem blockComment_append {n m : Nat} {cs : List Char} (ds : List Char)
    (h : blockComment n cs = some m) : blockComment n (cs ++ ds) = some m := by
  fun_induction blockComment n cs with
  | case1 => simp at h
  | case2 => simpa [blockComment] using h
  | case3 n c cs hopen ih =>
      have hcs : cs ≠ [] := by
        rintro rfl
        simp [blockComment] at h
      obtain ⟨e, es, rfl⟩ := List.exists_cons_of_ne_nil hcs
      rw [List.cons_append, blockComment]
      · exact ih h
      · rintro rest rfl hrest
        cases hrest
        exact hopen es rfl rfl

theorem blockComment_le {n m : Nat} {cs : List Char} (h : blockComment n cs = some m) :
    m ≤ n + cs.length := by
  fun_induction blockComment n cs with
  | case1 => simp at h
  | case2 n rest =>
      cases h
      simp
  | case3 n c cs hopen ih =>
      have := ih h
      simp only [List.length_cons]
      omega

theorem quoted_append {n m : Nat} {cs : List Char} (ds : List Char) (h : quoted n cs = some m) :
    quoted n (cs ++ ds) = some m := by
  fun_induction quoted n cs with
  | case1 => simp at h
  | case2 => simpa [quoted] using h
  | case3 => simp at h
  | case4 => simp at h
  | case5 n c cs hbreak ih =>
      rw [List.cons_append, List.cons_append, quoted]
      · exact ih h
      · rintro rfl
        exact hbreak rfl
  | case6 n c cs hquote hbreak hescaped hescape ih =>
      rw [List.cons_append, quoted]
      · exact ih h
      · exact hquote
      · exact hbreak
      · rintro rest rfl hrest
        cases cs with
        | nil => simp [quoted] at h
        | cons e es =>
            cases hrest
            exact hescaped es rfl rfl
      · rintro e rest rfl hrest
        cases cs with
        | nil => simp [quoted] at h
        | cons e' es => exact hescape e' es rfl rfl

theorem quoted_le {n m : Nat} {cs : List Char} (h : quoted n cs = some m) :
    m ≤ n + cs.length := by
  fun_induction quoted n cs <;> simp_all <;> omega

theorem raw_append {n m : Nat} {cs : List Char} (ds : List Char) (h : raw n cs = some m) :
    raw n (cs ++ ds) = some m := by
  induction cs generalizing n with
  | nil => simp [raw] at h
  | cons c cs ih =>
      simp only [List.cons_append, raw] at h ⊢
      split
      · simpa [*] using h
      · rename_i hc
        rw [if_neg hc] at h
        exact ih h

theorem raw_le {n m : Nat} {cs : List Char} (h : raw n cs = some m) : m ≤ n + cs.length := by
  fun_induction raw n cs <;> simp_all <;> omega

theorem rune_append {n m : Nat} {cs : List Char} (ds : List Char) (h : rune n cs = some m) :
    rune n (cs ++ ds) = some m := by
  fun_induction rune n cs with
  | case1 => simp at h
  | case2 => simpa [rune] using h
  | case3 => simp at h
  | case4 n c cs ih => exact ih h
  | case5 n c cs hquote hbreak hescape ih =>
      rw [List.cons_append, rune]
      · exact ih h
      · exact hquote
      · exact hbreak
      · rintro e rest rfl hrest
        cases cs with
        | nil => simp [rune] at h
        | cons e' es => exact hescape e' es rfl rfl

theorem rune_le {n m : Nat} {cs : List Char} (h : rune n cs = some m) : m ≤ n + cs.length := by
  fun_induction rune n cs <;> simp_all <;> omega

/-- White space, which is part of a token only in literals and comments. -/
def isSpace (c : Char) : Bool :=
  Mark.isBlank c || c == '\n'

theorem isSpace_iff {c : Char} : isSpace c = true ↔ c = ' ' ∨ c = '\r' ∨ c = '\t' ∨ c = '\n' := by
  simp [isSpace, Mark.isBlank, or_assoc]

theorem continuesWord_of_isSpace {c : Char} (hc : isSpace c = true) : continuesWord c = false := by
  rcases isSpace_iff.mp hc with rfl | rfl | rfl | rfl <;> decide

theorem isOperator_of_isSpace {c : Char} (hc : isSpace c = true) : isOperator c = false := by
  rcases isSpace_iff.mp hc with rfl | rfl | rfl | rfl <;> decide

theorem operator_append {n : Nat} {cs ds : List Char} {b : Char} (hb : isSpace b = true) :
    operator n (cs ++ b :: ds) = operator n cs := by
  induction cs generalizing n with
  | nil =>
      have hslash : b ≠ '/' := by rintro rfl; simp [isSpace, Mark.isBlank] at hb
      simp [operator, hslash, isOperator_of_isSpace hb]
  | cons c cs ih =>
      simp only [List.cons_append, operator, ih]
      congr 2
      cases cs with
      | nil =>
          have hslash : b ≠ '/' := by rintro rfl; simp [isSpace, Mark.isBlank] at hb
          have hstar : b ≠ '*' := by rintro rfl; simp [isSpace, Mark.isBlank] at hb
          simp [hslash, hstar]
      | cons e es => rfl

theorem operator_le (n : Nat) (cs : List Char) : operator n cs ≤ n + cs.length := by
  induction cs generalizing n with
  | nil => exact Nat.le_refl _
  | cons c cs ih =>
      have := ih (n + 1)
      rw [operator]
      simp only [List.length_cons]
      split
      · omega
      · split <;> omega

theorem number_digit {hex fractional : Bool} {n : Nat} {c : Char} {cs : List Char}
    (hlike : isDigitLike c = true) (hmark : isExponentMark hex c = false) :
    number hex n fractional (c :: cs) = number hex (n + 1) (fractional || c == 'i') cs := by
  cases cs <;> simp [number, hlike, hmark]

theorem number_point {hex fractional : Bool} {n : Nat} {cs : List Char}
    (hnext : cs.head? ≠ some '.') :
    number hex n fractional ('.' :: cs) = number hex (n + 1) true cs := by
  have hdot : isDigitLike '.' = false := by decide
  cases cs <;> simp_all [number]

theorem number_end {hex fractional : Bool} {n : Nat} {c : Char} {cs : List Char}
    (hlike : isDigitLike c = false) (hpoint : ¬(c = '.' ∧ cs.head? ≠ some '.')) :
    number hex n fractional (c :: cs) = (n, fractional) := by
  cases cs <;> simp_all [number]

/-- A character that may continue a number, as part of it or as a sign in it. -/
def continuesNumber (c : Char) : Bool :=
  isDigitLike c || c == '.' || c == '+' || c == '-'

theorem continuesNumber_of_isSpace {c : Char} (hc : isSpace c = true) :
    continuesNumber c = false := by
  rcases isSpace_iff.mp hc with rfl | rfl | rfl | rfl <;> decide

theorem number_append {hex fractional : Bool} {n : Nat} {cs ds : List Char} {b : Char}
    (hb : continuesNumber b = false) :
    number hex n fractional (cs ++ b :: ds) = number hex n fractional cs := by
  simp only [continuesNumber, Bool.or_eq_false_iff, beq_eq_false_iff_ne] at hb
  obtain ⟨⟨⟨hlike, hdot⟩, hplus⟩, hminus⟩ := hb
  have hsign : ¬(b = '+' ∨ b = '-') := fun h => h.elim hplus hminus
  have hend : ∀ m fractional, number hex m fractional (b :: ds) = (m, fractional) := by
    intro m fractional
    exact number_end hlike (fun h => hdot h.1)
  fun_induction number hex n fractional cs with
  | case1 n fractional => exact hend n fractional
  | case2 n fractional c hlike hmark =>
      simp only [List.cons_append, List.nil_append, number, hlike, hmark, hsign, if_true, if_false]
      exact hend (n + 1) true
  | case3 n fractional c hlike hmark sign rest hsign ih =>
      simp only [List.cons_append, number, hlike, hmark, hsign, if_true]
      exact ih
  | case4 n fractional c hlike hmark sign rest hsign ih =>
      simp only [List.cons_append, number, hlike, hmark, hsign, if_true, if_false]
      exact ih
  | case5 n fractional c cs hlike hmark ih =>
      rw [List.cons_append, number_digit hlike (eq_false_of_ne_true hmark)]
      exact ih
  | case6 n fractional c cs hlike hpoint ih =>
      obtain ⟨rfl, hnext⟩ := hpoint
      rw [List.cons_append, number_point]
      · exact ih
      · cases cs with
        | nil => simpa using hdot
        | cons e es => simpa using hnext
  | case7 n fractional c cs hlike hpoint =>
      rw [List.cons_append, number_end (eq_false_of_ne_true hlike)]
      rintro ⟨rfl, hnext⟩
      cases cs with
      | nil => simp at hpoint
      | cons e es => exact hpoint ⟨rfl, hnext⟩

theorem number_le (hex fractional : Bool) (n : Nat) (cs : List Char) :
    (number hex n fractional cs).1 ≤ n + cs.length := by
  fun_induction number hex n fractional cs <;> simp_all <;> omega

end Reach

open Reach

theorem numberExtent_append {c b : Char} {cs ds : List Char} (hb : continuesNumber b = false) :
    numberExtent c (cs ++ b :: ds) = numberExtent c cs := by
  have hletter : b ≠ 'x' ∧ b ≠ 'X' := by constructor <;> rintro rfl <;> revert hb <;> decide
  have hhex : ((cs ++ b :: ds).head? == some 'x' || (cs ++ b :: ds).head? == some 'X') =
      (cs.head? == some 'x' || cs.head? == some 'X') := by
    cases cs with
    | nil => simp [hletter.1, hletter.2]
    | cons e es => rfl
  have hle := number_le (c == '0' && (cs.head? == some 'x' || cs.head? == some 'X')) (c == '.') 0 cs
  simp only [numberExtent, hhex, number_append hb]
  rw [List.take_append_of_le_length (by simpa using hle)]

theorem numberExtent_le {c : Char} {cs : List Char} {shape : Shape} {n : Nat}
    (h : numberExtent c cs = .ok (shape, n)) : n ≤ cs.length := by
  have hle := number_le (c == '0' && (cs.head? == some 'x' || cs.head? == some 'X')) (c == '.') 0 cs
  simp only [numberExtent] at h
  split at h
  · cases h
  · obtain ⟨-, rfl⟩ := Prod.mk.inj (Except.ok.inj h)
    simpa using hle

variable {c b : Char} {cs ds : List Char} {shape : Shape} {kind : Kind} {n : Nat}

theorem extent_le (h : extent c cs = .ok (shape, n)) : n ≤ cs.length := by
  rw [extent_eq_ok] at h
  cases h with
  | @lineComment rest _ h =>
      have hle := whileTrue_le (· != '\n') 1 rest
      rw [← h, lineComment, List.length_cons]
      omega
  | @blockComment rest _ h =>
      have hle := blockComment_le h
      rw [List.length_cons]
      omega
  | punctuation | star | dot => exact Nat.zero_le _
  | product | ellipsis =>
      simp only [List.length_cons]
      omega
  | quoted h => simpa using quoted_le h
  | raw h => simpa using raw_le h
  | rune h => simpa using rune_le h
  | int _ h | float _ h => exact numberExtent_le h
  | word _ _ h =>
      rw [← h, word]
      simpa using whileTrue_le continuesWord 0 cs
  | operator _ _ h =>
      rw [← h]
      simpa using operator_le 0 cs

theorem isSpace_of_extent (h : extent c cs = .ok (shape, n)) : isSpace c = false := by
  refine eq_false_of_ne_true fun hspace => ?_
  have hblank : c ∉ delimiters ∧ c.isDigit = false ∧ beginsWord c = false ∧
      isOperator c = false := by
    rcases isSpace_iff.mp hspace with rfl | rfl | rfl | rfl <;> decide
  obtain ⟨hdelimiter, hdigit, hword, hoperator⟩ := hblank
  rw [extent_of_not_mem_delimiters hdelimiter, hdigit, hword, hoperator] at h
  cases h

theorem head?_append_space {e : Char} (hb : isSpace b = true) (he : isSpace e = false)
    (h : (cs ++ b :: ds).head? = some e) : cs.head? = some e := by
  cases cs with
  | nil =>
      cases h
      rw [hb] at he
      cases he
  | cons => exact h

/-- White space behind the text of a token leaves the token as it is, except that only a line break
ends a line comment. -/
theorem extent_append (h : extent c cs = .ok (shape, n)) (hb : isSpace b = true)
    (hcomment : b = '\n' ∨ ¬(c = '/' ∧ cs.head? = some '/')) :
    extent c (cs ++ b :: ds) = .ok (shape, n) := by
  have hdigit : (cs ++ b :: ds).head?.any Char.isDigit = cs.head?.any Char.isDigit := by
    cases cs with
    | nil => rcases isSpace_iff.mp hb with rfl | rfl | rfl | rfl <;> rfl
    | cons => rfl
  rw [extent_eq_ok] at h ⊢
  cases h with
  | lineComment h =>
      have hb : b = '\n' := hcomment.resolve_right (fun hno => hno ⟨rfl, rfl⟩)
      subst hb
      refine .lineComment ?_
      rw [lineComment, List.append_eq, whileTrue_append (by decide)]
      exact h
  | blockComment h => exact .blockComment (blockComment_append _ h)
  | punctuation _ h => exact .punctuation _ h
  | product => exact .product _
  | star h => exact .star fun hhead => h (head?_append_space hb (by decide) hhead)
  | ellipsis => exact .ellipsis _
  | dot hdots h =>
      refine .dot (fun hhead hnext => ?_) (by rw [hdigit]; exact h)
      have hhead := head?_append_space hb (by decide) hhead
      obtain ⟨es, rfl⟩ := List.head?_eq_some_iff.mp hhead
      exact hdots rfl (head?_append_space hb (by decide) hnext)
  | quoted h => exact .quoted (quoted_append _ h)
  | raw h => exact .raw (raw_append _ h)
  | rune h => exact .rune (rune_append _ h)
  | int hnumber h =>
      exact .int hnumber (by rw [numberExtent_append (continuesNumber_of_isSpace hb)]; exact h)
  | float hnumber h =>
      refine .float (by rw [beginsNumber, hdigit]; exact hnumber) ?_
      rw [numberExtent_append (continuesNumber_of_isSpace hb)]
      exact h
  | word hword hdigit h =>
      refine .word hword hdigit ?_
      rw [word, whileTrue_append (continuesWord_of_isSpace hb)]
      exact h
  | operator hoperator hno h =>
      refine .operator hoperator ?_ (by rw [operator_append hb]; exact h)
      rintro ⟨hc, hhead⟩
      exact hno ⟨hc, hhead.imp (head?_append_space hb (by decide))
        (head?_append_space hb (by decide))⟩

/-- The tokens that are always written alike. -/
def exactKinds : List Kind :=
  [.opening .round, .closing .round, .opening .square, .closing .square, .opening .curly,
    .closing .curly, .comma, .semicolon, .operator "*=", .star, .ellipsis, .dot]

theorem mem_exactKinds_of_extent (h : extent c cs = .ok (.exact kind, n)) : kind ∈ exactKinds := by
  rw [extent_eq_ok] at h
  cases h with
  | punctuation _ h =>
      unfold punctuation? at h
      split at h <;> cases h <;> decide
  | product | star | ellipsis | dot => decide

/-- Only the first characters of a comment make a token a comment. -/
theorem isComment_of_extent (h : extent c cs = .ok (.exact kind, n)) : kind.isComment = false := by
  have hall : ∀ kind ∈ exactKinds, kind.isComment = false := by decide
  exact hall kind (mem_exactKinds_of_extent h)

/-- Words stay on their line, and so do the tokens that are always written alike. -/
theorem not_mem_take_of_extent (h : extent c cs = .ok (shape, n))
    (hshape : shape = .word ∨ ∃ kind, shape = .exact kind) : '\n' ∉ cs.take n := by
  rw [extent_eq_ok] at h
  cases h with
  | punctuation | star | dot => simp
  | product | ellipsis => simp
  | word _ _ h =>
      intro hmem
      rw [← h, word] at hmem
      have hword := mem_take_whileTrue hmem
      revert hword
      decide
  | _ => simp at hshape

end DeclBridge.Token
