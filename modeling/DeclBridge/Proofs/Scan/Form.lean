import DeclBridge.Token.Mark

/-!
The forms of tokens: how each begins and how far it reaches.
-/

namespace DeclBridge.Token

open Reach

/-- Whether a character may begin a word. -/
def beginsWord (c : Char) : Bool :=
  Text.isAlphabetic c || c == '_'

/-- The characters that begin tokens in ways of their own. -/
def delimiters : List Char :=
  ['(', ')', '[', ']', '{', '}', ',', ';', '*', '/', '.', '"', '`', '\'']

/-- The characters that are always tokens of their own, as those tokens. -/
def punctuation? : Char → Option Kind
  | '(' => some (.opening .round)
  | ')' => some (.closing .round)
  | '[' => some (.opening .square)
  | ']' => some (.closing .square)
  | '{' => some (.opening .curly)
  | '}' => some (.closing .curly)
  | ',' => some .comma
  | ';' => some .semicolon
  | _ => none

/-- Whether a number begins with a character, which may be its point. -/
def beginsNumber (c : Char) (cs : List Char) : Bool :=
  c.isDigit || (c == '.' && cs.head?.any Char.isDigit)

/-- The first characters of a token of the given shape, which takes `n` characters behind the first
one. -/
inductive HasExtent : Char → List Char → Shape → Nat → Prop where
  | lineComment {rest : List Char} {n : Nat} :
      lineComment 1 rest = n → HasExtent '/' ('/' :: rest) .comment n
  | blockComment {rest : List Char} {n : Nat} :
      blockComment 1 rest = some n → HasExtent '/' ('*' :: rest) .comment n
  | punctuation {c : Char} {kind : Kind} (cs : List Char) :
      punctuation? c = some kind → HasExtent c cs (.exact kind) 0
  | product (rest : List Char) : HasExtent '*' ('=' :: rest) (.exact (.operator "*=")) 1
  | star {cs : List Char} : cs.head? ≠ some '=' → HasExtent '*' cs (.exact .star) 0
  | ellipsis (rest : List Char) : HasExtent '.' ('.' :: '.' :: rest) (.exact .ellipsis) 2
  | dot {cs : List Char} : (cs.head? = some '.' → cs.tail.head? ≠ some '.') →
      cs.head?.any Char.isDigit = false → HasExtent '.' cs (.exact .dot) 0
  | quoted {cs : List Char} {n : Nat} : quoted 0 cs = some n → HasExtent '"' cs .string n
  | raw {cs : List Char} {n : Nat} : raw 0 cs = some n → HasExtent '`' cs .string n
  | rune {cs : List Char} {n : Nat} : rune 0 cs = some n → HasExtent '\'' cs .rune n
  | int {c : Char} {cs : List Char} {n : Nat} :
      c.isDigit = true → numberExtent c cs = .ok (.int, n) → HasExtent c cs .int n
  | float {c : Char} {cs : List Char} {n : Nat} :
      beginsNumber c cs = true → numberExtent c cs = .ok (.float, n) → HasExtent c cs .float n
  | word {c : Char} {cs : List Char} {n : Nat} :
      beginsWord c = true → c.isDigit = false → word 0 cs = n → HasExtent c cs .word n
  | operator {c : Char} {cs : List Char} {n : Nat} :
      isOperator c = true → ¬(c = '/' ∧ (cs.head? = some '/' ∨ cs.head? = some '*')) →
      operator 0 cs = n → HasExtent c cs .operator n

variable {c : Char} {cs : List Char} {shape : Shape} {n : Nat}

theorem ofReach_eq_ok {shape shape' : Shape} {fault : LexicalFault} {reach : Option Nat} {n : Nat} :
    Extent.ofReach shape fault reach = .ok (shape', n) ↔ shape = shape' ∧ reach = some n := by
  cases reach <;> simp [Extent.ofReach]

theorem extent_of_not_mem_delimiters (h : c ∉ delimiters) (cs : List Char) :
    extent c cs =
      if c.isDigit then numberExtent c cs
      else if beginsWord c then .ok (.word, word 0 cs)
      else if isOperator c then .ok (.operator, operator 0 cs)
      else .error (.unexpectedCharacter c) := by
  simp only [delimiters, List.mem_cons, List.not_mem_nil, or_false, not_or] at h
  rw [extent]
  · have hdot : (c == '.') = false := beq_false_of_ne (by simp [h])
    simp only [hdot, Bool.false_and, Bool.or_false, beginsWord]
    rw [if_neg (show ¬c = '.' by simp [h])]
    rfl
  all_goals simp [h]

theorem not_mem_delimiters {p : Char → Bool} (hp : delimiters.any p = false) (h : p c = true) :
    c ∉ delimiters := by
  intro hc
  exact List.any_eq_false.mp hp c hc h

theorem snd_number_of_fractional (hex : Bool) (n : Nat) (cs : List Char) :
    (number hex n true cs).2 = true := by
  generalize hfractional : true = fractional
  fun_induction number hex n fractional cs <;> simp_all

theorem hasExtent_of_numberExtent (hnumber : beginsNumber c cs = true)
    (h : numberExtent c cs = .ok (shape, n)) : HasExtent c cs shape n := by
  have hshape : shape = if (number (c == '0' && (cs.head? == some 'x' || cs.head? == some 'X')) 0
      (c == '.') cs).2 then .float else .int := by
    simp only [numberExtent] at h
    split at h
    · cases h
    · exact (Prod.mk.inj (Except.ok.inj h)).1.symm
  split at hshape
  · subst hshape
    exact .float hnumber h
  · rename_i hfractional
    subst hshape
    have hdigit : c.isDigit = true := by
      rcases Bool.or_eq_true_iff.mp hnumber with hdigit | hdot
      · exact hdigit
      · rw [(Bool.and_eq_true_iff.mp hdot).1, snd_number_of_fractional] at hfractional
        exact absurd rfl hfractional
    exact .int hdigit h

theorem hasExtent_of_extent (h : extent c cs = .ok (shape, n)) : HasExtent c cs shape n := by
  unfold extent at h
  split at h
  case h_1 =>
    cases h
    exact .lineComment rfl
  case h_2 =>
    obtain ⟨rfl, hreach⟩ := ofReach_eq_ok.mp h
    exact .blockComment hreach
  case h_11 =>
    cases h
    exact .product _
  case h_12 hassign =>
    cases h
    refine .star fun hhead => ?_
    obtain ⟨rest, rfl⟩ := List.head?_eq_some_iff.mp hhead
    exact hassign rest rfl
  case h_13 =>
    cases h
    exact .ellipsis _
  case h_14 =>
    obtain ⟨rfl, hreach⟩ := ofReach_eq_ok.mp h
    exact .quoted hreach
  case h_15 =>
    obtain ⟨rfl, hreach⟩ := ofReach_eq_ok.mp h
    exact .raw hreach
  case h_16 =>
    obtain ⟨rfl, hreach⟩ := ofReach_eq_ok.mp h
    exact .rune hreach
  case h_17 hline hblock _ hdots =>
    -- The character has no case of its own: a number, a dot, a word or an operator.
    split at h
    · rename_i hnumber
      exact hasExtent_of_numberExtent hnumber h
    · rename_i hnumber
      rw [← beginsNumber, Bool.not_eq_true, beginsNumber, Bool.or_eq_false_iff] at hnumber
      split at h
      · rename_i hdot
        cases h
        subst hdot
        refine .dot (fun hhead hnext => ?_) (by simpa using hnumber.2)
        obtain ⟨tail, rfl⟩ := List.head?_eq_some_iff.mp hhead
        obtain ⟨rest, hrest⟩ := List.head?_eq_some_iff.mp hnext
        rw [List.tail_cons] at hrest
        exact hdots rest rfl (by rw [hrest])
      · split at h
        · rename_i hword
          cases h
          exact .word hword hnumber.1 rfl
        · split at h
          · rename_i hoperator
            cases h
            refine .operator hoperator ?_ rfl
            rintro ⟨rfl, hhead | hhead⟩
            · obtain ⟨rest, rfl⟩ := List.head?_eq_some_iff.mp hhead
              exact hline rest rfl rfl
            · obtain ⟨rest, rfl⟩ := List.head?_eq_some_iff.mp hhead
              exact hblock rest rfl rfl
          · cases h
  -- The cases that are left are those of punctuation.
  all_goals
    cases h
    exact .punctuation _ rfl

theorem extent_of_hasExtent (h : HasExtent c cs shape n) : extent c cs = .ok (shape, n) := by
  cases h with
  | lineComment h => rw [← h]; rfl
  | blockComment h => exact ofReach_eq_ok.mpr ⟨rfl, h⟩
  | punctuation _ h =>
      unfold punctuation? at h
      split at h <;> cases h <;> rfl
  | product => rfl
  | star h =>
      rw [extent]
      rintro rest rfl
      exact h rfl
  | ellipsis => rfl
  | dot hdots hdigit =>
      rw [extent]
      · rw [hdigit]
        rfl
      all_goals try (intros; contradiction)
      rintro rest - rfl
      exact hdots rfl rfl
  | quoted h => exact ofReach_eq_ok.mpr ⟨rfl, h⟩
  | raw h => exact ofReach_eq_ok.mpr ⟨rfl, h⟩
  | rune h => exact ofReach_eq_ok.mpr ⟨rfl, h⟩
  | int hdigit h =>
      rw [extent_of_not_mem_delimiters (not_mem_delimiters (by decide) hdigit), if_pos hdigit, h]
  | float hnumber h =>
      rcases Bool.or_eq_true_iff.mp hnumber with hdigit | hpoint
      · rw [extent_of_not_mem_delimiters (not_mem_delimiters (by decide) hdigit), if_pos hdigit, h]
      · obtain ⟨hc, hhead⟩ := Bool.and_eq_true_iff.mp hpoint
        cases eq_of_beq hc
        rw [extent]
        · rw [hhead]
          exact h
        all_goals try (intros; contradiction)
        rintro rest - rfl
        cases hhead
  | word hword hdigit h =>
      rw [extent_of_not_mem_delimiters (not_mem_delimiters (by decide) hword), hdigit, hword, h]
      rfl
  | operator hoperator hcomment h =>
      -- Of the characters of operators only the slash has cases of its own, for comments.
      by_cases hslash : c = '/'
      · subst hslash
        rw [extent, ← h]
        · rfl
        all_goals try (intros; contradiction)
        · rintro rest - rfl
          exact hcomment ⟨rfl, .inl rfl⟩
        · rintro rest - rfl
          exact hcomment ⟨rfl, .inr rfl⟩
      · have hplain : c.isDigit = false ∧ beginsWord c = false := by
          have hmem := List.contains_iff_mem.mp hoperator
          have hall := (List.all_eq_true (p := fun c => !c.isDigit && !beginsWord c)).mp
            (by decide) c hmem
          simpa using hall
        have hnot : c ∉ delimiters :=
          not_mem_delimiters (p := fun c => isOperator c && c != '/') (by decide)
            (by simp [hoperator, hslash])
        rw [extent_of_not_mem_delimiters hnot, hplain.1, hplain.2, hoperator, h]
        rfl

theorem extent_eq_ok : extent c cs = .ok (shape, n) ↔ HasExtent c cs shape n :=
  ⟨hasExtent_of_extent, extent_of_hasExtent⟩

end DeclBridge.Token
