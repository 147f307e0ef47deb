import DeclBridge.Proofs.Checked.Outcome
import DeclBridge.Proofs.Scan.Extent

/-!
The search for the end of a token by an index that walks over the source text, every read of a
character checked. It finds the ends of the tokens, and the index stays inside the text.
-/

namespace DeclBridge.Checked

open Exec (get slice get_of_getElem?)
open Token (Shape Kind Extent extent)
open Token.Reach (isDigitLike isExponentMark isOperator continuesWord)

/-- The character at a place, NUL behind the text. -/
def peek (source : List Char) (i : Nat) : Exec LexicalFault Char :=
  if source.length ≤ i then pure '\x00' else get source i

/-- Takes the character at a place. -/
def advance (source : List Char) (i : Nat) : Exec LexicalFault (Char × Nat) := do
  return (← get source i, i + 1)

namespace Chars

/-- The place behind a line comment, from a place inside it on. -/
def lineCommentEnd (source : Chars) (i : Nat) : Exec LexicalFault Nat := do
  if i < source.length ∧ (← peek source i) ≠ '\n' then
    let (_, i) ← advance source i
    source |>.lineCommentEnd i
  else return i
partial_fixpoint

/-- The place behind a block comment. -/
def blockCommentEnd (source : Chars) (i : Nat) : Exec LexicalFault Nat := do
  if source.length ≤ i then throw .unterminatedComment
  let (c, i) ← advance source i
  if c = '*' ∧ (← peek source i) = '/' then
    let (_, i) ← advance source i
    return i
  else source |>.blockCommentEnd i
partial_fixpoint

/-- The place of the quote that closes a literal, or where the literal breaks off. -/
def closingQuote (source : Chars) (i : Nat) : Exec LexicalFault Nat := do
  let c ← peek source i
  if source.length ≤ i ∨ c = '"' ∨ c = '\n' then return i
  let (_, i) ← advance source i
  if c = '\\' ∧ i < source.length ∧ (← peek source i) ≠ '\n' then
    let (_, i) ← advance source i
    source |>.closingQuote i
  else source |>.closingQuote i
partial_fixpoint

/-- The place of the backtick that closes a literal, or the end of the text. -/
def closingBacktick (source : Chars) (i : Nat) : Exec LexicalFault Nat := do
  if i < source.length ∧ (← peek source i) ≠ '`' then
    let (_, i) ← advance source i
    source |>.closingBacktick i
  else return i
partial_fixpoint

/-- The place of the apostrophe that closes a literal, or where the literal breaks off. -/
def closingApostrophe (source : Chars) (i : Nat) : Exec LexicalFault Nat := do
  let c ← peek source i
  if i < source.length ∧ c ≠ '\'' ∧ c ≠ '\n' then
    let (c, i) ← advance source i
    if c = '\\' ∧ i < source.length then
      let (_, i) ← advance source i
      source |>.closingApostrophe i
    else source |>.closingApostrophe i
  else return i
partial_fixpoint

def wordEnd (source : Chars) (i : Nat) : Exec LexicalFault Nat := do
  if continuesWord (← peek source i) then
    let (_, i) ← advance source i
    source |>.wordEnd i
  else return i
partial_fixpoint

def operatorEnd (source : Chars) (i : Nat) : Exec LexicalFault Nat := do
  let c ← peek source i
  let next ← peek source (i + 1)
  if isOperator c ∧ c ≠ '\x00' ∧ ¬(c = '/' ∧ (next = '/' ∨ next = '*')) then
    let (_, i) ← advance source i
    source |>.operatorEnd i
  else return i
partial_fixpoint

/-- The place behind a number, and whether the number is more than an integer. -/
def digitsEnd (source : Chars) (hex fractional : Bool) (i : Nat) :
    Exec LexicalFault (Nat × Bool) := do
  let c ← peek source i
  let next ← peek source (i + 1)
  if isDigitLike c then
    let (c, i) ← advance source i
    if isExponentMark hex c then
      let sign ← peek source i
      if sign = '+' ∨ sign = '-' then
        let (_, i) ← advance source i
        source |>.digitsEnd hex true i
      else source |>.digitsEnd hex true i
    else source |>.digitsEnd hex (fractional || c == 'i') i
  else if c = '.' ∧ next ≠ '.' then
    let (_, i) ← advance source i
    source |>.digitsEnd hex true i
  else return (i, fractional)
partial_fixpoint

end Chars

open Chars

def quotedEnd (source : List Char) (i : Nat) : Exec LexicalFault Nat := do
  let i ← closingQuote source i
  if source.length ≤ i ∨ (← peek source i) ≠ '"' then throw .unterminatedString
  let (_, i) ← advance source i
  return i

def rawEnd (source : List Char) (i : Nat) : Exec LexicalFault Nat := do
  let i ← closingBacktick source i
  if source.length ≤ i then throw .unterminatedRawString
  let (_, i) ← advance source i
  return i

def runeEnd (source : List Char) (i : Nat) : Exec LexicalFault Nat := do
  let i ← closingApostrophe source i
  if source.length ≤ i ∨ (← peek source i) ≠ '\'' then throw .unterminatedRune
  let (_, i) ← advance source i
  return i

/-- The shape of a number that begins at `start`, and the place behind it. -/
def numberEnd (source : List Char) (start i : Nat) : Exec LexicalFault (Shape × Nat) := do
  let first ← get source start
  let next ← peek source i
  let hex := first == '0' && (next == 'x' || next == 'X')
  let (i, fractional) ← digitsEnd source hex (first == '.') i
  let text ← slice source start i
  if text.getLast? = some '_' then throw (.invalidNumber (String.ofList text))
  return (if fractional then .float else .int, i)

/-- The shape of the token that begins at a place, and the place behind it. -/
def lexemeEnd (source : List Char) (start : Nat) : Exec LexicalFault (Shape × Nat) := do
  let (c, i) ← advance source start
  let next ← peek source i
  if let some kind := Token.punctuation? c then return (.exact kind, i)
  else if c = '/' ∧ next = '/' then return (.comment, ← lineCommentEnd source i)
  else if c = '/' ∧ next = '*' then
    let (_, i) ← advance source i
    return (.comment, ← blockCommentEnd source i)
  else if c = '*' then
    if next = '=' then
      let (_, i) ← advance source i
      return (.exact (.operator "*="), i)
    else return (.exact .star, i)
  else if c = '.' then
    if next.isDigit then numberEnd source start i
    else if next = '.' ∧ (← peek source (i + 1)) = '.' then
      let (_, i) ← advance source i
      let (_, i) ← advance source i
      return (.exact .ellipsis, i)
    else return (.exact .dot, i)
  else if c = '"' then return (.string, ← quotedEnd source i)
  else if c = '`' then return (.string, ← rawEnd source i)
  else if c = '\'' then return (.rune, ← runeEnd source i)
  else if c.isDigit then numberEnd source start i
  else if Token.beginsWord c then return (.word, ← wordEnd source i)
  else if isOperator c then return (.operator, ← operatorEnd source i)
  else throw (.unexpectedCharacter c)

/-- A text stands behind a place of a source text. -/
def StandsAt (source : List Char) (i : Nat) (cs : List Char) : Prop :=
  ∃ before, source = before ++ cs ∧ before.length = i

namespace StandsAt

variable {source cs : List Char} {c : Char} {i : Nat}

theorem next (h : StandsAt source i (c :: cs)) : StandsAt source (i + 1) cs := by
  obtain ⟨before, rfl, rfl⟩ := h
  exact ⟨before ++ [c], by simp, by simp⟩

theorem skip {n : Nat} (h : StandsAt source i cs) (hn : n ≤ cs.length) :
    StandsAt source (i + n) (cs.drop n) := by
  obtain ⟨before, rfl, rfl⟩ := h
  exact ⟨before ++ cs.take n, by simp, by simp [hn]⟩

theorem lt (h : StandsAt source i (c :: cs)) : i < source.length := by
  obtain ⟨before, rfl, rfl⟩ := h
  simp

theorem le (h : StandsAt source i []) : source.length ≤ i := by
  obtain ⟨before, rfl, rfl⟩ := h
  simp

theorem get (h : StandsAt source i (c :: cs)) {ε : Type} :
    Exec.get source i = (pure c : Exec ε Char) := by
  obtain ⟨before, rfl, rfl⟩ := h
  exact get_of_getElem? (by simp)

/-- NUL stands for the end of the text. -/
theorem peek (h : StandsAt source i cs) :
    peek source i = pure (cs.head?.getD '\x00') := by
  cases cs with
  | nil => exact if_pos h.le
  | cons c cs => exact (if_neg (Nat.not_le.mpr h.lt)).trans h.get

theorem peek_next (h : StandsAt source i cs) :
    Checked.peek source (i + 1) = pure (cs.tail.head?.getD '\x00') := by
  cases cs with
  | nil => exact if_pos (Nat.le_succ_of_le h.le)
  | cons c cs => exact h.next.peek

theorem advance (h : StandsAt source i (c :: cs)) : advance source i = pure (c, i + 1) := by
  rw [Checked.advance, h.get, pure_bind]

end StandsAt

theorem getD_head?_eq_iff {cs : List Char} {d : Char} (hd : d ≠ '\x00') :
    cs.head?.getD '\x00' = d ↔ cs.head? = some d := by
  cases cs with
  | nil => simpa using hd.symm
  | cons c cs => simp

variable {source cs : List Char} {base n i : Nat}

/-- The place that a count of characters behind `base` leads to. -/
def placeBehind (base : Nat) (fault : LexicalFault) : Option Nat → Exec LexicalFault Nat
  | some n => pure (base + n)
  | none => throw fault

theorem lineCommentEnd_eq (h : StandsAt source i cs) (hi : base + n = i) :
    lineCommentEnd source i = pure (base + Token.Reach.lineComment n cs) := by
  rw [Token.Reach.lineComment]
  fun_induction Token.Reach.whileTrue (· != '\n') n cs generalizing i with
  | case1 n =>
      rw [lineCommentEnd, h.peek]
      simp [Nat.not_lt.mpr h.le, hi]
  | case2 n c cs hc ih =>
      have hc : c ≠ '\n' := by simpa using hc
      rw [lineCommentEnd, h.peek]
      simpa [hc, h.lt, h.advance] using ih h.next (by omega)
  | case3 n c cs hc =>
      have hc : c = '\n' := by simpa using hc
      rw [lineCommentEnd, h.peek]
      simp [hc, hi]

theorem blockCommentEnd_eq (h : StandsAt source i cs) (hi : base + n = i) :
    blockCommentEnd source i =
      placeBehind base .unterminatedComment (Token.Reach.blockComment n cs) := by
  fun_induction Token.Reach.blockComment n cs generalizing i with
  | case1 n =>
      rw [blockCommentEnd, if_pos h.le]
      rfl
  | case2 n cs =>
      have hend : base + (n + 2) = i + 2 := by omega
      rw [blockCommentEnd, if_neg (Nat.not_le.mpr h.lt)]
      simp [h.advance, h.next.peek, h.next.advance, placeBehind, hend]
  | case3 n c cs hopen ih =>
      have hclose : ¬(c = '*' ∧ cs.head?.getD '\x00' = '/') := by
        rintro ⟨rfl, hslash⟩
        obtain ⟨rest, rfl⟩ :=
          List.head?_eq_some_iff.mp ((getD_head?_eq_iff (by decide)).mp hslash)
        exact hopen rest rfl rfl
      rw [blockCommentEnd, if_neg (Nat.not_le.mpr h.lt)]
      simpa [h.advance, h.next.peek, hclose] using ih h.next (by omega)

theorem quotedEnd_eq (h : StandsAt source i cs) (hi : base + n = i) :
    quotedEnd source i = placeBehind base .unterminatedString (Token.Reach.quoted n cs) := by
  fun_induction Token.Reach.quoted n cs generalizing i with
  | case1 n =>
      rw [quotedEnd, closingQuote, h.peek]
      simp [h.le, h.peek, placeBehind]
  | case2 n cs =>
      have hend : base + (n + 1) = i + 1 := by omega
      rw [quotedEnd, closingQuote, h.peek]
      simp [Nat.not_le.mpr h.lt, h.peek, h.advance, placeBehind, hend]
  | case3 n cs =>
      rw [quotedEnd, closingQuote, h.peek]
      simp [h.peek, placeBehind]
  | case4 n cs =>
      rw [quotedEnd, closingQuote, h.peek]
      simp [Nat.not_le.mpr h.lt, h.advance, h.next.peek]
      rw [closingQuote, h.next.peek]
      simp [h.next.peek, placeBehind]
  | case5 n c cs hc ih =>
      have ih := ih h.next.next (by omega)
      rw [quotedEnd] at ih
      rw [quotedEnd, closingQuote, h.peek]
      have hc : c ≠ '\n' := by rintro rfl; exact hc rfl
      simpa [Nat.not_le.mpr h.lt, h.advance, h.next.peek, h.next.lt, h.next.advance, hc] using ih
  | case6 n c cs hquote hbreak hline hescape ih =>
      have ih := ih h.next (by omega)
      rw [quotedEnd] at ih
      have hopen : ¬(source.length ≤ i ∨ c = '"' ∨ c = '\n') := by
        rintro (hle | rfl | rfl)
        exacts [Nat.not_le.mpr h.lt hle, hquote rfl, hbreak rfl]
      have hescape : ¬(c = '\\' ∧ i + 1 < source.length) := by
        rintro ⟨rfl, hlt⟩
        cases cs with
        | nil => exact absurd h.next.le (Nat.not_le.mpr hlt)
        | cons d ds => exact hescape d ds rfl rfl
      rw [quotedEnd, closingQuote, h.peek]
      simpa [hopen, h.advance, h.next.peek, ← and_assoc, hescape] using ih

theorem rawEnd_eq (h : StandsAt source i cs) (hi : base + n = i) :
    rawEnd source i = placeBehind base .unterminatedRawString (Token.Reach.raw n cs) := by
  fun_induction Token.Reach.raw n cs generalizing i with
  | case1 n =>
      rw [rawEnd, closingBacktick, h.peek]
      simp [Nat.not_lt.mpr h.le, h.le, placeBehind]
  | case2 n cs =>
      have hend : base + (n + 1) = i + 1 := by omega
      rw [rawEnd, closingBacktick, h.peek]
      simp [Nat.not_le.mpr h.lt, h.advance, placeBehind, hend]
  | case3 n c cs hc ih =>
      have ih := ih h.next (by omega)
      rw [rawEnd] at ih
      rw [rawEnd, closingBacktick, h.peek]
      simpa [h.lt, hc, h.advance] using ih

theorem runeEnd_eq (h : StandsAt source i cs) (hi : base + n = i) :
    runeEnd source i = placeBehind base .unterminatedRune (Token.Reach.rune n cs) := by
  fun_induction Token.Reach.rune n cs generalizing i with
  | case1 n =>
      rw [runeEnd, closingApostrophe, h.peek]
      simp [Nat.not_lt.mpr h.le, h.le, h.peek, placeBehind]
  | case2 n cs =>
      have hend : base + (n + 1) = i + 1 := by omega
      rw [runeEnd, closingApostrophe, h.peek]
      simp [Nat.not_le.mpr h.lt, h.peek, h.advance, placeBehind, hend]
  | case3 n cs =>
      rw [runeEnd, closingApostrophe, h.peek]
      simp [h.peek, placeBehind]
  | case4 n c cs ih =>
      have ih := ih h.next.next (by omega)
      rw [runeEnd] at ih
      rw [runeEnd, closingApostrophe, h.peek]
      simpa [h.lt, h.advance, h.next.lt, h.next.advance] using ih
  | case5 n c cs hquote hbreak hescape ih =>
      have ih := ih h.next (by omega)
      rw [runeEnd] at ih
      have hopen : i < source.length ∧ c ≠ '\'' ∧ c ≠ '\n' :=
        ⟨h.lt, by rintro rfl; exact hquote rfl, by rintro rfl; exact hbreak rfl⟩
      have hescape : ¬(c = '\\' ∧ i + 1 < source.length) := by
        rintro ⟨rfl, hlt⟩
        cases cs with
        | nil => exact absurd h.next.le (Nat.not_le.mpr hlt)
        | cons d ds => exact hescape d ds rfl rfl
      rw [runeEnd, closingApostrophe, h.peek]
      simpa [hopen, h.advance, hescape] using ih

theorem wordEnd_eq (h : StandsAt source i cs) (hi : base + n = i) :
    wordEnd source i = pure (base + Token.Reach.word n cs) := by
  rw [Token.Reach.word]
  fun_induction Token.Reach.whileTrue continuesWord n cs generalizing i with
  | case1 n =>
      have hnul : continuesWord '\x00' = false := by decide
      rw [wordEnd, h.peek]
      simp [hnul, hi]
  | case2 n c cs hc ih =>
      rw [wordEnd, h.peek]
      simpa [hc, h.advance] using ih h.next (by omega)
  | case3 n c cs hc =>
      rw [wordEnd, h.peek]
      simp [hc, hi]

/-- What follows a slash begins a comment, as the scanner sees it and as it stands in the text. -/
theorem comment_iff (c : Char) (cs : List Char) :
    (c = '/' ∧ (cs.head?.getD '\x00' = '/' ∨ cs.head?.getD '\x00' = '*')) ↔
      c = '/' ∧ (cs.head? = some '/' ∨ cs.head? = some '*') := by
  rw [getD_head?_eq_iff (by decide), getD_head?_eq_iff (by decide)]

theorem operatorEnd_eq (h : StandsAt source i cs) (hi : base + n = i) :
    operatorEnd source i = pure (base + Token.Reach.operator n cs) := by
  have hnul : isOperator '\x00' = false := by decide
  fun_induction Token.Reach.operator n cs generalizing i with
  | case1 n =>
      rw [operatorEnd, h.peek, h.peek_next]
      simp [hnul, hi]
  | case2 n c cs hcomment =>
      have hcomment := (comment_iff c cs).mpr hcomment
      rw [operatorEnd, h.peek, h.peek_next]
      simp only [pure_bind, List.head?_cons, Option.getD_some, List.tail_cons]
      rw [if_neg (fun hgo => hgo.2.2 hcomment), hi]
  | case3 n c cs hcomment hc ih =>
      have hcomment := mt (comment_iff c cs).mp hcomment
      have hc' : c ≠ '\x00' := by
        rintro rfl
        cases hnul.symm.trans hc
      rw [operatorEnd, h.peek, h.peek_next]
      simp only [pure_bind, List.head?_cons, Option.getD_some, List.tail_cons]
      rw [if_pos ⟨hc, hc', hcomment⟩, h.advance, pure_bind]
      exact ih h.next (by omega)
  | case4 n c cs hcomment hc =>
      rw [operatorEnd, h.peek, h.peek_next]
      simp [hc, hi]

theorem digitsEnd_eq {hex fractional : Bool} (h : StandsAt source i cs) (hi : base + n = i) :
    digitsEnd source hex fractional i =
      pure (base + (Token.Reach.number hex n fractional cs).1,
        (Token.Reach.number hex n fractional cs).2) := by
  have hnul : isDigitLike '\x00' = false := by decide
  fun_induction Token.Reach.number hex n fractional cs generalizing i with
  | case1 n fractional =>
      rw [digitsEnd, h.peek, h.peek_next]
      simp [hnul, hi]
  | case2 n fractional c hc hmark =>
      have hend : base + (n + 1) = i + 1 := by omega
      have hlast : digitsEnd source hex true (i + 1) = pure (i + 1, true) := by
        rw [digitsEnd, h.next.peek, h.next.peek_next]
        simp [hnul]
      rw [digitsEnd, h.peek, h.peek_next]
      simp [hc, hmark, h.advance, h.next.peek, hlast, hend]
  | case3 n fractional c hc hmark sign rest hsign ih =>
      rw [digitsEnd, h.peek, h.peek_next]
      simpa [hc, hmark, h.advance, h.next.peek, hsign, h.next.advance]
        using ih h.next.next (by omega)
  | case4 n fractional c hc hmark sign rest hsign ih =>
      rw [digitsEnd, h.peek, h.peek_next]
      simpa [hc, hmark, h.advance, h.next.peek, hsign] using ih h.next (by omega)
  | case5 n fractional c cs hc hmark ih =>
      rw [digitsEnd, h.peek, h.peek_next]
      simpa [hc, hmark, h.advance] using ih h.next (by omega)
  | case6 n fractional c cs hc hpoint ih =>
      have hpoint := hpoint.imp_right (mt (getD_head?_eq_iff (by decide)).mp)
      rw [digitsEnd, h.peek, h.peek_next]
      simp only [pure_bind, List.head?_cons, Option.getD_some, List.tail_cons]
      rw [if_neg hc, if_pos hpoint, h.advance, pure_bind]
      exact ih h.next (by omega)
  | case7 n fractional c cs hc hpoint =>
      have hpoint := mt (And.imp_right (mt (getD_head?_eq_iff (by decide)).mpr)) hpoint
      rw [digitsEnd, h.peek, h.peek_next]
      simp only [pure_bind, List.head?_cons, Option.getD_some, List.tail_cons]
      rw [if_neg hc, if_neg hpoint, hi]

/-- The places that the extent of a token leads to, if it begins right before `base`. -/
def extentBehind (base : Nat) (x : Extent) : Exec LexicalFault (Shape × Nat) :=
  Exec.ofExcept (x.map fun (shape, n) => (shape, base + n))

theorem slice_eq {c : Char} (h : StandsAt source i (c :: cs)) (hn : n ≤ cs.length) {ε : Type} :
    slice source i (i + 1 + n) = (pure (c :: cs.take n) : Exec ε (List Char)) := by
  obtain ⟨before, rfl, rfl⟩ := h
  have hsplit : before ++ c :: cs = before ++ (c :: cs.take n) ++ cs.drop n := by simp
  rw [hsplit]
  exact Exec.slice_append rfl (by simp [hn]; omega)

theorem numberEnd_eq {c : Char} (h : StandsAt source i (c :: cs)) :
    numberEnd source i (i + 1) = extentBehind (i + 1) (Token.numberExtent c cs) := by
  have hhex : (c == '0' && (cs.head?.getD '\x00' == 'x' || cs.head?.getD '\x00' == 'X')) =
      (c == '0' && (cs.head? == some 'x' || cs.head? == some 'X')) := by
    cases cs <;> simp
  have hle := Token.Reach.number_le (c == '0' && (cs.head? == some 'x' || cs.head? == some 'X'))
    (c == '.') 0 cs
  rw [numberEnd, h.get, h.next.peek]
  simp only [pure_bind, hhex, digitsEnd_eq (n := 0) h.next rfl]
  rw [slice_eq h (by simpa using hle), pure_bind]
  simp only [Token.numberExtent, extentBehind]
  split <;> rfl

theorem placeBehind_bind (shape : Shape) (fault : LexicalFault) (reach : Option Nat) :
    (placeBehind base fault reach >>= fun i => pure (shape, i)) =
      extentBehind base (.ofReach shape fault reach) := by
  cases reach <;> rfl

theorem lexemeEnd_of_not_mem_delimiters {c : Char} (h : StandsAt source i (c :: cs))
    (hc : c ∉ Token.delimiters) : lexemeEnd source i = extentBehind (i + 1) (extent c cs) := by
  have hpunctuation : Token.punctuation? c = none := by
    unfold Token.punctuation?
    split <;> simp_all [Token.delimiters]
  simp only [Token.delimiters, List.mem_cons, List.not_mem_nil, or_false, not_or] at hc
  rw [Token.extent_of_not_mem_delimiters (by simp [Token.delimiters, hc])]
  simp only [lexemeEnd, h.advance, h.next.peek, pure_bind, hpunctuation, hc, false_and, if_false,
    numberEnd_eq h, wordEnd_eq (n := 0) h.next rfl, operatorEnd_eq (n := 0) h.next rfl]
  split_ifs <;> rfl

theorem lexemeEnd_slash (h : StandsAt source i ('/' :: cs)) :
    lexemeEnd source i = extentBehind (i + 1) (extent '/' cs) := by
  simp only [lexemeEnd, h.advance, h.next.peek, pure_bind, Token.punctuation?, true_and,
    getD_head?_eq_iff (show '/' ≠ '\x00' by decide),
    getD_head?_eq_iff (show '*' ≠ '\x00' by decide)]
  by_cases hline : cs.head? = some '/'
  · obtain ⟨rest, rfl⟩ := List.head?_eq_some_iff.mp hline
    simp only [List.head?_cons, if_true, lineCommentEnd_eq (n := 0) h.next rfl, pure_bind]
    rfl
  by_cases hblock : cs.head? = some '*'
  · obtain ⟨rest, rfl⟩ := List.head?_eq_some_iff.mp hblock
    simp only [List.head?_cons, if_true, h.next.advance, pure_bind,
      blockCommentEnd_eq (n := 1) h.next.next rfl, placeBehind_bind]
    rfl
  · have hextent : extent '/' cs = .ok (.operator, Token.Reach.operator 0 cs) :=
      Token.extent_of_hasExtent (.operator (by decide) (by simp [hline, hblock]) rfl)
    simp only [hline, hblock, if_false, hextent, operatorEnd_eq (n := 0) h.next rfl, pure_bind]
    rfl

theorem lexemeEnd_star (h : StandsAt source i ('*' :: cs)) :
    lexemeEnd source i = extentBehind (i + 1) (extent '*' cs) := by
  simp only [lexemeEnd, h.advance, h.next.peek, pure_bind, Token.punctuation?,
    getD_head?_eq_iff (show '=' ≠ '\x00' by decide)]
  by_cases hassign : cs.head? = some '='
  · obtain ⟨rest, rfl⟩ := List.head?_eq_some_iff.mp hassign
    simp [h.next.advance, extent, extentBehind, Except.map]
  · have hextent := Token.extent_of_hasExtent (.star hassign)
    simp [hassign, hextent, extentBehind, Except.map]

theorem lexemeEnd_point (h : StandsAt source i ('.' :: cs)) :
    lexemeEnd source i = extentBehind (i + 1) (extent '.' cs) := by
  have hdigit : (cs.head?.getD '\x00').isDigit = cs.head?.any Char.isDigit := by
    cases cs <;> rfl
  simp only [lexemeEnd, h.advance, h.next.peek, h.next.peek_next, pure_bind, Token.punctuation?,
    getD_head?_eq_iff (show '.' ≠ '\x00' by decide), numberEnd_eq h, hdigit]
  cases hnumber : cs.head?.any Char.isDigit with
  | true =>
      have hextent : extent '.' cs = Token.numberExtent '.' cs := by
        rw [extent]
        · simp [hnumber]
        all_goals try (intros; contradiction)
        rintro rest - rfl
        cases hnumber
      rw [hextent]
      rfl
  | false =>
      by_cases hdots : cs.head? = some '.' ∧ cs.tail.head? = some '.'
      · obtain ⟨more, rfl⟩ := List.head?_eq_some_iff.mp hdots.1
        obtain ⟨rest, hrest⟩ := List.head?_eq_some_iff.mp hdots.2
        obtain rfl : more = '.' :: rest := hrest
        simp [h.next.advance, h.next.next.advance, extent, extentBehind, Except.map]
      · have hextent := Token.extent_of_hasExtent
          (.dot (fun hfirst hsecond => hdots ⟨hfirst, hsecond⟩) hnumber)
        rw [hextent]
        simp only [if_neg hdots]
        rfl

theorem lexemeEnd_eq {c : Char} (h : StandsAt source i (c :: cs)) :
    lexemeEnd source i = extentBehind (i + 1) (extent c cs) := by
  by_cases hc : c ∈ Token.delimiters
  · cases hp : Token.punctuation? c with
    | some kind =>
        rw [Token.extent_of_hasExtent (.punctuation cs hp)]
        simp only [lexemeEnd, h.advance, h.next.peek, pure_bind, hp]
        rfl
    | none =>
        have hc : c = '*' ∨ c = '/' ∨ c = '.' ∨ c = '"' ∨ c = '`' ∨ c = '\'' := by
          simp only [Token.delimiters, List.mem_cons, List.not_mem_nil, or_false] at hc
          rcases hc with rfl | rfl | rfl | rfl | rfl | rfl | rfl | rfl | hc
          all_goals first | exact hc | cases hp
        rcases hc with rfl | rfl | rfl | rfl | rfl | rfl
        · exact lexemeEnd_star h
        · exact lexemeEnd_slash h
        · exact lexemeEnd_point h
        · simp only [lexemeEnd, h.advance, h.next.peek, pure_bind, hp,
            quotedEnd_eq (n := 0) h.next rfl, placeBehind_bind]
          rfl
        · simp only [lexemeEnd, h.advance, h.next.peek, pure_bind, hp,
            rawEnd_eq (n := 0) h.next rfl, placeBehind_bind]
          rfl
        · simp only [lexemeEnd, h.advance, h.next.peek, pure_bind, hp,
            runeEnd_eq (n := 0) h.next rfl, placeBehind_bind]
          rfl
  · exact lexemeEnd_of_not_mem_delimiters h hc

end DeclBridge.Checked
