import DeclBridge.Proofs.Scan.Tokens

/-!
Texts that are one token as a whole, and what the scanner reads where they are written in front of
others.
-/

namespace DeclBridge

namespace Token

open Reach

/-- Whether a text as a whole is one token of the given shape. -/
def isWhole (shape : Shape) : List Char → Bool
  | [] => false
  | c :: cs =>
      match extent c cs with
      | .ok (other, n) => other = shape && n = cs.length
      | .error _ => false

def isName (name : String) : Bool :=
  isWhole .word name.toList && (Keyword.ofWord? name).isNone

def isInteger (text : String) : Bool :=
  isWhole .int text.toList

/-- Whether a text is a string literal, raw or interpreted. -/
def isLiteral (text : String) : Bool :=
  isWhole .string text.toList

theorem isWhole_iff {shape : Shape} {text : List Char} :
    isWhole shape text = true ↔
      ∃ c cs, text = c :: cs ∧ extent c cs = .ok (shape, cs.length) := by
  cases text with
  | nil => simp [isWhole]
  | cons c cs =>
      simp only [isWhole, List.cons.injEq]
      constructor
      · intro h
        split at h
        · rename_i other n hn
          simp only [Bool.and_eq_true, decide_eq_true_eq] at h
          obtain ⟨rfl, rfl⟩ := h
          exact ⟨c, cs, ⟨rfl, rfl⟩, hn⟩
        · cases h
      · rintro ⟨_, _, ⟨rfl, rfl⟩, hn⟩
        simp [hn]

theorem word_of_extent {c : Char} {cs : List Char} {n : Nat} (h : extent c cs = .ok (.word, n)) :
    beginsWord c = true ∧ c.isDigit = false ∧ word 0 cs = n := by
  cases extent_eq_ok.mp h with
  | word hword hdigit hn => exact ⟨hword, hdigit, hn⟩

theorem extent_word_append {c : Char} {cs rest : List Char}
    (h : extent c cs = .ok (.word, cs.length)) (hrest : rest.head?.any continuesWord = false) :
    extent c (cs ++ rest) = .ok (.word, cs.length) := by
  obtain ⟨hword, hdigit, hn⟩ := word_of_extent h
  refine extent_eq_ok.mpr (.word hword hdigit ?_)
  cases rest with
  | nil => rw [List.append_nil, hn]
  | cons b ds => rw [word, whileTrue_append hrest, ← word, hn]

theorem integer_of_extent {c : Char} {cs : List Char} {n : Nat} (h : extent c cs = .ok (.int, n)) :
    c.isDigit = true ∧ numberExtent c cs = .ok (.int, n) := by
  cases extent_eq_ok.mp h with
  | int hdigit hn => exact ⟨hdigit, hn⟩

theorem extent_integer_append {c : Char} {cs rest : List Char}
    (h : extent c cs = .ok (.int, cs.length)) (hrest : rest.head?.any continuesNumber = false) :
    extent c (cs ++ rest) = .ok (.int, cs.length) := by
  obtain ⟨hdigit, hn⟩ := integer_of_extent h
  refine extent_eq_ok.mpr (.int hdigit ?_)
  cases rest with
  | nil => rwa [List.append_nil]
  | cons b ds => rwa [numberExtent_append hrest]

theorem extent_string_append {c : Char} {cs : List Char} {n : Nat}
    (h : extent c cs = .ok (.string, n)) (rest : List Char) :
    extent c (cs ++ rest) = .ok (.string, n) := by
  rw [extent_eq_ok] at h ⊢
  cases h with
  | quoted h => exact .quoted (quoted_append _ h)
  | raw h => exact .raw (raw_append _ h)

theorem extent_dot {c : Char} (hdot : c ≠ '.') (hdigit : c.isDigit = false) (cs : List Char) :
    extent '.' (c :: cs) = .ok (.exact .dot, 0) :=
  extent_eq_ok.mpr (.dot (fun h => absurd (Option.some.inj h) hdot) hdigit)

theorem extent_star {c : Char} (h : c ≠ '=') (cs : List Char) :
    extent '*' (c :: cs) = .ok (.exact .star, 0) :=
  extent_eq_ok.mpr (.star fun hassign => h (Option.some.inj hassign))

theorem not_mem_of_word {c : Char} {cs : List Char} (h : extent c cs = .ok (.word, cs.length)) :
    '\n' ∉ c :: cs := by
  obtain ⟨hword, -, hn⟩ := word_of_extent h
  intro hmem
  rcases List.mem_cons.mp hmem with rfl | hmem
  · revert hword
    decide
  · obtain ⟨before, after, rfl⟩ := List.append_of_mem hmem
    rw [word, whileTrue_append (by decide)] at hn
    have hle := whileTrue_le continuesWord 0 before
    simp only [List.length_append, List.length_cons] at hn
    omega

theorem not_mem_of_integer {c : Char} {cs : List Char} (h : extent c cs = .ok (.int, cs.length)) :
    '\n' ∉ c :: cs := by
  obtain ⟨hdigit, hn⟩ := integer_of_extent h
  intro hmem
  rcases List.mem_cons.mp hmem with rfl | hmem
  · revert hdigit
    decide
  · obtain ⟨before, after, rfl⟩ := List.append_of_mem hmem
    rw [numberExtent_append (by decide)] at hn
    have hle := numberExtent_le hn
    simp only [List.length_append, List.length_cons] at hle
    omega

end Token

namespace Mark

open Token (Kind isWhole isName isInteger extent)
open Token.Reach (isSpace continuesWord continuesNumber)

/-- In front of `rest` a text without line breaks is scanned as the tokens. -/
structure Spells (p : Position) (text rest : List Char) (ts : List Token) (q : Position) : Prop where
  scans : Scans p (text ++ rest) (ts.map token) q rest
  breaks : text.count '\n' = 0
  line : q.line = p.line
  lines : ∀ t ∈ ts, t.line = p.line

variable {p q r : Position} {text text' rest : List Char} {ts us : List Token}

theorem Spells.append {more : List Char} (h : Spells p text more ts q)
    (h' : Spells q text' rest us r) (hmore : more = text' ++ rest) :
    Spells p (text ++ text') rest (ts ++ us) r := by
  subst hmore
  refine ⟨?_, ?_, h'.line.trans h.line, ?_⟩
  · rw [List.append_assoc, List.map_append]
    exact h.scans.trans h'.scans
  · rw [List.count_append, h.breaks, h'.breaks]
  · intro t ht
    rcases List.mem_append.mp ht with ht | ht
    · exact h.lines t ht
    · exact (h'.lines t ht).trans h.line

theorem spells_blank (p : Position) (rest : List Char) : Spells p [' '] rest [] (p.shift 1) :=
  ⟨.blank rfl .done, rfl, rfl, by simp⟩

theorem scans_of_extent {c : Char} {cs : List Char} {shape : Token.Shape} (p : Position)
    (hspace : isSpace c = false) (hn : extent c (cs ++ rest) = .ok (shape, cs.length)) :
    Scans p (c :: cs ++ rest) [token (tokenAt p shape (c :: cs))] (behind p shape (c :: cs))
      rest := by
  have htake : (cs ++ rest).take cs.length = cs := List.take_left
  have hdrop : (cs ++ rest).drop cs.length = rest := List.drop_left
  have hscan :
      Scans p (c :: (cs ++ rest)) [token (tokenAt p shape (c :: (cs ++ rest).take cs.length))]
        (behind p shape (c :: (cs ++ rest).take cs.length)) ((cs ++ rest).drop cs.length) :=
    .token hspace hn .done
  rwa [htake, hdrop] at hscan

theorem spells_of_extent {c : Char} {cs : List Char} {shape : Token.Shape} (p : Position)
    (hspace : isSpace c = false) (hn : extent c (cs ++ rest) = .ok (shape, cs.length))
    (hline : '\n' ∉ c :: cs) :
    Spells p (c :: cs) rest [tokenAt p shape (c :: cs)] (behind p shape (c :: cs)) := by
  refine ⟨scans_of_extent p hspace hn, List.count_eq_zero.mpr hline, ?_,
    by simp [tokenAt, Token.line]⟩
  unfold behind
  split
  · rfl
  · rw [Position.line_afterAll, List.count_eq_zero.mpr hline]
    rfl

theorem spells_word {word : String} (h : isWhole .word word.toList = true) (p : Position)
    (hrest : rest.head?.any continuesWord = false) :
    ∃ t q, Spells p word.toList rest [t] q ∧ t.kind = Token.Shape.word.kind word.toList := by
  obtain ⟨c, cs, htext, hn⟩ := Token.isWhole_iff.mp h
  rw [htext]
  exact ⟨_, _, spells_of_extent p (Token.isSpace_of_extent hn)
    (Token.extent_word_append hn hrest) (Token.not_mem_of_word hn), rfl⟩

theorem spells_name {name : String} (h : isName name = true) (p : Position)
    (hrest : rest.head?.any continuesWord = false) :
    ∃ t q, Spells p name.toList rest [t] q ∧ t.kind = .identifier name := by
  simp only [isName, Bool.and_eq_true, Option.isNone_iff_eq_none] at h
  obtain ⟨t, q, hspells, ht⟩ := spells_word h.1 p hrest
  refine ⟨t, q, hspells, ?_⟩
  rw [ht, Token.Shape.kind, String.ofList_toList, h.2]

theorem spells_keyword (k : Keyword) (p : Position)
    (hrest : rest.head?.any continuesWord = false) :
    ∃ t q, Spells p k.spelling.toList rest [t] q ∧ t.kind = .keyword k := by
  have hwhole : isWhole .word k.spelling.toList = true := by cases k <;> decide
  have hword : Keyword.ofWord? k.spelling = some k := by cases k <;> decide
  obtain ⟨t, q, hspells, ht⟩ := spells_word hwhole p hrest
  refine ⟨t, q, hspells, ?_⟩
  rw [ht, Token.Shape.kind, String.ofList_toList, hword]

theorem spells_integer {text : String} (h : isInteger text = true) (p : Position)
    (hrest : rest.head?.any continuesNumber = false) :
    ∃ t q, Spells p text.toList rest [t] q ∧ t.kind = .int text := by
  obtain ⟨c, cs, htext, hn⟩ := Token.isWhole_iff.mp h
  refine ⟨tokenAt p .int text.toList, behind p .int text.toList, ?_, ?_⟩
  · rw [htext]
    exact spells_of_extent p (Token.isSpace_of_extent hn) (Token.extent_integer_append hn hrest)
      (Token.not_mem_of_integer hn)
  · rw [tokenAt, Token.Shape.kind, String.ofList_toList]

theorem spells_exact {c : Char} {kind : Kind} (hn : extent c rest = .ok (.exact kind, 0))
    (hspace : isSpace c = false) (p : Position) :
    ∃ t q, Spells p [c] rest [t] q ∧ t.kind = kind := by
  refine ⟨_, _, spells_of_extent p hspace hn ?_, rfl⟩
  rintro hmem
  cases List.mem_singleton.mp hmem
  revert hspace
  decide

/-- A bracket as it is written at the beginning of a group. -/
def openingChar : Bracket → Char
  | .round => '('
  | .square => '['
  | .curly => '{'

/-- A bracket as it is written at the end of a group. -/
def closingChar : Bracket → Char
  | .round => ')'
  | .square => ']'
  | .curly => '}'

theorem spells_opening (bracket : Bracket) (rest : List Char) (p : Position) :
    ∃ t q, Spells p [openingChar bracket] rest [t] q ∧ t.kind = .opening bracket := by
  apply spells_exact
  · cases bracket <;> rfl
  · cases bracket <;> decide

theorem spells_closing (bracket : Bracket) (rest : List Char) (p : Position) :
    ∃ t q, Spells p [closingChar bracket] rest [t] q ∧ t.kind = .closing bracket := by
  apply spells_exact
  · cases bracket <;> rfl
  · cases bracket <;> decide

theorem scans_literal {text : String} (h : Token.isLiteral text = true) (p : Position)
    (rest : List Char) :
    ∃ t q, Scans p (text.toList ++ rest) [.token t] q rest ∧ t.kind = .string text ∧
      t.line = p.line ∧ q.line = p.line + text.toList.count '\n' := by
  obtain ⟨c, cs, htext, hn⟩ := Token.isWhole_iff.mp h
  refine ⟨tokenAt p .string text.toList, behind p .string text.toList, ?_, ?_, rfl, ?_⟩
  · rw [htext]
    exact scans_of_extent p (Token.isSpace_of_extent hn) (Token.extent_string_append hn rest)
  · rw [tokenAt, Token.Shape.kind, String.ofList_toList]
  · rw [behind, if_neg (by decide), Position.line_afterAll]

end Mark

end DeclBridge
