import DeclBridge.Proofs.Scan.Erasure
import DeclBridge.Proofs.Scan.Lexeme

/-!
Tokens taken out of their text. How far a token reaches is decided by its own characters, but for
one behind it that would go on, so that the text of a token is that token as a whole.
-/

namespace DeclBridge

namespace Token

namespace Reach

variable {n m : Nat} {cs : List Char}

theorem Ends.here {α : Type} {reach : List Char → α} {a : α} (h : reach [] = a) (cs : List Char) :
    Ends reach a n n cs :=
  ⟨[], cs, rfl, rfl, h⟩

theorem whileTrue_ends {p : Char → Bool} (h : whileTrue p n cs = m) :
    Ends (whileTrue p n) m n m cs := by
  fun_induction whileTrue p n cs with
  | case1 =>
      subst h
      exact .here rfl _
  | case2 n c cs hc ih => exact (ih h).cons fun as _ _ has => by rw [whileTrue, if_pos hc, has]
  | case3 =>
      subst h
      exact .here rfl _

theorem operator_ends (h : operator n cs = m) : Ends (operator n) m n m cs := by
  fun_induction operator n cs with
  | case1 | case2 | case4 =>
      subst h
      exact .here rfl _
  | case3 n c cs hslash hc ih =>
      refine (ih h).cons fun as bs hcs has => ?_
      rw [operator, if_neg, if_pos hc, has]
      rintro ⟨rfl, hnext⟩
      cases as with
      | nil => simp at hnext
      | cons e es => exact hslash ⟨rfl, by simpa [hcs] using hnext⟩

theorem number_ends {hex fractional fractional' : Bool}
    (h : number hex n fractional cs = (m, fractional')) :
    Ends (number hex n fractional) (m, fractional') n m cs := by
  fun_induction number hex n fractional cs with
  | case1 | case7 =>
      cases h
      exact .here rfl _
  | case2 n fractional c hlike hmark =>
      cases h
      exact ⟨[c], [], rfl, rfl, by simp [number, hlike, hmark]⟩
  | case3 n fractional c hlike hmark sign rest hsign ih =>
      have hpair : Ends (fun as => number hex n fractional (c :: as)) (m, fractional') (n + 1) m
          (sign :: rest) :=
        (ih h).cons fun as _ _ has => by simp [number, hlike, hmark, hsign, has]
      exact hpair.cons fun _ _ _ has => has
  | case4 n fractional c hlike hmark sign rest hsign ih =>
      refine (ih h).cons fun as bs hcs has => ?_
      cases as with
      | nil =>
          cases has
          simp [number, hlike, hmark]
      | cons e es =>
          cases hcs
          simp [number, hlike, hmark, hsign, has]
  | case5 n fractional c cs hlike hmark ih =>
      refine (ih h).cons fun as _ _ has => ?_
      rw [number_digit hlike (eq_false_of_ne_true hmark), has]
  | case6 n fractional c cs hlike hpoint ih =>
      obtain ⟨rfl, hnext⟩ := hpoint
      refine (ih h).cons fun as bs hcs has => ?_
      rw [number_point, has]
      cases as with
      | nil => simp
      | cons e es => simpa [hcs] using hnext

end Reach

open Reach

def Kind.shape : Kind → Shape
  | int _ => .int
  | float _ => .float
  | char _ => .rune
  | string _ => .string
  | identifier _ | keyword _ => .word
  | assign | arrow => .operator
  | operator text => if text = "*=" then .exact (.operator text) else .operator
  | comment _ => .comment
  | kind => .exact kind

variable {c : Char} {cs : List Char} {shape : Shape} {n : Nat}

/-- A number takes every digit and letter that comes first. -/
theorem isDigitLike_of_number {hex fractional fractional' : Bool} {d : Char}
    (h : number hex 0 fractional cs = (0, fractional')) (hd : cs.head? = some d) :
    isDigitLike d = false := by
  refine eq_false_of_ne_true fun hlike => ?_
  have hgrows : ∀ {m : Nat} {fractional : Bool} {ds : List Char},
      number hex (m + 1) fractional ds ≠ (0, fractional') := by
    intro m fractional ds hnumber
    obtain ⟨as, -, -, hlength, -⟩ := number_ends hnumber
    omega
  obtain ⟨ds, rfl⟩ := List.head?_eq_some_iff.mp hd
  cases ds with
  | nil =>
      simp only [number, hlike, if_true] at h
      split at h <;> cases h
  | cons sign rest =>
      simp only [number, hlike, if_true] at h
      split at h
      · split at h
        · exact hgrows h
        · exact hgrows h
      · exact hgrows h

theorem numberExtent_ends (h : numberExtent c cs = .ok (shape, n)) :
    Ends (numberExtent c) (.ok (shape, n)) 0 n cs ∧
      ∀ d, cs.head? = some d → isDigitLike d = true → n ≠ 0 := by
  generalize hhex : (c == '0' && (cs.head? == some 'x' || cs.head? == some 'X')) = hex
  obtain ⟨m, fractional, hnumber⟩ : ∃ m fractional, number hex 0 (c == '.') cs = (m, fractional) :=
    ⟨_, _, rfl⟩
  obtain ⟨as, bs, hcs, hlength, has⟩ := number_ends hnumber
  have hhex' : (c == '0' && (as.head? == some 'x' || as.head? == some 'X')) = hex := by
    rw [← hhex, hcs]
    cases as with
    | nil =>
        have hletter : ∀ d, isDigitLike d = true → bs.head? ≠ some d := by
          rintro d hlike hd
          cases hlength
          rw [hcs, List.nil_append] at hnumber
          rw [isDigitLike_of_number hnumber hd] at hlike
          cases hlike
        simp [hletter 'x' (by decide), hletter 'X' (by decide)]
    | cons => rfl
  have htake : cs.take m = as.take m := by
    rw [hcs]
    exact List.take_append_of_le_length (by omega)
  simp only [numberExtent, hhex, hnumber, htake] at h
  obtain rfl : m = n := by
    split at h
    · cases h
    · exact (Prod.mk.inj (Except.ok.inj h)).2
  constructor
  · refine ⟨as, bs, hcs, hlength, ?_⟩
    simp only [numberExtent, hhex', has]
    exact h
  · rintro d hd hlike rfl
    rw [isDigitLike_of_number hnumber hd] at hlike
    cases hlike

theorem Reach.Ends.map {α β : Type} {reach : List Char → α} {reach' : List Char → β} {a : α} {b : β}
    {n m : Nat} {cs : List Char} (h : Ends reach a n m cs)
    (hreach : ∀ as bs, cs = as ++ bs → n + as.length = m → reach as = a → reach' as = b) :
    Ends reach' b n m cs := by
  obtain ⟨as, bs, hcs, hm, has⟩ := h
  exact ⟨as, bs, hcs, hm, hreach as bs hcs hm has⟩

/-- A token ends where it does by its own characters. -/
theorem extent_ends (h : extent c cs = .ok (shape, n)) :
    Ends (extent c) (.ok (shape, n)) 0 n cs := by
  rw [extent_eq_ok] at h
  cases h with
  | @lineComment rest _ h =>
      have hrest : Ends (fun as => extent '/' ('/' :: as)) (.ok (.comment, n)) 1 n rest :=
        (whileTrue_ends h).map fun _ _ _ _ has => extent_eq_ok.mpr (.lineComment has)
      exact hrest.cons fun _ _ _ has => has
  | @blockComment rest _ h =>
      have hrest : Ends (fun as => extent '/' ('*' :: as)) (.ok (.comment, n)) 1 n rest :=
        (blockComment_ends h).map fun _ _ _ _ has => extent_eq_ok.mpr (.blockComment has)
      exact hrest.cons fun _ _ _ has => has
  | punctuation _ h => exact .here (extent_eq_ok.mpr (.punctuation [] h)) _
  | product rest => exact ⟨['='], rest, rfl, rfl, rfl⟩
  | star => exact .here rfl _
  | ellipsis rest => exact ⟨['.', '.'], rest, rfl, rfl, rfl⟩
  | dot => exact .here rfl _
  | quoted h => exact (quoted_ends h).map fun _ _ _ _ has => extent_eq_ok.mpr (.quoted has)
  | raw h => exact (raw_ends h).map fun _ _ _ _ has => extent_eq_ok.mpr (.raw has)
  | rune h => exact (rune_ends h).map fun _ _ _ _ has => extent_eq_ok.mpr (.rune has)
  | int hdigit h =>
      exact (numberExtent_ends h).1.map fun _ _ _ _ has => extent_eq_ok.mpr (.int hdigit has)
  | float hnumber h =>
      obtain ⟨hends, hpositive⟩ := numberExtent_ends h
      refine hends.map fun as bs hcs hlength has => extent_eq_ok.mpr (.float ?_ has)
      -- If nothing is taken behind `c`, no digit follows it, and `c` is one itself.
      cases as with
      | nil =>
          cases hlength
          have hhead : cs.head?.any Char.isDigit = false := by
            cases hd : cs.head? with
            | none => rfl
            | some d =>
                refine eq_false_of_ne_true fun hdigit => hpositive d hd ?_ rfl
                rw [Option.any_some] at hdigit
                simp [isDigitLike, Char.isAlphanum, hdigit]
          simpa [beginsNumber, hhead] using hnumber
      | cons e es => simpa [beginsNumber, hcs] using hnumber
  | word hword hdigit h =>
      exact (whileTrue_ends h).map fun _ _ _ _ has => extent_eq_ok.mpr (.word hword hdigit has)
  | operator hoperator hno h =>
      refine (operator_ends h).map fun as bs hcs _ has => ?_
      have hfirst : ∀ e, as.head? = some e → cs.head? = some e := by
        intro e he
        rw [hcs, List.head?_append, he]
        rfl
      refine extent_eq_ok.mpr (.operator hoperator ?_ has)
      rintro ⟨hc, hcomment⟩
      exact hno ⟨hc, hcomment.imp (hfirst _) (hfirst _)⟩

theorem isWhole_of_extent (h : extent c cs = .ok (shape, n)) :
    isWhole shape (c :: cs.take n) = true := by
  obtain ⟨as, bs, rfl, hlength, has⟩ := extent_ends h
  rw [Nat.zero_add] at hlength
  subst hlength
  rw [List.take_left]
  exact isWhole_iff.mpr ⟨c, as, rfl, has⟩

theorem isOperator_of_extent (h : extent c cs = .ok (.operator, n)) : isOperator c = true := by
  cases extent_eq_ok.mp h with
  | operator hoperator => exact hoperator

theorem shape_kind {text : List Char} (h : isWhole shape text = true) :
    (shape.kind text).shape = shape := by
  obtain ⟨c, cs, rfl, hn⟩ := isWhole_iff.mp h
  cases shape with
  | word =>
      simp only [Shape.kind]
      split <;> rfl
  | operator =>
      have hstar : String.ofList (c :: cs) ≠ "*=" := by
        intro htext
        have hoperator := isOperator_of_extent hn
        obtain ⟨rfl, -⟩ := List.cons.inj (String.ofList_injective htext)
        revert hoperator
        decide
      simp only [Shape.kind]
      split
      · rfl
      · split
        · rfl
        · rw [Kind.shape, if_neg hstar]
  | exact kind =>
      have hall : ∀ kind ∈ exactKinds, kind.shape = .exact kind := by decide
      exact hall kind (mem_exactKinds_of_extent hn)
  | _ => rfl

/-- The token is what the scanner makes of its text. -/
structure IsGenuine (t : Token) : Prop where
  isWhole : isWhole t.kind.shape t.lexeme.toList = true
  kind : t.kind.shape.kind t.lexeme.toList = t.kind

theorem isName_of_isGenuine {t : Token} {name : String} (h : t.IsGenuine)
    (hkind : t.kind = .identifier name) : isName name = true := by
  obtain ⟨hwhole, hshape⟩ := h
  simp only [hkind, Kind.shape, Shape.kind, String.ofList_toList] at hwhole hshape
  split at hshape
  · cases hshape
  · rename_i hword
    cases hshape
    simp [isName, hwhole, hword]

theorem isInteger_of_isGenuine {t : Token} {text : String} (h : t.IsGenuine)
    (hkind : t.kind = .int text) : isInteger text = true := by
  obtain ⟨hwhole, hshape⟩ := h
  simp only [hkind, Kind.shape, Shape.kind, String.ofList_toList] at hwhole hshape
  cases hshape
  exact hwhole

theorem isGenuine_tokenAt (p : Position) (h : extent c cs = .ok (shape, n)) :
    (Mark.tokenAt p shape (c :: cs.take n)).IsGenuine := by
  have hwhole := isWhole_of_extent h
  have hshape : (Mark.tokenAt p shape (c :: cs.take n)).kind.shape = shape := shape_kind hwhole
  constructor
  · rw [hshape, Mark.tokenAt, String.toList_ofList]
    exact hwhole
  · rw [hshape, Mark.tokenAt, String.toList_ofList]

end Token

theorem Mark.Scans.isGenuine {p q : Position} {cs ds : List Char} {marks : List Mark}
    (h : Mark.Scans p cs marks q ds) : ∀ t, .token t ∈ marks → t.IsGenuine := by
  induction h with
  | done => simp
  | blank _ _ ih => exact ih
  | lineBreak _ ih =>
      intro t ht
      exact ih t (by simpa using ht)
  | token _ hn _ ih =>
      intro t ht
      rcases List.mem_cons.mp ht with ht | ht
      · cases ht
        exact Token.isGenuine_tokenAt _ hn
      · exact ih t ht

/-- Every token that is written in a source text is genuine. -/
theorem Scanned.isGenuine_of_ofSource {source : String} {s : Scanned}
    (h : Scanned.ofSource source = .ok s) :
    ∀ t ∈ s.tokens, t.isLineEnd = false → t.IsGenuine := by
  obtain ⟨marks, hmarks, htokens⟩ := ofSource_eq_ok.mp h
  rw [htokens]
  intro t ht hwritten
  rcases Token.mem_endStatements ht with ht | ht | ⟨p, rfl⟩
  · cases ht
  · exact hmarks.isGenuine t ht
  · cases hwritten

end DeclBridge
