import DeclBridge.Proofs.Tag.Writing
import DeclBridge.Proofs.Text.CaseMap
import DeclBridge.Proofs.Text.Digits

/-!
The elements of interpreted string literals: characters that stand for themselves, and escapes.
Decoding reads element after element, and it accepts exactly the texts that are put together from
them.
-/

namespace DeclBridge.Tag.Literal

open Text (Digit digit? digits? digits?_zero_iff)
open Text.Digit (number)

/-- The letters and signs that stand for a character behind a backslash. -/
def marks : List (Char × Char) :=
  [('a', '\x07'), ('b', '\x08'), ('f', '\x0c'), ('n', '\n'), ('r', '\r'), ('t', '\t'),
    ('v', '\x0b'), ('\\', '\\'), ('"', '"')]

/-- An element of an interpreted string literal. An escape gives a byte by two hexadecimal or three
octal digits, and a character by four or eight hexadecimal digits of its code point. -/
inductive Element where
  | plain (c : Char) (h : c ≠ '"' ∧ c ≠ '\\' ∧ c ≠ '\n')
  | mark (letter c : Char) (h : (letter, c) ∈ marks)
  | hexByte (digits : List (Digit 16)) (h : digits.length = 2)
  | octalByte (digits : List (Digit 8)) (h : digits.length = 3) (hbyte : number digits < 256)
  | shortCode (digits : List (Digit 16)) (h : digits.length = 4) (c : Char)
      (hc : number digits = c.toNat)
  | longCode (digits : List (Digit 16)) (h : digits.length = 8) (c : Char)
      (hc : number digits = c.toNat)

namespace Element

def text : Element → List Char
  | plain c _ => [c]
  | mark letter _ _ => ['\\', letter]
  | hexByte digits _ => '\\' :: 'x' :: digits.map Digit.char
  | octalByte digits _ _ => '\\' :: digits.map Digit.char
  | shortCode digits _ _ _ => '\\' :: 'u' :: digits.map Digit.char
  | longCode digits _ _ _ => '\\' :: 'U' :: digits.map Digit.char

def char : Element → Char
  | plain c _ | mark _ c _ | shortCode _ _ c _ | longCode _ _ c _ => c
  | hexByte digits _ => Char.ofNat (number digits)
  | octalByte digits _ _ => Char.ofNat (number digits)

end Element

theorem character_eq_ok {code : Nat} {c : Char} : character code = .ok c ↔ code = c.toNat := by
  unfold character
  split
  · next hvalid =>
    rw [Except.ok.injEq]
    constructor
    · rintro rfl
      exact (Text.toNat_ofNat hvalid).symm
    · rintro rfl
      exact Char.ofNat_toNat c
  · next hinvalid =>
    refine ⟨nofun, ?_⟩
    rintro rfl
    exact absurd c.valid hinvalid

theorem hexCharacter_eq_ok {n : Nat} {c : Char} {cs rest : List Char} :
    hexCharacter n cs = .ok (c, rest) ↔
      ∃ ds : List (Digit 16), ds.length = n ∧ cs = ds.map Digit.char ++ rest ∧
        number ds = c.toNat := by
  have hdigits : hexCharacter n cs = .ok (c, rest) ↔ digits? 16 n 0 cs = some (c.toNat, rest) := by
    unfold hexCharacter
    cases digits? 16 n 0 cs with
    | none => exact ⟨nofun, nofun⟩
    | some result =>
        simp only [Option.some.injEq, Prod.ext_iff, ← character_eq_ok]
        cases character result.1 <;> simp [bind, Except.bind, pure, Except.pure]
  rw [hdigits, digits?_zero_iff (le_refl 16)]
  simp only [eq_comm]

theorem octalCharacter_eq_ok {first c : Char} {cs rest : List Char} :
    octalCharacter first cs = .ok (c, rest) ↔
      ∃ ds : List (Digit 8), ds.length = 3 ∧ first :: cs = ds.map Digit.char ++ rest ∧
        number ds < 256 ∧ Char.ofNat (number ds) = c := by
  unfold octalCharacter
  constructor
  · intro h
    split at h
    · next hdigits =>
      split at h
      · next hbyte =>
        cases h
        obtain ⟨ds, hlength, hcs, rfl⟩ := (digits?_zero_iff (by decide)).mp hdigits
        exact ⟨ds, hlength, hcs, Nat.lt_succ_of_le hbyte, rfl⟩
      · cases h
    · cases h
  · rintro ⟨ds, hlength, hcs, hbyte, rfl⟩
    rw [(digits?_zero_iff (by decide)).mpr ⟨ds, hlength, hcs, rfl⟩]
    exact if_pos (Nat.le_of_lt_succ hbyte)

theorem escape_octal (d : Digit 8) (cs : List Char) :
    escape (d.char :: cs) = octalCharacter d.char cs := by
  have hall : ∀ v : Fin 8, ∀ large, (Digit.mk v large).char ∈
      ['0', '1', '2', '3', '4', '5', '6', '7'] := by
    decide
  have hmem := hall d.value d.large
  generalize d.char = c at hmem ⊢
  simp only [List.mem_cons, List.not_mem_nil, or_false] at hmem
  rcases hmem with rfl | rfl | rfl | rfl | rfl | rfl | rfl | rfl <;> rfl

theorem exists_of_escape {c : Char} {cs rest : List Char} (h : escape cs = .ok (c, rest)) :
    ∃ e : Element, e.char = c ∧ '\\' :: cs = e.text ++ rest := by
  unfold escape at h
  split at h
  · cases h
  split at h
  case h_10 =>
    obtain ⟨ds, hlength, rfl, hcode⟩ := hexCharacter_eq_ok.mp h
    exact ⟨.hexByte ds hlength, by rw [Element.char, hcode, Char.ofNat_toNat], rfl⟩
  case h_11 =>
    obtain ⟨ds, hlength, rfl, hcode⟩ := hexCharacter_eq_ok.mp h
    exact ⟨.shortCode ds hlength c hcode, rfl, rfl⟩
  case h_12 =>
    obtain ⟨ds, hlength, rfl, hcode⟩ := hexCharacter_eq_ok.mp h
    exact ⟨.longCode ds hlength c hcode, rfl, rfl⟩
  case h_13 =>
    split at h
    · obtain ⟨ds, hlength, hcs, hbyte, rfl⟩ := octalCharacter_eq_ok.mp h
      exact ⟨.octalByte ds hlength hbyte, rfl, by rw [hcs]; rfl⟩
    · cases h
  all_goals
    cases h
    exact ⟨.mark _ _ (by decide), rfl, rfl⟩

theorem escape_of_text {e : Element} {cs rest : List Char} (h : '\\' :: cs = e.text ++ rest) :
    escape cs = .ok (e.char, rest) := by
  cases e with
  | plain c hc => exact absurd (List.cons.inj h).1.symm hc.2.1
  | mark letter c hc =>
      obtain rfl := (List.cons.inj h).2
      simp only [marks, List.mem_cons, List.not_mem_nil, or_false, Prod.mk.injEq] at hc
      rcases hc with ⟨rfl, rfl⟩ | ⟨rfl, rfl⟩ | ⟨rfl, rfl⟩ | ⟨rfl, rfl⟩ | ⟨rfl, rfl⟩ | ⟨rfl, rfl⟩ |
        ⟨rfl, rfl⟩ | ⟨rfl, rfl⟩ | ⟨rfl, rfl⟩ <;> rfl
  | hexByte ds hlength =>
      obtain rfl := (List.cons.inj h).2
      have hlt := Digit.number_lt (by decide : 1 < 16) ds
      rw [hlength] at hlt
      have hvalid : (number ds).isValidChar := .inl (Nat.lt_trans hlt (by decide))
      exact hexCharacter_eq_ok.mpr ⟨ds, hlength, rfl, (Text.toNat_ofNat hvalid).symm⟩
  | octalByte ds hlength hbyte =>
      obtain rfl := (List.cons.inj h).2
      obtain ⟨d, ds, rfl⟩ := List.exists_cons_of_length_eq_add_one hlength
      exact (escape_octal d _).trans (octalCharacter_eq_ok.mpr ⟨d :: ds, hlength, rfl, hbyte, rfl⟩)
  | shortCode ds hlength c hcode =>
      obtain rfl := (List.cons.inj h).2
      exact hexCharacter_eq_ok.mpr ⟨ds, hlength, rfl, hcode⟩
  | longCode ds hlength c hcode =>
      obtain rfl := (List.cons.inj h).2
      exact hexCharacter_eq_ok.mpr ⟨ds, hlength, rfl, hcode⟩

theorem decodeBody_element (e : Element) (body : List Char) :
    decodeBody (e.text ++ body) = (decodeBody body).map (e.char :: ·) := by
  by_cases hescape : ∃ cs, e.text = '\\' :: cs
  · obtain ⟨cs, htext⟩ := hescape
    rw [htext, List.cons_append]
    exact decodeBody_escape (escape_of_text (by rw [htext, List.cons_append]))
  · cases e with
    | plain c hc => exact decodeBody_plain hc.1 hc.2.1 hc.2.2 body
    | mark | hexByte | octalByte | shortCode | longCode => exact absurd ⟨_, rfl⟩ hescape

/-- Decoding gives a character for each element and goes on behind them. -/
theorem decodeBody_append (elements : List Element) (rest : List Char) :
    decodeBody (elements.flatMap Element.text ++ rest) =
      (decodeBody rest).map (elements.map Element.char ++ ·) := by
  induction elements with
  | nil => cases h : decodeBody rest <;> simp [h, Except.map]
  | cons e elements ih =>
      rw [List.flatMap_cons, List.append_assoc, decodeBody_element, ih]
      cases decodeBody rest <;> rfl

/-- A text with which no element begins, and the fault that tells of it. -/
inductive Stops : List Char → LiteralFault → Prop where
  | quote (cs : List Char) : Stops ('"' :: cs) .bareQuote
  | lineBreak (cs : List Char) : Stops ('\n' :: cs) .newline
  | escape {cs : List Char} {fault : LiteralFault} (h : escape cs = .error fault) :
      Stops ('\\' :: cs) fault

theorem Stops.decodeBody {cs : List Char} {fault : LiteralFault} (h : Stops cs fault) :
    decodeBody cs = .error fault := by
  cases h with
  | quote | lineBreak =>
      rw [Literal.decodeBody]
      rfl
  | escape h =>
      rw [Literal.decodeBody, if_neg (by decide), if_neg (by decide), if_pos rfl]
      split
      · next heq => cases heq.symm.trans h
      · next heq => rw [Except.error.inj (heq.symm.trans h)]; rfl

/-- A text is put together from elements, or begins with some of them in front of what is none. -/
theorem elements_or_stops (body : List Char) :
    (∃ elements : List Element, body = elements.flatMap Element.text) ∨
      ∃ (elements : List Element) (rest : List Char) (fault : LiteralFault),
        body = elements.flatMap Element.text ++ rest ∧ Stops rest fault := by
  induction body using decodeBody.induct with
  | case1 => exact .inl ⟨[], rfl⟩
  | case2 cs => exact .inr ⟨[], _, _, rfl, .quote cs⟩
  | case3 cs => exact .inr ⟨[], _, _, rfl, .lineBreak cs⟩
  | case4 cs d rest hescape _ _ ih =>
      obtain ⟨e, -, htext⟩ := exists_of_escape hescape
      rcases ih with ⟨elements, rfl⟩ | ⟨elements, rest, fault, rfl, hstops⟩
      · exact .inl ⟨e :: elements, htext⟩
      · exact .inr ⟨e :: elements, rest, fault, by simpa using htext, hstops⟩
  | case5 cs fault hescape => exact .inr ⟨[], _, fault, rfl, .escape hescape⟩
  | case6 c cs hquote hbreak hbackslash ih =>
      let e : Element := .plain c ⟨hquote, hbackslash, hbreak⟩
      rcases ih with ⟨elements, rfl⟩ | ⟨elements, rest, fault, rfl, hstops⟩
      · exact .inl ⟨e :: elements, rfl⟩
      · exact .inr ⟨e :: elements, rest, fault, rfl, hstops⟩

/-- The literal that elements are written as. -/
def ofElements (elements : List Element) : List Char :=
  '"' :: (elements.flatMap Element.text ++ ['"'])

theorem decode_quoted (body : List Char) : decode ('"' :: (body ++ ['"'])) = decodeBody body := by
  rw [decode, List.getLast?_concat, if_pos rfl, List.dropLast_concat]

theorem decode_ofElements (elements : List Element) :
    decode (ofElements elements) = .ok (elements.map Element.char) := by
  have hnothing : decodeBody [] = .ok [] := by
    rw [decodeBody]
    rfl
  have hbody := decodeBody_append elements []
  rw [List.append_nil, hnothing] at hbody
  rw [ofElements, decode_quoted, hbody, Except.map, List.append_nil]

end DeclBridge.Tag.Literal
