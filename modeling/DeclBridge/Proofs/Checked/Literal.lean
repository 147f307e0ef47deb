import DeclBridge.Proofs.Checked.Outcome
import DeclBridge.Tag.Literal

/-!
Texts that are cut by the numbers of their bytes, and the decoding of string literals that cuts its
texts so and reads the digits of escapes as numbers of 32 bits.
-/

namespace DeclBridge.Checked

open Exec (sub word)
open Text (digit? digits?)

def bytes (cs : List Char) : List UInt8 :=
  cs.flatMap String.utf8EncodeChar

/-- The number of characters in the first bytes of a text, if a character ends there. -/
def charsBefore? : List Char → Nat → Option Nat
  | _, 0 => some 0
  | [], _ + 1 => none
  | c :: cs, n + 1 =>
      if c.utf8Size ≤ n + 1 then (charsBefore? cs (n + 1 - c.utf8Size)).map (· + 1) else none

/-- The part of a text from one byte up to another. -/
def textSlice {ε : Type} (text : List Char) (first last : Nat) : Exec ε (List Char) :=
  if first ≤ last ∧ last ≤ (bytes text).length then
    match charsBefore? text first, charsBefore? text last with
    | some m, some n => pure ((text.drop m).take (n - m))
    | _, _ => Exec.panic .boundary
  else Exec.panic .index

/-- The number that digits give behind those of `value`, and the text behind them. -/
def readDigits (base : Nat) (fault : LiteralFault) :
    Nat → Nat → List Char → Exec LiteralFault (Nat × List Char)
  | 0, value, cs => return (value, cs)
  | n + 1, value, c :: cs =>
      match digit? base c with
      | some d => do
          let shifted ← word (value * base)
          readDigits base fault n (← word (shifted + d)) cs
      | none => throw fault
  | _ + 1, _, [] => throw fault

/-- The character of an escape by hexadecimal digits, and the text behind it. -/
def hexEscape (count : Nat) (cs : List Char) : Exec LiteralFault (Char × List Char) := do
  let (code, rest) ← readDigits 16 .hexDigits count 0 cs
  return (← Exec.ofExcept (Tag.Literal.character code), rest)

/-- The character of an escape by octal digits, and the text behind it. -/
def octalEscape (first : Char) (cs : List Char) : Exec LiteralFault (Char × List Char) := do
  let (code, rest) ← readDigits 8 .octalDigits 2 ((digit? 8 first).getD 0) cs
  if code ≤ 0xFF then return (Char.ofNat code, rest) else throw .octalRange

/-- The character that a backslash before the text gives, and the text behind the escape. -/
def unescape : List Char → Exec LiteralFault (Char × List Char)
  | 'x' :: cs => hexEscape 2 cs
  | 'u' :: cs => hexEscape 4 cs
  | 'U' :: cs => hexEscape 8 cs
  | c :: cs =>
      if '0' ≤ c ∧ c ≤ '7' then octalEscape c cs else Exec.ofExcept (Tag.Literal.escape (c :: cs))
  | [] => throw .trailingBackslash

/-- What is left of the text between the quotes of an interpreted literal. -/
structure Body where
  chars : List Char

/-- The value of the text between the quotes of an interpreted literal. -/
def Body.unquote (body : Body) : Exec LiteralFault (List Char) :=
  match body.chars with
  | [] => return []
  | c :: cs =>
      if c = '"' then throw .bareQuote
      else if c = '\n' then throw .newline
      else if c = '\\' then do
        let (d, rest) ← unescape cs
        return d :: (← Body.mk rest |>.unquote)
      else return c :: (← Body.mk cs |>.unquote)
partial_fixpoint

def unquote (literal : List Char) : Exec LiteralFault (List Char) := do
  let size := (bytes literal).length
  if 2 ≤ size ∧ literal.head? = some '`' ∧ literal.getLast? = some '`' then
    let body ← textSlice literal 1 (← sub size 1)
    if body.contains '`' then throw .backtick
    else return body.filter (· != '\r')
  else if size < 2 ∨ literal.head? ≠ some '"' ∨ literal.getLast? ≠ some '"' then
    throw (.notLiteral (String.ofList literal))
  else Body.unquote ⟨← textSlice literal 1 (← sub size 1)⟩

theorem bytes_append (cs ds : List Char) : bytes (cs ++ ds) = bytes cs ++ bytes ds :=
  List.flatMap_append

theorem length_bytes_cons (c : Char) (cs : List Char) :
    (bytes (c :: cs)).length = c.utf8Size + (bytes cs).length := by
  rw [bytes, List.flatMap_cons, List.length_append, String.length_utf8EncodeChar]
  rfl

theorem charsBefore?_append (cs ds : List Char) :
    charsBefore? (cs ++ ds) (bytes cs).length = some cs.length := by
  induction cs with
  | nil => cases ds <;> rfl
  | cons c cs ih =>
      obtain ⟨n, hn⟩ : ∃ n, (bytes (c :: cs)).length = n + 1 := by
        have hpos := c.utf8Size_pos
        exact ⟨(bytes (c :: cs)).length - 1, by rw [length_bytes_cons]; omega⟩
      rw [hn, List.cons_append, charsBefore?, ← hn, length_bytes_cons,
        if_pos (Nat.le_add_right _ _), Nat.add_sub_cancel_left, ih]
      rfl

theorem textSlice_append {ε : Type} (before cs ds : List Char) :
    textSlice (before ++ cs ++ ds) (bytes before).length (bytes (before ++ cs)).length =
      (pure cs : Exec ε (List Char)) := by
  have hfirst := charsBefore?_append before (cs ++ ds)
  have hlast := charsBefore?_append (before ++ cs) ds
  rw [← List.append_assoc] at hfirst
  rw [textSlice, hfirst, hlast, if_pos]
  · simp
  · simp [bytes_append]

example : textSlice ['é', 'a'] 1 3 = (Exec.panic .boundary : Exec LiteralFault _) := rfl

theorem digit?_lt {base d : Nat} {c : Char} (h : digit? base c = some d) : d < base := by
  simp only [digit?, Option.ite_none_right_eq_some, Option.some.injEq] at h
  obtain ⟨hlt, rfl⟩ := h
  exact hlt

/-- Digits whose number fits into 32 bits are read without an overflow. -/
theorem readDigits_eq {base value n : Nat} {cs : List Char} (fault : LiteralFault)
    (h : (value + 1) * base ^ n ≤ 2 ^ 32) :
    readDigits base fault n value cs =
      match digits? base n value cs with
      | some result => pure result
      | none => throw fault := by
  fun_induction digits? base n value cs with
  | case1 => rfl
  | case2 n value c cs d hd ih =>
      have hdigit := digit?_lt hd
      -- The number stays below the bound with as many digits as are left.
      have hvalue : value * base + d + 1 ≤ (value + 1) * base := by
        rw [Nat.add_mul, Nat.one_mul]
        omega
      rw [Nat.pow_succ', ← Nat.mul_assoc] at h
      have hnext : (value * base + d + 1) * base ^ n ≤ 2 ^ 32 :=
        Nat.le_trans (Nat.mul_le_mul_right _ hvalue) h
      have hpow : 0 < base ^ n := Nat.pow_pos (Nat.zero_lt_of_lt hdigit)
      have hfits : value * base + d < 2 ^ 32 :=
        Nat.le_trans (Nat.le_mul_of_pos_right _ hpow) hnext
      rw [readDigits, hd]
      simp only [Exec.word_of_lt (Nat.lt_of_le_of_lt (Nat.le_add_right _ d) hfits),
        Exec.word_of_lt hfits, pure_bind]
      exact ih hnext
  | case3 n value c cs hd =>
      rw [readDigits, hd]
  | case4 => rfl

theorem hexEscape_eq {count : Nat} (hcount : count ≤ 8) (cs : List Char) :
    hexEscape count cs = Exec.ofExcept (Tag.Literal.hexCharacter count cs) := by
  have hfits : (0 + 1) * 16 ^ count ≤ 2 ^ 32 := by
    rw [Nat.zero_add, Nat.one_mul]
    exact Nat.pow_le_pow_right (by decide : 16 > 0) hcount
  rw [hexEscape, readDigits_eq _ hfits, Tag.Literal.hexCharacter]
  cases digits? 16 count 0 cs with
  | none => rfl
  | some result => exact (Exec.ofExcept_bind _ _).symm

theorem octal_cases {c : Char} (h : '0' ≤ c ∧ c ≤ '7') :
    c = '0' ∨ c = '1' ∨ c = '2' ∨ c = '3' ∨ c = '4' ∨ c = '5' ∨ c = '6' ∨ c = '7' := by
  have hfirst : 48 ≤ c.toNat := h.1
  have hlast : c.toNat ≤ 55 := h.2
  rw [← Char.ofNat_toNat c]
  generalize c.toNat = n at *
  interval_cases n <;> decide

theorem octalEscape_eq {first : Char} (hfirst : '0' ≤ first ∧ first ≤ '7') (cs : List Char) :
    octalEscape first cs = Exec.ofExcept (Tag.Literal.octalCharacter first cs) := by
  obtain ⟨d, hd⟩ : ∃ d, digit? 8 first = some d := by
    rcases octal_cases hfirst with rfl | rfl | rfl | rfl | rfl | rfl | rfl | rfl <;> exact ⟨_, rfl⟩
  have hdigit := digit?_lt hd
  rw [octalEscape, hd, Option.getD_some, readDigits_eq _ (by omega), Tag.Literal.octalCharacter,
    digits?, hd]
  simp only [Nat.zero_mul, Nat.zero_add]
  cases digits? 8 2 d cs with
  | none => rfl
  | some result =>
      simp only [pure_bind]
      split <;> rfl

theorem unescape_eq (cs : List Char) :
    unescape cs = Exec.ofExcept (Tag.Literal.escape cs) := by
  unfold unescape
  split
  · exact hexEscape_eq (by decide) _
  · exact hexEscape_eq (by decide) _
  · exact hexEscape_eq (by decide) _
  · split
    · rename_i hoctal
      rw [octalEscape_eq hoctal]
      rcases octal_cases hoctal with rfl | rfl | rfl | rfl | rfl | rfl | rfl | rfl <;> rfl
    · rfl
  · rfl

theorem unquote_body (cs : List Char) :
    Body.unquote ⟨cs⟩ = Exec.ofExcept (Tag.Literal.decodeBody cs) := by
  induction cs using Tag.Literal.decodeBody.induct with
  | case1 =>
      rw [Body.unquote, Tag.Literal.decodeBody]
      rfl
  | case2 cs =>
      rw [Body.unquote, Tag.Literal.decodeBody]
      rfl
  | case3 cs =>
      rw [Body.unquote, Tag.Literal.decodeBody]
      rfl
  | case4 cs d rest hescape hquote hbreak ih =>
      rw [Body.unquote, Tag.Literal.decodeBody]
      dsimp only
      rw [if_neg hquote, if_neg hquote, if_neg hbreak,
        if_neg hbreak, if_pos rfl, if_pos rfl, unescape_eq]
      split
      · rename_i hok
        cases hescape.symm.trans hok
        rw [hescape, Exec.ofExcept_bind, ← ih]
        rfl
      · rename_i herror
        cases hescape.symm.trans herror
  | case5 cs fault hescape hquote hbreak =>
      rw [Body.unquote, Tag.Literal.decodeBody]
      dsimp only
      rw [if_neg hquote, if_neg hquote, if_neg hbreak,
        if_neg hbreak, if_pos rfl, if_pos rfl, unescape_eq]
      split
      · rename_i hok
        cases hescape.symm.trans hok
      · rename_i herror
        rw [herror]
        rfl
  | case6 c cs hquote hbreak hescape ih =>
      rw [Body.unquote, Tag.Literal.decodeBody]
      dsimp only
      rw [if_neg hquote, if_neg hquote, if_neg hbreak,
        if_neg hbreak, if_neg hescape, if_neg hescape, Exec.ofExcept_bind, ← ih]
      rfl

/-- The text between the quotes of a literal is cut out at characters. -/
theorem textSlice_between {ε : Type} {c d : Char} (hc : c.utf8Size = 1) (hd : d.utf8Size = 1)
    (body : List Char) :
    (do textSlice (c :: (body ++ [d])) 1 (← sub (bytes (c :: (body ++ [d]))).length 1)) =
      (pure body : Exec ε (List Char)) := by
  have hfirst : (bytes [c]).length = 1 := by
    rw [length_bytes_cons, hc]
    rfl
  have hlast : (bytes (c :: (body ++ [d]))).length - 1 = (bytes ([c] ++ body)).length := by
    rw [← List.cons_append, bytes_append, List.length_append, length_bytes_cons d, hd]
    rfl
  have hpos : 1 ≤ (bytes (c :: (body ++ [d]))).length := by
    rw [length_bytes_cons, hc]
    exact Nat.le_add_right _ _
  rw [Exec.sub_of_le hpos, pure_bind, hlast, ← hfirst]
  exact textSlice_append [c] body [d]

theorem decode_of_no_quotes {c : Char} {rest : List Char}
    (hraw : ¬(c = '`' ∧ rest.getLast? = some '`'))
    (hquoted : ¬(c = '"' ∧ rest.getLast? = some '"')) :
    Tag.Literal.decode (c :: rest) = .error (.notLiteral (String.ofList (c :: rest))) := by
  unfold Tag.Literal.decode
  split
  · rename_i heq
    cases heq
    rw [if_neg (fun hlast => hraw ⟨rfl, hlast⟩)]
    rfl
  · rename_i heq
    cases heq
    rw [if_neg (fun hlast => hquoted ⟨rfl, hlast⟩)]
    rfl
  · rfl

/-- Decoding breaks down on no literal. -/
theorem unquote_eq (literal : List Char) :
    unquote literal = Exec.ofExcept (Tag.Literal.decode literal) := by
  cases literal with
  | nil => rfl
  | cons c rest =>
      rcases List.eq_nil_or_concat' rest with rfl | ⟨body, d, rfl⟩
      · -- One character is no pair of quotes.
        have hshort (d : Char) (hd : d.utf8Size = 1) : ¬(2 ≤ (bytes [c]).length ∧ c = d) := by
          rintro ⟨hsize, rfl⟩
          rw [length_bytes_cons, hd] at hsize
          exact absurd hsize (by decide)
        have hraw : ¬(2 ≤ (bytes [c]).length ∧ [c].head? = some '`' ∧ [c].getLast? = some '`') :=
          fun h => hshort '`' rfl ⟨h.1, Option.some.inj h.2.1⟩
        have hquoted : (bytes [c]).length < 2 ∨ [c].head? ≠ some '"' ∨ [c].getLast? ≠ some '"' := by
          by_contra hno
          simp only [not_or, Nat.not_lt, not_not] at hno
          exact hshort '"' rfl ⟨hno.1, Option.some.inj hno.2.1⟩
        rw [decode_of_no_quotes (by simp) (by simp), unquote]
        simp only [if_neg hraw, if_pos hquoted]
        rfl
      · have hsize : 2 ≤ (bytes (c :: (body ++ [d]))).length := by
          have hc := c.utf8Size_pos
          have hd := d.utf8Size_pos
          rw [length_bytes_cons, bytes_append, List.length_append, length_bytes_cons d]
          omega
        have hlast : (c :: (body ++ [d])).getLast? = some d := List.getLast?_concat (l := c :: body)
        have hrest : (body ++ [d]).getLast? = some d := by simp
        simp only [unquote, List.head?_cons, hlast, hsize, Nat.not_lt.mpr hsize,
          Option.some.injEq, true_and, false_or, ne_eq]
        by_cases hraw : c = '`' ∧ d = '`'
        · rw [if_pos hraw]
          obtain ⟨rfl, rfl⟩ := hraw
          rw [← bind_assoc, textSlice_between rfl rfl, pure_bind]
          simp only [Tag.Literal.decode, hrest, if_true, List.dropLast_concat]
          split <;> rfl
        by_cases hquoted : c = '"' ∧ d = '"'
        · rw [if_neg hraw, if_neg (by tauto)]
          obtain ⟨rfl, rfl⟩ := hquoted
          rw [← bind_assoc, textSlice_between rfl rfl, pure_bind, unquote_body]
          simp only [Tag.Literal.decode, hrest, if_true, List.dropLast_concat]
        · rw [decode_of_no_quotes (by simpa using hraw) (by simpa using hquoted), if_neg hraw,
            if_pos (by tauto)]
          rfl

end DeclBridge.Checked
