import DeclBridge.Proofs.Tag.Elements
import DeclBridge.Proofs.Text.ByteOrder
import Mathlib.Algebra.Order.BigOperators.Group.List

/-!
The bytes that interpreted string literals stand for. An escape by two hexadecimal or three octal
digits stands for one byte, and bytes of 128 or more are parts of characters only. Decoding makes a
character of each such byte, so that it keeps the bytes of exactly those literals that have none.
-/

namespace DeclBridge.Tag.Literal

open Text.Digit (number)

namespace Element

/-- The bytes that the element stands for. -/
def bytes : Element → List UInt8
  | plain c _ | mark _ c _ | shortCode _ _ c _ | longCode _ _ c _ => String.utf8EncodeChar c
  | hexByte digits _ => [UInt8.ofNat (number digits)]
  | octalByte digits _ _ => [UInt8.ofNat (number digits)]

/-- Whether the element is an escape for a byte of 128 or more, which is no character. -/
def givesPart : Element → Bool
  | plain .. | mark .. | shortCode .. | longCode .. => false
  | hexByte digits _ => 128 ≤ number digits
  | octalByte digits _ _ => 128 ≤ number digits

theorem number_lt_of_hexByte {digits : List (Text.Digit 16)} (h : digits.length = 2) :
    number digits < 256 := by
  have hlt := Text.Digit.number_lt (by decide) digits
  rwa [h] at hlt

/-- A byte below 128 is a character, and any other is shorter than the character of its number. -/
theorem byte_cases {n : Nat} (hn : n < 256) :
    (n < 128 ∧ [UInt8.ofNat n] = String.utf8EncodeChar (Char.ofNat n)) ∨
      128 ≤ n ∧ [UInt8.ofNat n].length < (String.utf8EncodeChar (Char.ofNat n)).length := by
  have hcharacter : ∀ n < 128, [UInt8.ofNat n] = String.utf8EncodeChar (Char.ofNat n) := by decide
  have hpart : ∀ n < 128, (String.utf8EncodeChar (Char.ofNat (128 + n))).length = 2 := by decide
  rcases Nat.lt_or_ge n 128 with hlt | hge
  · exact .inl ⟨hlt, hcharacter n hlt⟩
  · have hlength := hpart (n - 128) (by omega)
    rw [Nat.add_sub_cancel' hge] at hlength
    exact .inr ⟨hge, by rw [hlength]; exact Nat.lt_succ_self 1⟩

/-- An element stands for its character, but where it gives a part of one. -/
theorem bytes_cases (e : Element) :
    (e.givesPart = false ∧ e.bytes = String.utf8EncodeChar e.char) ∨
      e.givesPart = true ∧ e.bytes.length < (String.utf8EncodeChar e.char).length := by
  cases e with
  | plain | mark | shortCode | longCode => exact .inl ⟨rfl, rfl⟩
  | hexByte digits h => simpa [givesPart, bytes, char] using byte_cases (number_lt_of_hexByte h)
  | octalByte digits h hbyte => simpa [givesPart, bytes, char] using byte_cases hbyte

end Element

/-- Whether decoding gives the text with the bytes that the literal stands for, however its text is
put together from elements, if they are the bytes of a text. -/
def KeepsBytes (literal : List Char) : Prop :=
  ∀ (elements : List Element) (value : String), literal = ofElements elements →
    value.toUTF8.data.toList = elements.flatMap Element.bytes → decode literal = .ok value.toList

theorem length_bytes_le (e : Element) :
    e.bytes.length ≤ (String.utf8EncodeChar e.char).length := by
  rcases e.bytes_cases with ⟨-, hbytes⟩ | ⟨-, hlt⟩
  · rw [hbytes]
  · exact Nat.le_of_lt hlt

/-- The characters of elements are the text that these stand for, unless one gives a part: then
there are too many bytes. -/
theorem toUTF8_ofList_iff {elements : List Element} :
    (String.ofList (elements.map Element.char)).toUTF8.data.toList =
        elements.flatMap Element.bytes ↔ ∀ e ∈ elements, e.givesPart = false := by
  rw [Text.toList_data_toUTF8, String.toList_ofList, List.flatMap_map]
  constructor
  · intro h e he
    rcases e.bytes_cases with ⟨hpart, -⟩ | ⟨-, hlt⟩
    · exact hpart
    · have hsum := List.sum_lt_sum (fun e : Element => e.bytes.length)
        (fun e => (String.utf8EncodeChar e.char).length) (fun e _ => length_bytes_le e) ⟨e, he, hlt⟩
      rw [← List.length_flatMap, ← List.length_flatMap, h] at hsum
      exact absurd hsum (Nat.lt_irrefl _)
  · intro h
    refine List.flatMap_congr fun e he => ?_
    rcases e.bytes_cases with ⟨-, hbytes⟩ | ⟨hpart, -⟩
    · exact hbytes.symm
    · rw [h e he] at hpart
      cases hpart

/-- Decoding keeps the bytes of a literal exactly if no escape in it gives a part of a character. -/
theorem keepsBytes_iff (literal : List Char) :
    KeepsBytes literal ↔
      ∀ (elements : List Element) (value : String), literal = ofElements elements →
        value.toUTF8.data.toList = elements.flatMap Element.bytes →
          ∀ e ∈ elements, e.givesPart = false := by
  unfold KeepsBytes
  refine forall_congr' fun elements => forall_congr' fun value =>
    forall_congr' fun hliteral => forall_congr' fun hvalue => ?_
  rw [hliteral, decode_ofElements, ← toUTF8_ofList_iff, ← hvalue, Except.ok.injEq]
  constructor
  · intro h
    rw [h, String.ofList_toList]
  · intro h
    have hbytes : (String.ofList (elements.map Element.char)).toByteArray = value.toByteArray := by
      rw [← String.toUTF8_eq_toByteArray, ← String.toUTF8_eq_toByteArray]
      exact ByteArray.ext (Array.toList_inj.mp h)
    rw [← String.toByteArray_inj.mp hbytes, String.toList_ofList]

/-- Two escapes for the bytes of one character are decoded to two characters. -/
theorem not_keepsBytes_accent : ¬ KeepsBytes "\"\\xc3\\xa9\"".toList := by
  intro h
  let elements : List Element :=
    [.hexByte [⟨12, false⟩, ⟨3, false⟩] rfl, .hexByte [⟨10, false⟩, ⟨9, false⟩] rfl]
  have hliteral : "\"\\xc3\\xa9\"".toList = ofElements elements := by decide
  have hdecode : decode (ofElements elements) = .ok ['Ã', '©'] := decode_ofElements elements
  have hvalue := h elements "é" hliteral (by decide)
  rw [hliteral, hdecode] at hvalue
  exact absurd (Except.ok.inj hvalue) (by decide)

end DeclBridge.Tag.Literal
