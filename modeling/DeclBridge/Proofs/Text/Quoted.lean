import DeclBridge.Proofs.Text.Digits
import DeclBridge.Text.Quoted

/-!
The values of Rust's string literals. A quoted text is such a literal, and its value is the text,
whatever characters it holds.
-/

namespace DeclBridge.Text

namespace Quoted

/-- The number that up to six hexadecimal digits and a closing brace give behind `n` digits of
`value`, and the text behind the brace. Underscores may stand behind a digit. -/
def bracedCode? : Nat → Nat → List Char → Option (Nat × List Char)
  | _, _, [] => none
  | n, value, c :: cs =>
      match digit? 16 c with
      | some d => if n < 6 then bracedCode? (n + 1) (value * 16 + d) cs else none
      | none =>
          if n = 0 then none
          else if c = '_' then bracedCode? n value cs
          else if c = '}' then some (value, cs)
          else none

/-- The character that a backslash before the text gives, and the text behind the escape. -/
def unescape? : List Char → Option (Char × List Char)
  | [] => none
  | c :: cs =>
      match c with
      | 'n' => some ('\n', cs)
      | 'r' => some ('\r', cs)
      | 't' => some ('\t', cs)
      | '0' => some ('\x00', cs)
      | '\\' => some ('\\', cs)
      | '\'' => some ('\'', cs)
      | '"' => some ('"', cs)
      | 'x' =>
          match digits? 16 2 0 cs with
          | some (code, rest) => if code < 0x80 then some (Char.ofNat code, rest) else none
          | none => none
      | 'u' =>
          match cs with
          | '{' :: cs =>
              match bracedCode? 0 0 cs with
              | some (code, rest) =>
                  if code.isValidChar then some (Char.ofNat code, rest) else none
              | none => none
          | _ => none
      | _ => none

theorem length_of_bracedCode? {n value code : Nat} {cs rest : List Char}
    (h : bracedCode? n value cs = some (code, rest)) : rest.length < cs.length := by
  fun_induction bracedCode? n value cs with
  | case1 => cases h
  | case2 n value c cs d hd hn ih => exact Nat.lt_succ_of_lt (ih h)
  | case3 => cases h
  | case4 => cases h
  | case5 n value cs hd hn ih => exact Nat.lt_succ_of_lt (ih h)
  | case6 => simp_all
  | case7 => cases h

theorem length_of_unescape? {c : Char} {cs rest : List Char}
    (h : unescape? cs = some (c, rest)) : rest.length < cs.length := by
  unfold unescape? at h
  split at h
  · cases h
  · split at h
    case h_8 =>
      split at h
      · next code rest' hdigits =>
          have hlength := length_of_digits? hdigits
          split at h
          · obtain ⟨-, rfl⟩ := Prod.mk.inj (Option.some.inj h)
            rw [List.length_cons]
            omega
          · cases h
      · cases h
    case h_9 =>
      split at h
      · split at h
        · next code rest' hcode =>
            have hlength := length_of_bracedCode? hcode
            split at h
            · obtain ⟨-, rfl⟩ := Prod.mk.inj (Option.some.inj h)
              rw [List.length_cons, List.length_cons]
              omega
            · cases h
        · cases h
      · cases h
    case h_10 => cases h
    all_goals
      obtain ⟨-, rfl⟩ := Prod.mk.inj (Option.some.inj h)
      exact Nat.lt_succ_self _

/-- White space that a backslash at the end of a line takes with it. -/
def isContinuation (c : Char) : Bool :=
  c = ' ' || c = '\t' || c = '\n' || c = '\r'

/-- The value of the text behind the opening quote of a literal, which ends with its closing
quote. -/
def decodeBody? : List Char → Option (List Char)
  | [] => none
  | c :: cs =>
      if c = '"' then if cs = [] then some [] else none
      else if c = '\r' then none
      else if c = '\\' then
        if cs.head? = some '\n' then decodeBody? (cs.dropWhile isContinuation)
        else
          match _h : unescape? cs with
          | some (d, rest) => (decodeBody? rest).map (d :: ·)
          | none => none
      else (decodeBody? cs).map (c :: ·)
termination_by cs => cs.length
decreasing_by
  · exact Nat.lt_succ_of_le (List.dropWhile_suffix _).length_le
  · exact Nat.lt_succ_of_lt (length_of_unescape? _h)
  · exact Nat.lt_succ_self _

def decode? : List Char → Option (List Char)
  | '"' :: cs => decodeBody? cs
  | _ => none

theorem bracedCode?_toDigits {code : Nat} (h : (Nat.toDigits 16 code).length ≤ 6)
    (rest : List Char) :
    bracedCode? 0 0 (Nat.toDigits 16 code ++ rest) =
      bracedCode? (Nat.toDigits 16 code).length code rest := by
  induction code using Nat.base_induction 16 (by decide) generalizing rest with
  | single d hd =>
      rw [Nat.toDigits_of_lt_base hd, List.singleton_append, bracedCode?, digit?_digitChar hd]
      simp
  | digit code d hd hcode ih =>
      have hdigits : Nat.toDigits 16 (16 * code + d) = Nat.toDigits 16 code ++ [d.digitChar] := by
        rw [← Nat.toDigits_append_toDigits (by decide) hcode hd, Nat.toDigits_of_lt_base hd]
      rw [hdigits, List.length_append, List.length_singleton] at h
      rw [hdigits, List.append_assoc, ih (by omega), List.singleton_append, bracedCode?,
        digit?_digitChar hd, List.length_append, List.length_singleton, Nat.mul_comm]
      simp only
      rw [if_pos (by omega)]

theorem unescape?_code (c : Char) (rest : List Char) :
    unescape? ('u' :: '{' :: (Nat.toDigits 16 c.toNat ++ '}' :: rest)) = some (c, rest) := by
  have hvalid : c.toNat.isValidChar := c.valid
  have hlength : (Nat.toDigits 16 c.toNat).length ≤ 6 := by
    rw [Nat.length_toDigits_le_iff (by decide) (by decide)]
    rcases hvalid with hlt | ⟨-, hlt⟩ <;> omega
  have hpos : (Nat.toDigits 16 c.toNat).length ≠ 0 :=
    Nat.ne_of_gt Nat.length_toDigits_pos
  have hclose : bracedCode? (Nat.toDigits 16 c.toNat).length c.toNat ('}' :: rest) =
      some (c.toNat, rest) := by
    rw [bracedCode?]
    simp [hpos, show digit? 16 '}' = none from rfl]
  simp only [unescape?, bracedCode?_toDigits hlength, hclose]
  rw [if_pos hvalid, Char.ofNat_toNat]

theorem escape_cases (c : Char) :
    (escape c = [c] ∧ c ≠ '"' ∧ c ≠ '\r' ∧ c ≠ '\\') ∨
      ∃ d ds, escape c = '\\' :: d :: ds ∧ d ≠ '\n' ∧
        ∀ rest, unescape? (d :: ds ++ rest) = some (c, rest) := by
  unfold escape
  split
  · next hc => exact .inr ⟨'0', [], rfl, by decide, fun rest => by rw [hc]; rfl⟩
  split
  · next hc => exact .inr ⟨'t', [], rfl, by decide, fun rest => by rw [hc]; rfl⟩
  split
  · next hc => exact .inr ⟨'r', [], rfl, by decide, fun rest => by rw [hc]; rfl⟩
  split
  · next hc => exact .inr ⟨'n', [], rfl, by decide, fun rest => by rw [hc]; rfl⟩
  split
  · next hc => exact .inr ⟨'"', [], rfl, by decide, fun rest => by rw [hc]; rfl⟩
  split
  · next hc => exact .inr ⟨'\\', [], rfl, by decide, fun rest => by rw [hc]; rfl⟩
  split
  · next hreturn _ hquote hbackslash _ => exact .inl ⟨rfl, hquote, hreturn, hbackslash⟩
  · refine .inr ⟨'u', '{' :: (Nat.toDigits 16 c.toNat ++ ['}']), rfl, by decide, fun rest => ?_⟩
    simpa using unescape?_code c rest

theorem decodeBody?_escape (c : Char) (rest : List Char) :
    decodeBody? (escape c ++ rest) = (decodeBody? rest).map (c :: ·) := by
  rcases escape_cases c with ⟨hc, hquote, hreturn, hbackslash⟩ | ⟨d, ds, hc, hd, hescape⟩
  · rw [hc, List.singleton_append, decodeBody?, if_neg hquote, if_neg hreturn, if_neg hbackslash]
  · rw [hc, List.cons_append, decodeBody?, if_neg (by decide), if_neg (by decide), if_pos rfl,
      if_neg (by simpa using hd)]
    split
    · next heq =>
        obtain ⟨rfl, rfl⟩ := Prod.mk.inj (Option.some.inj ((hescape rest).symm.trans heq))
        rfl
    · next heq => cases (hescape rest).symm.trans heq

theorem decodeBody?_flatMap (text : List Char) :
    decodeBody? (text.flatMap escape ++ ['"']) = some text := by
  induction text with
  | nil => rw [List.flatMap_nil, List.nil_append, decodeBody?, if_pos rfl, if_pos rfl]
  | cons c text ih =>
      rw [List.flatMap_cons, List.append_assoc, decodeBody?_escape, ih]
      rfl

theorem decode?_encode (text : String) : decode? (encode text).toList = some text.toList := by
  rw [encode, String.toList_ofList, List.cons_append, decode?]
  exact decodeBody?_flatMap text.toList

example : decode? "\"\\x41\\u\x7b3_b1\x7d\\\n  b\"".toList = some ['A', 'α', 'b'] := by
  decide +kernel

end Quoted

end DeclBridge.Text
