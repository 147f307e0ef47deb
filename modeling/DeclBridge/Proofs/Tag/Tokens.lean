import DeclBridge.Proofs.Scan.Whole
import DeclBridge.Proofs.Tag.Elements

/-!
The values of string tokens. The scanner looks at two characters of an escape and decoding at up to
ten, but both pass over the same elements, so that they agree where a literal ends. What the scanner
takes for a literal is one but for the escapes in it.
-/

namespace DeclBridge

/-- Whether a fault lies in an escape: in the sign behind the backslash, in the digits, or in the
number that they write. -/
def LiteralFault.isOfEscape : LiteralFault → Bool
  | unknownEscape _ | hexDigits | octalDigits | octalRange | codePoint _ => true
  | notLiteral _ | backtick | bareQuote | newline | trailingBackslash => false

open Token.Reach (quoted raw)
open Text (Digit)

namespace Tag.Literal

/-- The fault of a literal is that of an escape in it, which stands behind elements of a literal. -/
def HasBadEscape (literal : List Char) (fault : LiteralFault) : Prop :=
  ∃ (elements : List Element) (rest : List Char),
    literal = '"' :: (elements.flatMap Element.text ++ '\\' :: rest ++ ['"']) ∧
      escape rest = .error fault ∧ fault.isOfEscape = true

/-- The fault of an escape is one of the escape, if anything stands behind the backslash. -/
theorem isOfEscape_of_escape {c : Char} {cs : List Char} {fault : LiteralFault}
    (h : escape (c :: cs) = .error fault) : fault.isOfEscape = true := by
  have hhex (n : Nat) (h : hexCharacter n cs = .error fault) : fault.isOfEscape = true := by
    unfold hexCharacter character at h
    split at h
    · split at h
      · cases h
      · cases h
        rfl
    · cases h
      rfl
  unfold escape at h
  dsimp only at h
  split at h
  case h_10 | h_11 | h_12 => exact hhex _ h
  case h_13 =>
    unfold octalCharacter at h
    split at h
    · split at h
      · split at h <;> cases h
        rfl
      · cases h
        rfl
    · cases h
      rfl
  all_goals cases h

theorem quoted_plain {c : Char} (h : c ≠ '"' ∧ c ≠ '\\' ∧ c ≠ '\n') (n : Nat) (cs : List Char) :
    quoted n (c :: cs) = quoted (n + 1) cs := by
  obtain ⟨hquote, hbackslash, hbreak⟩ := h
  rw [quoted]
  · exact hquote
  · exact hbreak
  · rintro _ rfl
    exact absurd rfl hbackslash
  · rintro _ _ rfl
    exact absurd rfl hbackslash

theorem quoted_escape {c : Char} (h : c ≠ '\n') (n : Nat) (cs : List Char) :
    quoted n ('\\' :: c :: cs) = quoted (n + 2) cs := by
  rw [quoted]
  rintro rfl
  exact h rfl

theorem quoted_digits {base : Nat} (hbase : base ≤ 16) (ds : List (Digit base)) (n : Nat)
    (cs : List Char) : quoted n (ds.map Digit.char ++ cs) = quoted (n + ds.length) cs := by
  induction ds generalizing n with
  | nil => rfl
  | cons d ds ih =>
      have hplain : d.char ≠ '"' ∧ d.char ≠ '\\' ∧ d.char ≠ '\n' :=
        ⟨d.char_ne hbase (by decide), d.char_ne hbase (by decide), d.char_ne hbase (by decide)⟩
      rw [List.map_cons, List.cons_append, quoted_plain hplain, ih, List.length_cons,
        Nat.add_assoc, Nat.add_comm 1]

theorem quoted_code {c : Char} (h : c ≠ '\n') {base : Nat} (hbase : base ≤ 16)
    (ds : List (Digit base)) (n : Nat) (cs : List Char) :
    quoted n ('\\' :: c :: ds.map Digit.char ++ cs) =
      quoted (n + ('\\' :: c :: ds.map Digit.char).length) cs := by
  rw [List.cons_append, List.cons_append, quoted_escape h, quoted_digits hbase, List.length_cons,
    List.length_cons, List.length_map, Nat.add_assoc, Nat.add_comm 2]

theorem quoted_element (e : Element) (n : Nat) (cs : List Char) :
    quoted n (e.text ++ cs) = quoted (n + e.text.length) cs := by
  cases e with
  | plain c hc => exact quoted_plain hc n cs
  | mark letter c hc =>
      have hall : ∀ pair ∈ marks, pair.1 ≠ '\n' := by decide
      exact quoted_escape (hall _ hc) n cs
  | hexByte ds | shortCode ds | longCode ds => exact quoted_code (by decide) (by decide) ds n cs
  | octalByte ds hlength =>
      obtain ⟨d, ds, rfl⟩ := List.exists_cons_of_length_eq_add_one hlength
      exact quoted_code (d.char_ne (by decide) (by decide)) (by decide) ds n cs

theorem quoted_elements (elements : List Element) (n : Nat) (cs : List Char) :
    quoted n (elements.flatMap Element.text ++ cs) =
      quoted (n + (elements.flatMap Element.text).length) cs := by
  induction elements generalizing n with
  | nil => rfl
  | cons e elements ih =>
      rw [List.flatMap_cons, List.append_assoc, quoted_element, ih, List.length_append,
        Nat.add_assoc]

theorem exists_of_quoted {n : Nat} {cs : List Char} (h : quoted n cs = some (n + cs.length)) :
    ∃ body, cs = body ++ ['"'] := by
  fun_induction quoted n cs with
  | case1 | case3 | case4 => cases h
  | case2 n rest =>
      have hrest : rest = [] := by simpa using h
      exact ⟨[], by rw [hrest]; rfl⟩
  | case5 n c cs _ ih =>
      rw [List.length_cons, List.length_cons, Nat.add_assoc cs.length, Nat.add_comm cs.length,
        ← Nat.add_assoc] at h
      obtain ⟨body, rfl⟩ := ih h
      exact ⟨'\\' :: c :: body, rfl⟩
  | case6 n c cs _ _ _ _ ih =>
      rw [List.length_cons, Nat.add_comm cs.length, ← Nat.add_assoc] at h
      obtain ⟨body, rfl⟩ := ih h
      exact ⟨c :: body, rfl⟩

theorem exists_of_raw {n : Nat} {cs : List Char} (h : raw n cs = some (n + cs.length)) :
    ∃ body, cs = body ++ ['`'] ∧ '`' ∉ body := by
  fun_induction raw n cs with
  | case1 => cases h
  | case2 n cs =>
      have hcs : cs = [] := by simpa using h
      exact ⟨[], by rw [hcs]; rfl, List.not_mem_nil⟩
  | case3 n c cs hc ih =>
      rw [List.length_cons, Nat.add_comm cs.length, ← Nat.add_assoc] at h
      obtain ⟨body, rfl, hbody⟩ := ih h
      exact ⟨c :: body, rfl, List.not_mem_cons_of_ne_of_not_mem (Ne.symm hc) hbody⟩

/-- Where the scanner reads a literal to its end, nothing but an escape can be wrong in it. -/
theorem isOfEscape_of_stops {n : Nat} {rest : List Char} {fault : LiteralFault}
    (h : quoted n (rest ++ ['"']) = some (n + rest.length + 1)) (hstops : Stops rest fault) :
    ∃ cs, rest = '\\' :: cs ∧ escape cs = .error fault ∧ fault.isOfEscape = true := by
  cases hstops with
  | quote cs =>
      have hn := Option.some.inj h
      simp at hn
  | lineBreak cs => cases h
  | @escape cs _ hescape =>
      refine ⟨cs, rfl, hescape, ?_⟩
      cases cs with
      | nil => cases h
      | cons c cs => exact isOfEscape_of_escape hescape

/-- A literal has a value, or an escape in it has none. -/
theorem decode_of_isLiteral {text : String} (h : Token.isLiteral text = true) :
    (∃ value, decode text.toList = .ok value) ∨
      ∃ fault, decode text.toList = .error fault ∧ HasBadEscape text.toList fault := by
  obtain ⟨c, cs, htext, hextent⟩ := Token.isWhole_iff.mp h
  rw [htext]
  cases Token.extent_eq_ok.mp hextent with
  | raw hraw =>
      rw [← Nat.zero_add cs.length] at hraw
      obtain ⟨body, rfl, hbody⟩ := exists_of_raw hraw
      left
      rw [decode, List.getLast?_concat, if_pos rfl, List.dropLast_concat,
        if_neg (by simpa using hbody)]
      exact ⟨_, rfl⟩
  | quoted hquoted =>
      rw [← Nat.zero_add cs.length] at hquoted
      obtain ⟨body, rfl⟩ := exists_of_quoted hquoted
      rcases elements_or_stops body with ⟨elements, rfl⟩ | ⟨elements, rest, fault, rfl, hstops⟩
      · exact .inl ⟨_, decode_ofElements elements⟩
      · have hdecode := decodeBody_append elements rest
        rw [hstops.decodeBody] at hdecode
        rw [List.append_assoc, quoted_elements, List.length_append, ← Nat.add_assoc,
          List.length_append, ← Nat.add_assoc] at hquoted
        obtain ⟨cs, rfl, hescape, hfault⟩ := isOfEscape_of_stops hquoted hstops
        rw [decode_quoted]
        exact .inr ⟨fault, hdecode, elements, cs, rfl, hescape, hfault⟩

end Tag.Literal

open Tag.Literal (decode HasBadEscape)

/-- What the scanner takes for a string literal is one, or would be but for an escape in it. -/
theorem Scanned.decode_of_ofSource {source : String} {s : Scanned}
    (h : Scanned.ofSource source = .ok s) {t : Token} (ht : t ∈ s.toList) {text : String}
    (hkind : t.kind = .string text) :
    (∃ value, decode t.lexeme.toList = .ok value) ∨
      ∃ fault, decode t.lexeme.toList = .error fault ∧ HasBadEscape t.lexeme.toList fault := by
  have hlineEnd : t.isLineEnd = false := by
    rw [Token.isLineEnd, hkind]
    rfl
  have hmem : t ∈ s.tokens := by
    rcases List.mem_append.mp ht with ht | ht
    · exact ht
    · rw [List.mem_singleton.mp ht] at hkind
      cases hkind
  have hwhole := (isGenuine_of_ofSource h t hmem hlineEnd).isWhole
  rw [hkind] at hwhole
  exact Tag.Literal.decode_of_isLiteral hwhole

/-- A digit is missing behind a quote that an escape gives, in the third of three literals. -/
theorem Scanned.decode_of_ofSource_missingDigit :
    let t : Token := ⟨.string "\"\\\"\\x4é\"", "\"\\\"\\x4é\"", ⟨1, 10⟩⟩
    ∃ s, Scanned.ofSource "\"\\\\\" `\\` \"\\\"\\x4é\"" = .ok s ∧ t ∈ s.toList ∧
      t.kind = .string "\"\\\"\\x4é\"" ∧ decode t.lexeme.toList = .error .hexDigits ∧
      ((∃ value, decode t.lexeme.toList = .ok value) ∨
        ∃ fault, decode t.lexeme.toList = .error fault ∧
          HasBadEscape t.lexeme.toList fault) := by
  intro t
  have h : Scanned.ofSource "\"\\\\\" `\\` \"\\\"\\x4é\"" = .ok
      ⟨[⟨.string "\"\\\\\"", "\"\\\\\"", ⟨1, 1⟩⟩, ⟨.string "`\\`", "`\\`", ⟨1, 6⟩⟩, t,
        .lineEnd ⟨1, 18⟩], ⟨1, 18⟩⟩ := by
    cbv
  have ht : t ∈ [⟨.string "\"\\\\\"", "\"\\\\\"", ⟨1, 1⟩⟩,
      ⟨.string "`\\`", "`\\`", ⟨1, 6⟩⟩, t, .lineEnd ⟨1, 18⟩] ++ [⟨.eof, "", ⟨1, 18⟩⟩] := by
    simp
  exact ⟨_, h, ht, rfl, by cbv, decode_of_ofSource h ht rfl⟩

end DeclBridge
