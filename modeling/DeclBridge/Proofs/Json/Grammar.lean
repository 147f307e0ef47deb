import DeclBridge.Json.Basic
import DeclBridge.Proofs.Text.Digits

/-!
The grammar of JSON as it is written down. It says which texts stand for which values, and does not
look at how they are read.
-/

namespace DeclBridge.JsonValue

open Text (Digit)

/-- White space between tokens. -/
def IsSpace (cs : List Char) : Prop :=
  ∀ c ∈ cs, c ∈ [' ', '\n', '\t', '\r']

/-- The letters of escapes, and the characters that they stand for. -/
def escapes : List (Char × Char) :=
  [('"', '"'), ('\\', '\\'), ('/', '/'), ('b', '\x08'), ('f', '\x0c'), ('n', '\n'), ('r', '\r'),
    ('t', '\t')]

/-- A character of a string or an escape stands for a code point. -/
inductive WritesCode : List Char → Nat → Prop where
  | plain {c : Char} : ' ' ≤ c → c ≠ '"' → c ≠ '\\' → WritesCode [c] c.toNat
  | letter {letter c : Char} : (letter, c) ∈ escapes → WritesCode ['\\', letter] c.toNat
  | hex {ds : List (Digit 16)} :
      ds.length = 4 → WritesCode ('\\' :: 'u' :: ds.map Digit.char) (Digit.number ds)

/-- A text between quotes stands for code points. -/
inductive WritesCodes : List Char → List Nat → Prop where
  | nil : WritesCodes [] []
  | cons {cs ds : List Char} {code : Nat} {codes : List Nat} :
      WritesCode cs code → WritesCodes ds codes → WritesCodes (cs ++ ds) (code :: codes)

theorem writesCodes_plain {cs : List Char} (h : ∀ c ∈ cs, ' ' ≤ c ∧ c ≠ '"' ∧ c ≠ '\\') :
    WritesCodes cs (cs.map Char.toNat) := by
  induction cs with
  | nil => exact .nil
  | cons c cs ih =>
      obtain ⟨hspace, hquote, hbackslash⟩ := h c List.mem_cons_self
      exact .cons (.plain hspace hquote hbackslash) (ih fun d hd => h d (List.mem_cons_of_mem _ hd))

/-- A string with its quotes stands for code points. -/
def WritesString (cs : List Char) (codes : List Nat) : Prop :=
  ∃ body, WritesCodes body codes ∧ cs = '"' :: (body ++ ['"'])

def IsDigits (cs : List Char) : Prop :=
  cs ≠ [] ∧ ∀ c ∈ cs, c.isDigit = true

/-- The integer at the beginning of a number. -/
inductive WritesInteger : List Char → Prop where
  | zero : WritesInteger ['0']
  | digits {c : Char} {cs : List Char} : c ≠ '0' → IsDigits (c :: cs) → WritesInteger (c :: cs)

/-- The fraction of a number, which may be missing. -/
inductive WritesFraction : List Char → Prop where
  | none : WritesFraction []
  | point {cs : List Char} : IsDigits cs → WritesFraction ('.' :: cs)

/-- The exponent of a number, which may be missing. -/
inductive WritesExponent : List Char → Prop where
  | none : WritesExponent []
  | mark {mark : Char} {sign cs : List Char} :
      mark ∈ ['e', 'E'] → sign ∈ [[], ['+'], ['-']] → IsDigits cs →
      WritesExponent (mark :: (sign ++ cs))

inductive WritesNumber : List Char → Prop where
  | parts {sign integer fraction exponent : List Char} :
      sign ∈ [[], ['-']] → WritesInteger integer → WritesFraction fraction →
      WritesExponent exponent → WritesNumber (sign ++ (integer ++ (fraction ++ exponent)))

/-- The name of a member, with white space around it and the colon behind it. -/
def WritesName (cs : List Char) (codes : List Nat) : Prop :=
  ∃ ws name ws', IsSpace ws ∧ WritesString name codes ∧ IsSpace ws' ∧
    cs = ws ++ (name ++ (ws' ++ [':']))

/-- What a part of a text stands for: a value, with or without white space around it, the items
between two brackets, or the members between two braces. -/
inductive Part where
  | value (value : JsonValue)
  | element (value : JsonValue)
  | items (items : List JsonValue)
  | members (members : List (List Nat × JsonValue))

/-- A part of a text and what it stands for. Items and members stand between brackets and braces if
there are any. -/
inductive Writes : List Char → Part → Prop where
  | null : Writes ['n', 'u', 'l', 'l'] (.value .null)
  | true : Writes ['t', 'r', 'u', 'e'] (.value (.bool true))
  | false : Writes ['f', 'a', 'l', 's', 'e'] (.value (.bool false))
  | number {cs : List Char} : WritesNumber cs → Writes cs (.value (.number (String.ofList cs)))
  | string {cs : List Char} {codes : List Nat} :
      WritesString cs codes → Writes cs (.value (.string codes))
  | emptyArray {ws : List Char} : IsSpace ws → Writes ('[' :: (ws ++ [']'])) (.value (.array []))
  | array {cs : List Char} {items : List JsonValue} :
      Writes cs (.items items) → Writes ('[' :: (cs ++ [']'])) (.value (.array items))
  | emptyObject {ws : List Char} :
      IsSpace ws → Writes ('{' :: (ws ++ ['}'])) (.value (.object []))
  | object {cs : List Char} {members : List (List Nat × JsonValue)} :
      Writes cs (.members members) → Writes ('{' :: (cs ++ ['}'])) (.value (.object members))
  | element {ws cs ws' : List Char} {value : JsonValue} :
      IsSpace ws → Writes cs (.value value) → IsSpace ws' →
      Writes (ws ++ (cs ++ ws')) (.element value)
  | item {cs : List Char} {item : JsonValue} :
      Writes cs (.element item) → Writes cs (.items [item])
  | items {cs ds : List Char} {item : JsonValue} {items : List JsonValue} :
      Writes cs (.element item) → Writes ds (.items items) →
      Writes (cs ++ ',' :: ds) (.items (item :: items))
  | member {name cs : List Char} {codes : List Nat} {value : JsonValue} :
      WritesName name codes → Writes cs (.element value) →
      Writes (name ++ cs) (.members [(codes, value)])
  | members {name cs ds : List Char} {codes : List Nat} {value : JsonValue}
      {members : List (List Nat × JsonValue)} :
      WritesName name codes → Writes cs (.element value) → Writes ds (.members members) →
      Writes (name ++ (cs ++ ',' :: ds)) (.members ((codes, value) :: members))

/-- Code points stand for characters: each for its own, or two surrogates for one above the others.
A surrogate without a partner stands for nothing. -/
inductive Spells : List Nat → List Char → Prop where
  | nil : Spells [] []
  | scalar {c : Char} {codes : List Nat} {cs : List Char} :
      Spells codes cs → Spells (c.toNat :: codes) (c :: cs)
  | pair {high low : Nat} {c : Char} {codes : List Nat} {cs : List Char} :
      0xD800 ≤ high → high < 0xDC00 → 0xDC00 ≤ low → low < 0xE000 →
      c.toNat = 0x10000 + (high - 0xD800) * 0x400 + (low - 0xDC00) → Spells codes cs →
      Spells (high :: low :: codes) (c :: cs)

theorem spells_toNat (cs : List Char) : Spells (cs.map Char.toNat) cs := by
  induction cs with
  | nil => exact .nil
  | cons c cs ih => exact .scalar ih

theorem characters?_of_spells {codes : List Nat} {cs : List Char} (h : Spells codes cs) :
    characters? codes = some cs := by
  induction h with
  | nil => rfl
  | @scalar c codes cs _ ih =>
      have hvalid : c.toNat.isValidChar := c.valid
      rw [characters?.eq_def]
      simp only [hvalid, if_true, ih, Char.ofNat_toNat]
      rfl
  | @pair high low c codes cs hhigh hhigh' hlow hlow' hc _ ih =>
      have hsurrogate : ¬ high.isValidChar := by
        unfold Nat.isValidChar
        omega
      rw [characters?, if_neg hsurrogate]
      simp only [hhigh, hhigh', hlow, hlow', and_self, if_true, ih, ← hc, Char.ofNat_toNat]
      rfl

theorem spells_of_characters? {codes : List Nat} {cs : List Char}
    (h : characters? codes = some cs) : Spells codes cs := by
  fun_induction characters? codes generalizing cs with
  | case1 =>
      cases h
      exact .nil
  | case2 code codes hvalid ih =>
      obtain ⟨ds, hds, rfl⟩ := Option.map_eq_some_iff.mp h
      rw [Char.ofNat, dif_pos hvalid]
      exact .scalar (c := Char.ofNatAux code hvalid) (ih hds)
  | case3 code hsurrogate low codes hpair ih =>
      obtain ⟨ds, hds, rfl⟩ := Option.map_eq_some_iff.mp h
      obtain ⟨hhigh, hhigh', hlow, hlow'⟩ := hpair
      have hvalid : (0x10000 + (code - 0xD800) * 0x400 + (low - 0xDC00)).isValidChar := by
        unfold Nat.isValidChar
        omega
      rw [Char.ofNat, dif_pos hvalid]
      exact .pair hhigh hhigh' hlow hlow' rfl (ih hds)
  | case4 => cases h
  | case5 => cases h

theorem text?_eq_some_iff {codes : List Nat} {text : String} :
    text? codes = some text ↔ Spells codes text.toList := by
  rw [text?, Option.map_eq_some_iff]
  constructor
  · rintro ⟨cs, hcs, rfl⟩
    rw [String.toList_ofList]
    exact spells_of_characters? hcs
  · intro h
    exact ⟨text.toList, characters?_of_spells h, String.ofList_toList⟩

end DeclBridge.JsonValue
