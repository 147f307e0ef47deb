import DeclBridge.Proofs.Ruleset.Loading
import DeclBridge.Proofs.Tag.Bytes
import Mathlib.Data.List.TakeWhile

/-!
The keys of accepted rulesets and the look-up. Rulesets are accepted with keys that hold control
characters, at which the look-up ends a key. With such a key nothing is found in any tag; with every
other accepted key every value is found, however it and the tag are written.
-/

namespace DeclBridge

namespace Tag

namespace Literal

/-- The literal stands for the text, and every escape in it for a whole character. -/
def Quotes (literal : List Char) (text : String) : Prop :=
  ∃ elements : List Element, literal = ofElements elements ∧
    text.toUTF8.data.toList = elements.flatMap Element.bytes ∧ ∀ e ∈ elements, e.givesPart = false

theorem map_char_of_bytes {elements : List Element} {text : String}
    (htext : text.toUTF8.data.toList = elements.flatMap Element.bytes)
    (hwhole : ∀ e ∈ elements, e.givesPart = false) : elements.map Element.char = text.toList := by
  have hbytes := (toUTF8_ofList_iff.mpr hwhole).trans htext.symm
  have hsame : (String.ofList (elements.map Element.char)).toByteArray = text.toByteArray := by
    rw [← String.toUTF8_eq_toByteArray, ← String.toUTF8_eq_toByteArray]
    exact ByteArray.ext (Array.toList_inj.mp hbytes)
  rw [← String.toByteArray_inj.mp hsame, String.toList_ofList]

theorem Quotes.decode {literal : List Char} {text : String} (h : Quotes literal text) :
    Literal.decode literal = .ok text.toList := by
  obtain ⟨elements, rfl, htext, hwhole⟩ := h
  rw [decode_ofElements, map_char_of_bytes htext hwhole]

theorem exists_element (c : Char) :
    ∃ e : Element, e.text = escaped c ∧ e.char = c ∧ e.givesPart = false := by
  rcases escaped_cases c with ⟨d, hc, -, hescape⟩ | ⟨hc, hquote, hbackslash, hbreak, -⟩
  · have hmem : (d, c) ∈ marks := by
      unfold escaped at hc
      split_ifs at hc <;> cases hc <;> simp [marks, *]
    exact ⟨.mark d c hmem, hc.symm, rfl, rfl⟩
  · exact ⟨.plain c ⟨hquote, hbackslash, hbreak⟩, hc.symm, rfl, rfl⟩

/-- The interpreted literal that a text is written as stands for the text. -/
theorem quotes_quote (text : String) : Quotes (quote text.toList) text := by
  choose element htext hchar hwhole using exists_element
  have hmap : (text.toList.map element).map Element.char = text.toList := by
    rw [List.map_map]
    exact List.map_id'' hchar text.toList
  have hall : ∀ e ∈ text.toList.map element, e.givesPart = false := by
    simp [hwhole]
  refine ⟨text.toList.map element, ?_, ?_, hall⟩
  · rw [quote, ofElements, List.flatMap_map, List.flatMap_congr fun c _ => htext c]
    rfl
  · have hbytes := toUTF8_ofList_iff.mpr hall
    rwa [hmap, String.ofList_toList] at hbytes

end Literal

open Literal (Element Quotes ofElements)
open Text (Digit)

theorem valueReach_digits {base : Nat} (hbase : base ≤ 16) (ds : List (Digit base)) (n : Nat)
    (cs : List Char) : valueReach n (ds.map Digit.char ++ cs) = valueReach (n + ds.length) cs := by
  induction ds generalizing n with
  | nil => rfl
  | cons d ds ih =>
      rw [List.map_cons, List.cons_append, valueReach_plain (d.char_ne hbase (by decide))
        (d.char_ne hbase (by decide)), ih, List.length_cons, Nat.add_right_comm, Nat.add_assoc]

/-- No element ends a value. -/
theorem valueReach_element (e : Element) (n : Nat) (cs : List Char) :
    valueReach n (e.text ++ cs) = valueReach (n + e.text.length) cs := by
  have hletter : ∀ (d : Char) {base : Nat} (ds : List (Digit base)), base ≤ 16 →
      valueReach n ('\\' :: d :: (ds.map Digit.char ++ cs)) =
        valueReach (n + ('\\' :: d :: ds.map Digit.char).length) cs := by
    intro d base ds hbase
    rw [valueReach, valueReach_digits hbase, List.length_cons, List.length_cons, List.length_map]
    congr 1
    omega
  cases e with
  | plain c h => exact valueReach_plain h.1 h.2.1 n cs
  | mark => rfl
  | hexByte ds | shortCode ds | longCode ds => exact hletter _ ds (by decide)
  | octalByte ds h =>
      obtain ⟨d, ds, rfl⟩ := List.exists_cons_of_length_eq_add_one h
      exact hletter _ ds (by decide)

theorem valueReach_elements (elements : List Element) (n : Nat) (rest : List Char) :
    valueReach n (elements.flatMap Element.text ++ '"' :: rest) =
      some (n + (elements.flatMap Element.text).length + 1) := by
  induction elements generalizing n with
  | nil => rfl
  | cons e elements ih =>
      rw [List.flatMap_cons, List.append_assoc, valueReach_element, ih, List.length_append,
        Nat.add_assoc n]

variable {key value : String} {written literal : List Char}

theorem find?_quotes (h : IsKey key) (hwritten : Quotes written value) :
    find? key.toList (key.toList ++ ':' :: written) = .ok (some value.toList) := by
  have hdecode := hwritten.decode
  obtain ⟨elements, rfl, -, -⟩ := hwritten
  have hreach := valueReach_elements elements 0 []
  rw [Nat.zero_add] at hreach
  exact (find?_value h hreach hdecode key).trans (if_pos rfl)

/-- Nothing is found with a key in which a character stands that ends one. -/
theorem find?_of_not_isKeyChar {key : List Char} {c : Char} (hc : c ∈ key)
    (hkey : isKeyChar c = false) (tag : List Char) : find? key tag = .ok none := by
  have hne (cs : List Char) : cs.takeWhile isKeyChar ≠ key := by
    rintro rfl
    rw [List.mem_takeWhile_imp hc] at hkey
    cases hkey
  fun_induction find? key tag with
  | case1 | case3 | case7 => rfl
  | case2 _ _ _ _ _ _ _ hname | case4 _ _ _ _ _ _ _ _ hname | case5 _ _ _ _ _ _ _ _ hname =>
      exact absurd hname (hne _)
  | case6 =>
      rename_i ih
      exact ih

/-- The look-up finds every value that is written for the key, however the value and the tag are
written. -/
def FindsKey (key : String) : Prop :=
  ∀ (value : String) (written : List Char) (literal : String), Quotes written value →
    Quotes literal.toList (key ++ ":" ++ String.ofList written) → valueOf literal key = .ok value

theorem findsKey_of_isKey (h : IsKey key) : FindsKey key := by
  intro value written literal hwritten hliteral
  have hbody : (key ++ ":" ++ String.ofList written).toList = key.toList ++ ':' :: written := by
    simp
  rw [valueOf, hliteral.decode, hbody]
  dsimp only
  rw [find?_quotes h hwritten]
  simp

theorem valueOf_of_not_isKeyChar {c : Char} (hc : c ∈ key.toList) (hkey : isKeyChar c = false)
    (literal value : String) : valueOf literal key ≠ .ok value := by
  unfold valueOf
  split
  · exact nofun
  · rw [find?_of_not_isKeyChar hc hkey]
    exact nofun

theorem not_findsKey (h : ∀ literal value, valueOf literal key ≠ .ok value) : ¬ FindsKey key := by
  intro hfinds
  let tag := key ++ ":" ++ String.ofList (Literal.quote [])
  have hliteral : Quotes (String.ofList (Literal.quote tag.toList)).toList tag := by
    rw [String.toList_ofList]
    exact Literal.quotes_quote tag
  exact h _ _ (hfinds "" _ _ (Literal.quotes_quote "") hliteral)

end Tag

namespace Ruleset

open Tag.Literal (Quotes)

/-- The key of an accepted ruleset is found wherever a value is written for it, exactly if it holds
no control character; any other is found nowhere. -/
theorem findsKey_iff {json : String} {r : Ruleset} (h : ofText json = .ok r) :
    (Tag.FindsKey r.tagKey ↔ ∀ c ∈ r.tagKey.toList, ' ' ≤ c ∧ c ≠ '\x7f') ∧
      (¬ Tag.FindsKey r.tagKey → ∀ literal value, Tag.valueOf literal r.tagKey ≠ .ok value) := by
  obtain ⟨hne, hchars, -⟩ := isValid_of_ofText h
  by_cases hkey : ∀ c ∈ r.tagKey.toList, ' ' ≤ c ∧ c ≠ '\x7f'
  · have hfinds : Tag.FindsKey r.tagKey := Tag.findsKey_of_isKey ⟨hne, fun c hc => by
      obtain ⟨hspace, hcolon, hquote⟩ := hchars c hc
      exact ⟨Std.lt_of_le_of_ne (hkey c hc).1 hspace.symm, hcolon, hquote, (hkey c hc).2⟩⟩
    exact ⟨iff_of_true hfinds hkey, fun hnot => absurd hfinds hnot⟩
  · obtain ⟨c, hc, hcontrol⟩ : ∃ c ∈ r.tagKey.toList, Tag.isKeyChar c = false := by
      simp only [not_forall] at hkey
      obtain ⟨c, hc, hcontrol⟩ := hkey
      refine ⟨c, hc, eq_false_of_ne_true fun hchar => hcontrol ?_⟩
      simp only [Tag.isKeyChar, Bool.and_eq_true, decide_eq_true_eq, bne_iff_ne] at hchar
      exact ⟨Std.le_of_lt hchar.1.1.1, hchar.2⟩
    have hnone := Tag.valueOf_of_not_isKeyChar hc hcontrol
    exact ⟨iff_of_false (Tag.not_findsKey hnone) hkey, fun _ => hnone⟩

/-- A key need not be of ASCII characters. -/
theorem findsKey_iff_accent :
    ofText "\x7b\"tag_key\": \"é\"\x7d" = .ok { current with tagKey := "é" } ∧
      (Tag.FindsKey "é" ↔ ∀ c ∈ "é".toList, ' ' ≤ c ∧ c ≠ '\x7f') ∧
      (¬ Tag.FindsKey "é" → ∀ literal value, Tag.valueOf literal "é" ≠ .ok value) ∧
      Tag.FindsKey "é" := by
  have h : ofText "\x7b\"tag_key\": \"é\"\x7d" = .ok { current with tagKey := "é" } :=
    eq_ok_of_toOption (by decide +kernel)
  obtain ⟨hfinds, hnone⟩ := findsKey_iff h
  exact ⟨h, hfinds, hnone, hfinds.mpr (by simp)⟩

/-- A ruleset is accepted with a tabulator as its key, for which no value is found. -/
theorem not_findsKey_tab :
    ofText "\x7b\"tag_key\": \"\\t\"\x7d" = .ok { current with tagKey := "\t" } ∧
      Quotes "\"x\"".toList "x" ∧ Quotes "\"\\t:\\\"x\\\"\"".toList "\t:\"x\"" ∧
      Tag.valueOf "\"\\t:\\\"x\\\"\"" "\t" ≠ .ok "x" ∧ ¬ Tag.FindsKey "\t" := by
  have hnone : ∀ literal value, Tag.valueOf literal "\t" ≠ .ok value :=
    Tag.valueOf_of_not_isKeyChar (c := '\t') (by decide) (by decide)
  refine ⟨eq_ok_of_toOption (by decide +kernel), ⟨[.plain 'x' (by decide)], by decide⟩, ?_,
    hnone _ _, Tag.not_findsKey hnone⟩
  exact ⟨[.mark 't' '\t' (by decide), .plain ':' (by decide), .mark '"' '"' (by decide),
    .plain 'x' (by decide), .mark '"' '"' (by decide)], by decide⟩

end Ruleset

end DeclBridge
