import DeclBridge.Proofs.Text.Split
import DeclBridge.Tag.Basic

/-!
Tags written from keys and values. The look-up of a key in a written tag gives the first value that
was written for the key, whatever the values hold, and the value tells its entries.
-/

namespace DeclBridge

namespace Tag

namespace Literal

/-- A character as it is written between quotes. -/
def escaped (c : Char) : List Char :=
  if c = '"' then ['\\', '"']
  else if c = '\\' then ['\\', '\\']
  else if c = '\n' then ['\\', 'n']
  else if c = '\r' then ['\\', 'r']
  else [c]

/-- The interpreted literal that a text is written as. -/
def quote (text : List Char) : List Char :=
  '"' :: text.flatMap escaped ++ ['"']

/-- A character is written with a backslash, which the escape undoes, or as it is. -/
theorem escaped_cases (c : Char) :
    (∃ d, escaped c = ['\\', d] ∧ d ≠ '\r' ∧ ∀ cs, escape (d :: cs) = .ok (c, cs)) ∨
      escaped c = [c] ∧ c ≠ '"' ∧ c ≠ '\\' ∧ c ≠ '\n' ∧ c ≠ '\r' := by
  unfold escaped
  split
  · next hc => exact .inl ⟨'"', rfl, by decide, fun cs => by rw [hc]; rfl⟩
  split
  · next hc => exact .inl ⟨'\\', rfl, by decide, fun cs => by rw [hc]; rfl⟩
  split
  · next hc => exact .inl ⟨'n', rfl, by decide, fun cs => by rw [hc]; rfl⟩
  split
  · next hc => exact .inl ⟨'r', rfl, by decide, fun cs => by rw [hc]; rfl⟩
  · next hquote hbackslash hnewline hreturn =>
      exact .inr ⟨rfl, hquote, hbackslash, hnewline, hreturn⟩

theorem decodeBody_escape {c : Char} {cs rest : List Char} (h : escape cs = .ok (c, rest)) :
    decodeBody ('\\' :: cs) = (decodeBody rest).map (c :: ·) := by
  rw [decodeBody, if_neg (by decide), if_neg (by decide), if_pos rfl]
  split
  · next heq =>
      obtain ⟨rfl, rfl⟩ := Prod.mk.inj (Except.ok.inj (h.symm.trans heq))
      cases decodeBody rest <;> rfl
  · next heq => cases heq.symm.trans h

theorem decodeBody_plain {c : Char} (hquote : c ≠ '"') (hbackslash : c ≠ '\\')
    (hnewline : c ≠ '\n') (cs : List Char) :
    decodeBody (c :: cs) = (decodeBody cs).map (c :: ·) := by
  rw [decodeBody, if_neg hquote, if_neg hnewline, if_neg hbackslash]
  cases decodeBody cs <;> rfl

theorem decodeBody_escaped (text : List Char) :
    decodeBody (text.flatMap escaped) = .ok text := by
  induction text with
  | nil => rw [List.flatMap_nil, decodeBody]; rfl
  | cons c text ih =>
      rw [List.flatMap_cons]
      rcases escaped_cases c with ⟨d, hc, -, hescape⟩ | ⟨hc, hquote, hbackslash, hnewline, -⟩
      · rw [hc, List.cons_append, List.cons_append, List.nil_append,
          decodeBody_escape (hescape _), ih]
        rfl
      · rw [hc, List.singleton_append, decodeBody_plain hquote hbackslash hnewline, ih]
        rfl

theorem decode_quote (text : List Char) : decode (quote text) = .ok text := by
  have hquote : quote text = '"' :: (text.flatMap escaped ++ ['"']) := rfl
  rw [hquote, decode, List.getLast?_concat, if_pos rfl, List.dropLast_concat]
  exact decodeBody_escaped text

theorem decode_raw {text : List Char} (hbacktick : '`' ∉ text) (hreturn : '\r' ∉ text) :
    decode ('`' :: text ++ ['`']) = .ok text := by
  have hkeep : text.filter (· != '\r') = text := by
    rw [List.filter_eq_self]
    intro c hc
    rw [bne_iff_ne]
    rintro rfl
    exact hreturn hc
  rw [List.cons_append, decode, List.getLast?_concat, if_pos rfl, List.dropLast_concat,
    if_neg (by simpa using hbacktick), hkeep]
  rfl

end Literal

open Literal (escaped quote)

/-- A key of a tag: not empty, and without blanks and other controls, colons and quotes. -/
structure IsKey (key : String) : Prop where
  nonempty : key ≠ ""
  chars : ∀ c ∈ key.toList, ' ' < c ∧ c ≠ ':' ∧ c ≠ '"' ∧ c ≠ '\x7f'

/-- A key and a value as they are written. -/
def writePair (pair : String × String) : List Char :=
  pair.1.toList ++ ':' :: quote pair.2.toList

/-- The text of a tag that gives a value for each of several keys. -/
def write (pairs : List (String × String)) : List Char :=
  [' '].intercalate (pairs.map writePair)

/-- The literals of the written tag. -/
inductive Writes (pairs : List (String × String)) : String → Prop where
  | interpreted : Writes pairs (String.ofList (quote (write pairs)))
  | raw : '`' ∉ write pairs → Writes pairs (String.ofList ('`' :: write pairs ++ ['`']))

variable {key : String} {pairs : List (String × String)} {pair : String × String}

theorem IsKey.isKeyChar (h : IsKey key) : ∀ c ∈ key.toList, isKeyChar c = true := by
  intro c hc
  simpa [Tag.isKeyChar, and_assoc] using h.chars c hc

theorem valueReach_plain {c : Char} (hquote : c ≠ '"') (hbackslash : c ≠ '\\') (n : Nat)
    (cs : List Char) : valueReach n (c :: cs) = valueReach (n + 1) cs := by
  rw [valueReach]
  · simpa using hquote
  · rintro d ds rfl
    exact absurd rfl hbackslash

theorem valueReach_escaped (n : Nat) (text rest : List Char) :
    valueReach n (text.flatMap escaped ++ '"' :: rest) =
      some (n + (text.flatMap escaped).length + 1) := by
  induction text generalizing n with
  | nil => rfl
  | cons c text ih =>
      rw [List.flatMap_cons]
      rcases Literal.escaped_cases c with ⟨d, hc, -⟩ | ⟨hc, hquote, hbackslash, -⟩
      · simp only [hc, List.cons_append, List.nil_append, valueReach, ih]
        simp only [List.length_cons, Option.some.injEq]
        omega
      · rw [hc, List.singleton_append, List.cons_append, valueReach_plain hquote hbackslash, ih]
        simp only [List.length_cons, Option.some.injEq]
        omega

theorem find?_space (key cs : List Char) : find? key (' ' :: cs) = find? key cs := by
  rw [find?]
  conv => rhs; rw [find?]
  rw [List.dropWhile_cons_of_pos (by decide)]

theorem IsKey.dropWhile_space (h : IsKey key) (cs : List Char) :
    (key.toList ++ cs).dropWhile (· == ' ') = key.toList ++ cs := by
  obtain ⟨c, ds, hkey⟩ := List.exists_cons_of_ne_nil (mt String.toList_eq_nil_iff.mp h.nonempty)
  have hc : c ≠ ' ' := by
    rintro rfl
    exact absurd (h.chars ' ' (by simp [hkey])).1 (by decide)
  rw [hkey, List.cons_append, List.dropWhile_cons_of_neg (by simpa using hc)]

theorem IsKey.takeWhile_isKeyChar (h : IsKey key) (cs : List Char) :
    (key.toList ++ ':' :: cs).takeWhile Tag.isKeyChar = key.toList := by
  rw [List.takeWhile_append_of_pos h.isKeyChar, List.takeWhile_cons_of_neg (by decide),
    List.append_nil]

theorem IsKey.dropWhile_isKeyChar (h : IsKey key) (cs : List Char) :
    (key.toList ++ ':' :: cs).dropWhile Tag.isKeyChar = ':' :: cs := by
  rw [List.dropWhile_append_of_pos h.isKeyChar, List.dropWhile_cons_of_neg (by decide)]

/-- A value in front is that of the key that is looked for, or the look-up goes on behind it. -/
theorem find?_value {body value rest : List Char} (h : IsKey key)
    (hreach : valueReach 0 (body ++ '"' :: rest) = some (body.length + 1))
    (hvalue : Literal.decode ('"' :: (body ++ ['"'])) = .ok value) (sought : String) :
    find? sought.toList (key.toList ++ ':' :: '"' :: (body ++ '"' :: rest)) =
      if sought = key then .ok (some value) else find? sought.toList rest := by
  rw [find?, h.dropWhile_space, h.takeWhile_isKeyChar]
  split
  · next cs hcs =>
      rw [h.dropWhile_isKeyChar] at hcs
      obtain ⟨-, -, rfl⟩ : ':' = ':' ∧ '"' = '"' ∧ _ = cs := by simpa using hcs
      have hlength : body.length + 1 = (body ++ ['"']).length := by
        simp
      have hbody : body ++ '"' :: rest = (body ++ ['"']) ++ rest := by
        simp
      rw [if_neg (mt String.toList_eq_nil_iff.mp h.nonempty), hreach, hlength, hbody]
      dsimp only
      rw [List.take_left, List.drop_left, hvalue]
      simp only [String.toList_inj, eq_comm (a := sought)]
      rfl
  · next hno => exact absurd (h.dropWhile_isKeyChar _) (hno _)

theorem find?_pair (h : IsKey pair.1) (key : String) (rest : List Char) :
    find? key.toList (writePair pair ++ rest) =
      if key = pair.1 then .ok (some pair.2.toList) else find? key.toList rest := by
  have htext : writePair pair ++ rest =
      pair.1.toList ++ ':' :: '"' :: (pair.2.toList.flatMap escaped ++ '"' :: rest) := by
    simp [writePair, quote]
  have hreach := valueReach_escaped 0 pair.2.toList rest
  rw [Nat.zero_add] at hreach
  rw [htext]
  exact find?_value h hreach (Literal.decode_quote pair.2.toList) key

theorem find?_write (h : ∀ pair ∈ pairs, IsKey pair.1) (key : String) :
    find? key.toList (write pairs) = .ok ((pairs.lookup key).map String.toList) := by
  induction pairs with
  | nil =>
      have hnil : write [] = [] := rfl
      rw [hnil, find?]
      rfl
  | cons pair pairs ih =>
      have hrest := ih fun p hp => h p (List.mem_cons_of_mem _ hp)
      have hpair := find?_pair (h pair (by simp)) key
      have hlookup : (pair :: pairs).lookup key =
          if key = pair.1 then some pair.2 else pairs.lookup key := by
        rw [List.lookup_cons]
        by_cases hkey : key = pair.1
        · simp [hkey]
        · rw [beq_false_of_ne hkey, if_neg hkey]
      have hbehind : find? key.toList (write (pair :: pairs)) =
          if key = pair.1 then .ok (some pair.2.toList) else find? key.toList (write pairs) := by
        cases pairs with
        | nil => simpa [write] using hpair []
        | cons next pairs =>
            rw [write, List.map_cons, List.map_cons, List.intercalate_cons_cons, List.append_assoc,
              hpair, List.singleton_append, find?_space]
            rfl
      rw [hbehind, hlookup, hrest]
      split <;> rfl

theorem return_not_mem_quote (text : List Char) : '\r' ∉ quote text := by
  intro hmem
  have hbody : '\r' ∈ text.flatMap escaped := by simpa [quote] using hmem
  obtain ⟨c, -, hc⟩ := List.mem_flatMap.mp hbody
  rcases Literal.escaped_cases c with ⟨d, hesc, hd, -⟩ | ⟨hesc, -, -, -, hreturn⟩
  · rw [hesc] at hc
    exact hd (by simpa [eq_comm] using hc)
  · rw [hesc] at hc
    exact hreturn (by simpa [eq_comm] using hc)

theorem return_not_mem_writePair (h : IsKey pair.1) : '\r' ∉ writePair pair := by
  intro hmem
  rcases List.mem_append.mp hmem with hkey | hvalue
  · exact absurd (h.chars _ hkey).1 (by decide)
  · exact return_not_mem_quote _ ((List.mem_cons.mp hvalue).resolve_left (by decide))

theorem return_not_mem_write (h : ∀ pair ∈ pairs, IsKey pair.1) : '\r' ∉ write pairs := by
  intro hmem
  rcases Text.mem_intercalate hmem with hsep | ⟨piece, hpiece, hin⟩
  · exact absurd hsep (by decide)
  · obtain ⟨pair, hpair, rfl⟩ := List.mem_map.mp hpiece
    exact return_not_mem_writePair (h pair hpair) hin

theorem Writes.decode {literal : String} (h : Writes pairs literal)
    (hkeys : ∀ pair ∈ pairs, IsKey pair.1) : Literal.decode literal.toList = .ok (write pairs) := by
  cases h with
  | interpreted => rw [String.toList_ofList, Literal.decode_quote]
  | raw hbacktick =>
      rw [String.toList_ofList]
      exact Literal.decode_raw hbacktick (return_not_mem_write hkeys)

end Tag

namespace TagEntry

/-- The entries of a value: the texts between its commas. -/
structure Entries (value first : String) (later : List String) : Prop where
  value : value.toList = [','].intercalate ((first :: later).map String.toList)
  comma : ∀ entry ∈ first :: later, ',' ∉ entry.toList

/-- An entry is what a value says: a dash that the field is skipped, any other value its name on
the wire, whether it is left out when empty, and the flags. -/
structure Spells (entry : TagEntry) (value : String) : Prop where
  skip : entry.skip = true ↔ value = "-"
  entries : value ≠ "-" → ∃ first later, Entries value first later ∧
    entry.name = (if first = "" then none else some first) ∧
    (entry.omitEmpty = true ↔ "omitempty" ∈ later) ∧
    entry.flags = later.filter (· ≠ "omitempty")

theorem exists_entries (value : String) : ∃ first later, Entries value first later := by
  obtain ⟨piece, pieces, -, htext, hcomma⟩ := Text.exists_split ',' value.toList
  refine ⟨String.ofList piece, pieces.map String.ofList, ?_, ?_⟩
  · simpa using htext
  · simpa using hcomma

theorem ofValue_entries {value first : String} {later : List String}
    (h : Entries value first later) (hvalue : value ≠ "-") :
    ofValue value = ⟨if first = "" then none else some first, later.contains "omitempty", false,
      later.filter (· ≠ "omitempty")⟩ := by
  have hsplit : (Text.split ',' value.toList).map String.ofList = first :: later := by
    rw [h.value, List.map_cons, Text.split_intercalate (by simpa using h.comma)]
    simp
  rw [ofValue, if_neg hvalue, hsplit]
  by_cases hfirst : first = "" <;> simp [hfirst]

theorem spells_ofValue (value : String) : Spells (ofValue value) value := by
  by_cases hvalue : value = "-"
  · subst hvalue
    exact ⟨by decide, fun hne => absurd rfl hne⟩
  · obtain ⟨first, later, hentries⟩ := exists_entries value
    rw [ofValue_entries hentries hvalue]
    exact ⟨by simpa using hvalue, fun _ => ⟨first, later, hentries, rfl, by simp, rfl⟩⟩

end TagEntry

namespace Tag

/-- The look-up undoes the writing: it finds the first value that was written for the key, and
there is no other way to find none. -/
theorem valueOf_writes {pairs : List (String × String)} {literal : String}
    (hkeys : ∀ pair ∈ pairs, IsKey pair.1) (h : Writes pairs literal) (key : String) :
    (pairs.lookup key = none → valueOf literal key = .error (.notFound literal) ∧
      TagEntry.ofTag? (some literal) key = .ok none) ∧
    (∀ value, pairs.lookup key = some value → valueOf literal key = .ok value ∧
      ∃ entry, TagEntry.ofTag? (some literal) key = .ok (some entry) ∧ entry.Spells value) := by
  constructor
  · intro hnone
    have hvalue : valueOf literal key = .error (.notFound literal) := by
      rw [valueOf, h.decode hkeys]
      dsimp only
      rw [find?_write hkeys, hnone]
      rfl
    refine ⟨hvalue, ?_⟩
    rw [TagEntry.ofTag?, hvalue]
  · intro value hsome
    have hvalue : valueOf literal key = .ok value := by
      rw [valueOf, h.decode hkeys]
      dsimp only
      rw [find?_write hkeys, hsome]
      simp
    refine ⟨hvalue, TagEntry.ofValue value, ?_, TagEntry.spells_ofValue value⟩
    rw [TagEntry.ofTag?, hvalue]

/-- A value that looks like a pair is not taken for one, and the second value of a key is not
looked at. -/
theorem valueOf_writes_fakePair :
    let pairs := [("é", "a json:\"b\" \\\n"), ("json", "näme,,omitempty,string"), ("json", "-")]
    let literal := "`é:\"a json:\\\"b\\\" \\\\\\n\" json:\"näme,,omitempty,string\" json:\"-\"`"
    Writes pairs literal ∧ valueOf literal "json" = .ok "näme,,omitempty,string" ∧
      (∃ entry, TagEntry.ofTag? (some literal) "json" = .ok (some entry) ∧
        entry.Spells "näme,,omitempty,string" ∧
        entry = ⟨some "näme", true, false, ["", "string"]⟩) ∧
      valueOf literal "xml" = .error (.notFound literal) ∧
      TagEntry.ofTag? (some literal) "xml" = .ok none := by
  intro pairs literal
  have hkeys : ∀ pair ∈ pairs, IsKey pair.1 := by
    intro pair hpair
    have hchars : pair.1 ≠ "" ∧
        pair.1.toList.all (fun c => ' ' < c ∧ c ≠ ':' ∧ c ≠ '"' ∧ c ≠ '\x7f') = true := by
      revert pair
      decide
    exact ⟨hchars.1, by simpa using hchars.2⟩
  have h : Writes pairs literal := by
    have hraw : '`' ∉ write pairs := by decide
    exact .raw hraw
  obtain ⟨hjson, entry, hentry, hspells⟩ :=
    (valueOf_writes hkeys h "json").2 "näme,,omitempty,string" (by decide)
  obtain ⟨hxml, hnone⟩ := (valueOf_writes hkeys h "xml").1 (by decide)
  refine ⟨h, hjson, ⟨entry, hentry, hspells, ?_⟩, hxml, hnone⟩
  rw [TagEntry.ofTag?, hjson] at hentry
  rw [← Option.some.inj (Except.ok.inj hentry)]
  decide

end Tag

end DeclBridge
