import DeclBridge.Proofs.Naming.Recasing

/-!
Names that are put together from words, each with a capital at its beginning. Acronyms are found in
such a name where they are words of it, and nowhere else: of all words only SSH ends as another
acronym begins, and the word behind it does not complete that one.
-/

namespace DeclBridge

namespace Text

variable {pattern replacement cs : List Char}

theorem replaceAll_prefix (hne : pattern ≠ []) (cs : List Char) :
    replaceAll pattern replacement (pattern ++ cs) =
      replacement ++ replaceAll pattern replacement cs := by
  obtain ⟨p, ps, rfl⟩ := List.exists_cons_of_ne_nil hne
  rw [List.cons_append, replaceAll, if_pos ⟨hne, by simp⟩, List.length_cons, Nat.add_sub_cancel,
    List.drop_left]

/-- Nothing is replaced in the first part of a text if the pattern begins at none of its
characters. -/
theorem replaceAll_append {ds : List Char}
    (h : ∀ x, x ≠ [] → x <:+ cs → ¬ pattern <+: x ++ ds) :
    replaceAll pattern replacement (cs ++ ds) = cs ++ replaceAll pattern replacement ds := by
  induction cs with
  | nil => rfl
  | cons c cs ih =>
      have hfirst := h (c :: cs) (by simp) List.suffix_rfl
      have hrest := ih fun x hne hx => h x hne (hx.trans (List.suffix_cons c cs))
      rw [List.cons_append] at hfirst ⊢
      rw [replaceAll, if_neg fun hprefix => hfirst (List.isPrefixOf_iff_prefix.mp hprefix.2), hrest,
        List.cons_append]

theorem intercalate_cons (sep cs : List Char) (pieces : List (List Char)) :
    sep.intercalate (cs :: pieces) = cs ++ pieces.flatMap (sep ++ ·) := by
  induction pieces generalizing cs with
  | nil => simp
  | cons ds pieces ih =>
      rw [List.intercalate_cons_cons, ih, List.flatMap_cons, List.append_assoc, List.append_assoc]

end Text

namespace Naming

open Text (IsAscii replaceAll)

/-- The acronyms that are words of their own. -/
def acronymWords : List (List Char) :=
  ["ID", "URL", "HTML", "SHA", "SSH"].map String.toList

/-- Whether a word is a capital with small letters or digits behind it. -/
def isCamel : List Char → Bool
  | [] => false
  | c :: cs => c.isUpper && !cs.isEmpty && cs.all fun d => d.isLower || d.isDigit

/-- Words that can be told apart when they stand without anything between them: SSH and a word that
begins with A would make SHA. -/
structure AreWords (ws : List (List Char)) : Prop where
  word : ∀ w ∈ ws, w ∈ acronymWords ∨ isCamel w = true
  apart : ws.IsChain fun v w => ¬ (v = "SSH".toList ∧ w.head? = some 'A')

variable {a w x : List Char} {ws : List (List Char)}

theorem AreWords.tail (h : AreWords (w :: ws)) : AreWords ws :=
  ⟨fun v hv => h.word v (List.mem_cons_of_mem w hv), h.apart.tail⟩

theorem small_of_isLower_or_isDigit {d : Char} (h : (d.isLower || d.isDigit) = true) :
    d.isUpper = false ∧ d.toNat < 0x80 := by
  simp only [Char.isLower, Char.isDigit, Bool.or_eq_true, Bool.and_eq_true, decide_eq_true_eq,
    ge_iff_le, UInt32.le_iff_toNat_le] at h
  simp only [Char.isUpper, decide_eq_false_iff_not, ge_iff_le, UInt32.le_iff_toNat_le, Char.toNat]
  simp at h ⊢
  omega

theorem isCamel_cases (h : isCamel w = true) :
    ∃ c d cs, w = c :: d :: cs ∧ c.isUpper = true ∧
      ∀ e ∈ d :: cs, e.isUpper = false ∧ e.toNat < 0x80 := by
  match w with
  | [c] => simp [isCamel] at h
  | c :: d :: cs =>
      simp only [isCamel, Bool.and_eq_true, List.all_eq_true] at h
      exact ⟨c, d, cs, rfl, h.1.1, fun e he => small_of_isLower_or_isDigit (h.2 e he)⟩

theorem acronymWords_cases (h : a ∈ acronymWords) :
    ∃ p q ps, a = p :: q :: ps ∧ p.isUpper = true ∧ q.isUpper = true := by
  simp only [acronymWords, List.map_cons, List.map_nil, List.mem_cons, List.not_mem_nil, or_false] at h
  rcases h with rfl | rfl | rfl | rfl | rfl <;> exact ⟨_, _, _, rfl, rfl, rfl⟩

theorem ne_nil_of_word (h : w ∈ acronymWords ∨ isCamel w = true) : w ≠ [] := by
  rcases h with h | h
  · obtain ⟨p, q, ps, rfl, -, -⟩ := acronymWords_cases h
    simp
  · obtain ⟨c, d, cs, rfl, -, -⟩ := isCamel_cases h
    simp

/-- No acronym begins inside of a word that is not one. -/
theorem not_prefix_of_isCamel (ha : a ∈ acronymWords) (hw : isCamel w = true) (hne : x ≠ [])
    (hx : x <:+ w) (ds : List Char) : ¬ a <+: x ++ ds := by
  obtain ⟨p, q, ps, rfl, hp, hq⟩ := acronymWords_cases ha
  obtain ⟨c, d, cs, rfl, -, hsmall⟩ := isCamel_cases hw
  intro hprefix
  rcases List.suffix_cons_iff.mp hx with rfl | hx
  · obtain ⟨-, hprefix⟩ := List.cons_prefix_cons.mp hprefix
    obtain ⟨rfl, -⟩ := List.cons_prefix_cons.mp hprefix
    have hcase := (hsmall q (by simp)).1
    simp [hq] at hcase
  · obtain ⟨e, es, rfl⟩ := List.exists_cons_of_ne_nil hne
    obtain ⟨rfl, -⟩ := List.cons_prefix_cons.mp hprefix
    have hcase := (hsmall p (hx.subset (by simp))).1
    simp [hp] at hcase

/-- An acronym that begins inside of another one ends outside of it: the two are SSH and SHA, or SSH
and HTML. -/
theorem acronymWords_overlap : ∀ w ∈ acronymWords, ∀ a ∈ acronymWords, w ≠ a →
    ∀ x ∈ w.tails, x ≠ [] → ¬ a <+: x ∧ (x <+: a →
      w = "SSH".toList ∧ (a = x ++ ['A'] ∨ a = x ++ ['T', 'M', 'L'])) := by
  decide +kernel

theorem prefix_append_cases {ds : List Char} (h : a <+: x ++ ds) :
    a <+: x ∨ ∃ y, a = x ++ y ∧ y <+: ds := by
  obtain ⟨t, ht⟩ := h
  rcases List.append_eq_append_iff.mp ht with ⟨y, rfl, -⟩ | ⟨y, rfl, rfl⟩
  · exact .inl (List.prefix_append a y)
  · exact .inr ⟨y, rfl, List.prefix_append y t⟩

/-- No acronym begins inside of another one that is a word. -/
theorem not_prefix_of_acronymWords (ha : a ∈ acronymWords) (hws : AreWords (w :: ws))
    (hw : w ∈ acronymWords) (hwa : w ≠ a) (hne : x ≠ []) (hx : x <:+ w) :
    ¬ a <+: x ++ ws.flatten := by
  obtain ⟨hinside, houtside⟩ := acronymWords_overlap w hw a ha hwa x ((List.mem_tails x w).mpr hx) hne
  intro hprefix
  rcases prefix_append_cases hprefix with hprefix | ⟨y, rfl, hy⟩
  · exact hinside hprefix
  · obtain ⟨hssh, hend⟩ := houtside (List.prefix_append x y)
    rw [List.append_cancel_left_eq, List.append_cancel_left_eq] at hend
    cases ws with
    | nil => rcases hend with rfl | rfl <;> simp at hy
    | cons v vs =>
        have hv := hws.word v (by simp)
        rw [List.flatten_cons] at hy
        rcases hend with rfl | rfl
        · -- The next word begins with A.
          obtain ⟨c, cs, rfl⟩ := List.exists_cons_of_ne_nil (ne_nil_of_word hv)
          obtain ⟨rfl, -⟩ := List.cons_prefix_cons.mp hy
          exact (List.isChain_cons_cons.mp hws.apart).1 ⟨hssh, rfl⟩
        · -- The next word begins with TM.
          rcases hv with hv | hv
          · have htm : ∀ v ∈ acronymWords, v.head? ≠ some 'T' := by decide +kernel
            obtain ⟨p, q, ps, rfl, -, -⟩ := acronymWords_cases hv
            obtain ⟨rfl, -⟩ := List.cons_prefix_cons.mp hy
            exact htm _ hv rfl
          · obtain ⟨c, d, cs, rfl, -, hsmall⟩ := isCamel_cases hv
            obtain ⟨-, hy⟩ := List.cons_prefix_cons.mp hy
            obtain ⟨rfl, -⟩ := List.cons_prefix_cons.mp hy
            exact absurd (hsmall 'M' (by simp)).1 (by decide)

/-- The word in title case, if it is one of the acronyms. -/
def retitle (acronyms : List (List Char)) (w : List Char) : List Char :=
  if w ∈ acronyms then titleCase w else w

theorem retitle_self (a : List Char) : retitle [a] a = titleCase a := by
  simp [retitle]

theorem retitle_of_ne (h : w ≠ a) : retitle [a] w = w := by
  simp [retitle, h]

theorem isCamel_titleCase (h : a ∈ acronymWords) : isCamel (titleCase a) = true := by
  have hall : ∀ a ∈ acronymWords, isCamel (titleCase a) = true := by decide +kernel
  exact hall a h

theorem head?_titleCase (h : a ∈ acronymWords) : (titleCase a).head? = a.head? := by
  have hall : ∀ a ∈ acronymWords, (titleCase a).head? = a.head? := by decide +kernel
  exact hall a h

theorem not_mem_acronymWords_of_isCamel (h : isCamel w = true) : w ∉ acronymWords := by
  have hall : ∀ a ∈ acronymWords, isCamel a = false := by decide +kernel
  intro hw
  simp [hall w hw] at h

/-- An acronym is brought to title case where it is a word, and nowhere else. -/
theorem replaceAll_flatten (ha : a ∈ acronymWords) (hws : AreWords ws) :
    replaceAll a (titleCase a) ws.flatten = (ws.map (retitle [a])).flatten := by
  induction ws with
  | nil => simp [replaceAll]
  | cons w ws ih =>
      rw [List.flatten_cons, List.map_cons, List.flatten_cons, ← ih hws.tail]
      by_cases hw : w = a
      · rw [hw, retitle_self]
        exact Text.replaceAll_prefix (ne_nil_of_word (.inl ha)) _
      · rw [retitle_of_ne hw]
        apply Text.replaceAll_append
        intro x hne hx
        rcases hws.word w (by simp) with hword | hword
        · exact not_prefix_of_acronymWords ha hws hword hw hne hx
        · exact not_prefix_of_isCamel ha hword hne hx _

theorem AreWords.map_retitle (ha : a ∈ acronymWords) (hws : AreWords ws) :
    AreWords (ws.map (retitle [a])) := by
  have hcamel := isCamel_titleCase ha
  have hhead (w : List Char) : (retitle [a] w).head? = w.head? := by
    by_cases hw : w = a
    · rw [hw, retitle_self, head?_titleCase ha]
    · rw [retitle_of_ne hw]
  constructor
  · intro v hv
    obtain ⟨w, hw, rfl⟩ := List.mem_map.mp hv
    by_cases hwa : w = a
    · rw [hwa, retitle_self]
      exact .inr hcamel
    · rw [retitle_of_ne hwa]
      exact hws.word w hw
  · rw [List.isChain_map]
    apply hws.apart.imp
    rintro v w hapart ⟨hv, hw⟩
    rw [hhead] at hw
    refine hapart ⟨?_, hw⟩
    by_cases hva : v = a
    · -- An acronym in title case is not SSH.
      rw [hva, retitle_self] at hv
      exact absurd (hv ▸ by decide) (not_mem_acronymWords_of_isCamel hcamel)
    · rwa [retitle_of_ne hva] at hv

theorem retitle_retitle (ha : a ∈ acronymWords) {acronyms : List (List Char)}
    (h : acronyms ⊆ acronymWords) (w : List Char) :
    retitle acronyms (retitle [a] w) = retitle (a :: acronyms) w := by
  have hnot : titleCase a ∉ acronyms :=
    fun hmem => not_mem_acronymWords_of_isCamel (isCamel_titleCase ha) (h hmem)
  by_cases hw : w = a
  · simp [retitle, hw, hnot]
  · simp [retitle, hw]

/-- The acronyms of a table are brought to title case one after the other, each where it is a
word. -/
theorem normalizeAcronyms_flatten {acronyms : List String}
    (hacronyms : acronyms.map String.toList ⊆ acronymWords) (hws : AreWords ws) :
    normalizeAcronyms acronyms ws.flatten =
      (ws.map (retitle (acronyms.map String.toList))).flatten := by
  induction acronyms generalizing ws with
  | nil =>
      have hid : ws.map (retitle []) = ws := List.map_id'' (fun w => by simp [retitle]) ws
      rw [List.map_nil, hid]
      rfl
  | cons a acronyms ih =>
      rw [List.map_cons, List.cons_subset] at hacronyms
      obtain ⟨ha, hacronyms⟩ := hacronyms
      rw [normalizeAcronyms, List.foldl_cons, replaceAll_flatten ha hws]
      apply (ih hacronyms (hws.map_retitle ha)).trans
      rw [List.map_map, List.map_cons]
      congr 1
      exact List.map_congr_left fun w _ => retitle_retitle ha hacronyms w

theorem map_toLower_retitle {acronyms : List (List Char)} (h : acronyms ⊆ acronymWords)
    (w : List Char) : (retitle acronyms w).map Char.toLower = w.map Char.toLower := by
  have hascii : ∀ a ∈ acronymWords, IsAscii a := by decide +kernel
  rw [retitle]
  split
  · next hw => exact map_toLower_titleCase (hascii w (h hw))
  · rfl

theorem isCamel_retitle (hw : w ∈ acronymWords ∨ isCamel w = true) :
    isCamel (retitle acronymWords w) = true := by
  rw [retitle]
  split
  · next hmem => exact isCamel_titleCase hmem
  · next hmem => exact hw.resolve_left hmem

theorem underscore_not_mem_flatten (hws : AreWords ws) : '_' ∉ ws.flatten := by
  have hacronyms : ∀ a ∈ acronymWords, '_' ∉ a := by decide +kernel
  rw [List.mem_flatten]
  rintro ⟨w, hw, hmem⟩
  rcases hws.word w hw with hw | hw
  · exact hacronyms w hw hmem
  · cases w with
    | nil => cases hmem
    | cons c cs =>
        simp only [isCamel, Bool.and_eq_true, List.all_eq_true] at hw
        rcases List.mem_cons.mp hmem with rfl | hmem
        · exact absurd hw.1.1 (by decide)
        · exact absurd (hw.2 '_' hmem) (by decide)

theorem isAscii_of_isCamel (h : isCamel w = true) : IsAscii w := by
  obtain ⟨c, d, cs, rfl, hc, hsmall⟩ := isCamel_cases h
  refine List.forall_mem_cons.mpr ⟨?_, fun e he => (hsmall e he).2⟩
  exact Text.toNat_lt_of_isUpper hc

theorem flatMap_snakeChar_of_not_isUpper {cs : List Char} (h : ∀ c ∈ cs, c.isUpper = false) :
    cs.flatMap snakeChar = cs.map Char.toLower := by
  rw [List.map_eq_flatMap]
  exact List.flatMap_congr fun c hc => by simp [snakeChar, h c hc]

theorem flatMap_snakeChar_of_isCamel (h : isCamel w = true) :
    w.flatMap snakeChar = '_' :: w.map Char.toLower := by
  obtain ⟨c, d, cs, rfl, hc, hsmall⟩ := isCamel_cases h
  rw [List.flatMap_cons, flatMap_snakeChar_of_not_isUpper fun e he => (hsmall e he).1, snakeChar,
    if_pos hc]
  rfl

theorem snakeCase_of_isCamel (hw : isCamel w = true) (hws : ∀ v ∈ ws, isCamel v = true) :
    snakeCase (w ++ ws.flatten) =
      w.map Char.toLower ++ ws.flatMap fun v => '_' :: v.map Char.toLower := by
  have hascii : IsAscii (w ++ ws.flatten) := by
    intro c hc
    rcases List.mem_append.mp hc with hc | hc
    · exact isAscii_of_isCamel hw c hc
    · obtain ⟨v, hv, hc⟩ := List.mem_flatten.mp hc
      exact isAscii_of_isCamel (hws v hv) c hc
  have hrest : ws.flatten.flatMap snakeChar = ws.flatMap fun v => '_' :: v.map Char.toLower := by
    rw [← List.flatMap_id, List.flatMap_assoc]
    exact List.flatMap_congr fun v hv => flatMap_snakeChar_of_isCamel (hws v hv)
  obtain ⟨c, d, cs, rfl, -, hsmall⟩ := isCamel_cases hw
  rw [List.cons_append] at hascii ⊢
  rw [snakeCase_ascii hascii, List.flatMap_append, hrest,
    flatMap_snakeChar_of_not_isUpper fun e he => (hsmall e he).1]
  rfl

/-- Snake case joins words by underscores. -/
theorem snakeCase_flatten (hws : ∀ w ∈ ws, isCamel w = true) :
    snakeCase ws.flatten = ['_'].intercalate (ws.map (·.map Char.toLower)) := by
  cases ws with
  | nil => rfl
  | cons w ws =>
      obtain ⟨hw, hrest⟩ := List.forall_mem_cons.mp hws
      rw [List.flatten_cons, snakeCase_of_isCamel hw hrest, List.map_cons, Text.intercalate_cons,
        List.flatMap_map]
      rfl

end Naming

namespace Ruleset

open Naming (AreWords acronymWords isCamel retitle)

/-- Names under the current ruleset are in snake case, and keywords are marked as raw. -/
theorem fieldName_current (name : String) :
    current.fieldName name = if current.snakeName name ∈ keywords
      then "r#" ++ current.snakeName name else current.snakeName name := by
  have htable : ∀ word ∈ keywords, current.overrides.get? word = some ("r#" ++ word) := by
    decide +kernel
  cases hget : current.overrides.get? name with
  | some replacement =>
      obtain ⟨word, hword, hraw, hname⟩ := mem_overrides (p := .current) (Overrides.mem_of_get? hget)
      have hsnake : current.snakeName name = word := snakeName_keyword (p := .current) hword hname
      rw [fieldName_of_get? hget, hsnake, if_pos hword]
      exact hraw
  | none =>
      rw [fieldName_of_get?_none hget]
      split
      · next hsnake => rw [htable _ hsnake, Option.getD_some]
      · next hsnake =>
          cases hreplaced : current.overrides.get? (current.snakeName name) with
          | none => rfl
          | some replacement =>
              obtain ⟨word, hword, -, hname⟩ :=
                mem_overrides (p := .current) (Overrides.mem_of_get? hreplaced)
              -- A name in snake case is no capitalized keyword.
              have heq := hname.resolve_right (snakeName_ne_capitalized hword)
              rw [← heq] at hword
              exact absurd hword hsnake

/-- Words are told apart in a name, acronyms as well as others. -/
theorem snakeName_join {words : List String} (hwords : AreWords (words.map String.toList)) :
    current.snakeName (String.join words) = "_".intercalate (words.map String.toLower) := by
  have hcamel : ∀ v ∈ (words.map String.toList).map (retitle acronymWords), isCamel v = true := by
    intro v hv
    obtain ⟨w, hw, rfl⟩ := List.mem_map.mp hv
    exact Naming.isCamel_retitle (hwords.word w hw)
  have hbare : (String.join words).toList.filter (· != '_') = (words.map String.toList).flatten := by
    rw [String.toList_join, List.flatMap_def]
    exact List.filter_bne_eq_self_of_not_mem (Naming.underscore_not_mem_flatten hwords)
  have hnormalized : Naming.normalizeAcronyms current.acronyms (words.map String.toList).flatten =
      ((words.map String.toList).map (retitle acronymWords)).flatten :=
    Naming.normalizeAcronyms_flatten (List.Subset.refl acronymWords) hwords
  apply String.toList_injective
  rw [snakeName, hbare, String.toList_ofList, hnormalized, Naming.snakeCase_flatten hcamel,
    String.toList_intercalate, List.map_map, List.map_map, List.map_map]
  congr 1
  apply List.map_congr_left
  intro w _
  exact (Naming.map_toLower_retitle (List.Subset.refl acronymWords) w.toList).trans String.toList_map.symm

/-- The name of a field that is put together from words is the words in small letters, joined by
underscores, and marked as raw if it is a keyword. -/
theorem fieldName_words {words : List String}
    (hwords : ∀ w ∈ words, w ∈ ["ID", "URL", "HTML", "SHA", "SSH"] ∨ isCamel w.toList = true)
    (hapart : words.IsChain fun v w => ¬ (v = "SSH" ∧ w.toList.head? = some 'A')) :
    current.fieldName (String.join words) =
      let text := "_".intercalate (words.map String.toLower)
      if text ∈ keywords then "r#" ++ text else text := by
  have hwords : AreWords (words.map String.toList) := by
    constructor
    · intro v hv
      obtain ⟨w, hw, rfl⟩ := List.mem_map.mp hv
      exact (hwords w hw).imp_left List.mem_map_of_mem
    · rw [List.isChain_map]
      apply hapart.imp
      rintro v w hvw ⟨hv, hw⟩
      exact hvw ⟨String.toList_injective hv, hw⟩
  rw [fieldName_current, snakeName_join hwords]

theorem fieldName_words_acronyms :
    current.fieldName (String.join ["Git", "SSH", "URL"]) = "git_ssh_url" := by
  rw [@fieldName_words ["Git", "SSH", "URL"] (by decide) (by decide)]
  decide +kernel

end Ruleset

end DeclBridge
