import DeclBridge.Json.Reader
import DeclBridge.Proofs.Json.Grammar

/-!
Reading of what is written by the grammar of JSON. Every value is read that a text stands for, with
any white space around it, up to where it ends.
-/

namespace DeclBridge.JsonValue

open Text (Digit)

/-- A reading gives a value and leaves the rest of the text. -/
def Takes {α : Type} {cs : List Char} (reading : Reading α cs) (a : α) (rest : List Char) : Prop :=
  reading.map (fun r => (r.1, r.2.1)) = some (a, rest)

theorem Takes.eq_some {α : Type} {cs : List Char} {reading : Reading α cs} {a : α}
    {rest : List Char} (h : Takes reading a rest) : ∃ hlt, reading = some (a, ⟨rest, hlt⟩) := by
  obtain ⟨⟨b, ⟨ds, hlt⟩⟩, hreading, ⟨⟩⟩ := Option.map_eq_some_iff.mp h
  exact ⟨hlt, hreading⟩

variable {ws cs ds rest : List Char} {c : Char} {codes : List Nat}

theorem isBlank_iff : isBlank c = true ↔ c ∈ [' ', '\n', '\t', '\r'] := by
  simp [isBlank, or_assoc]

theorem takes_readChar (hws : IsSpace ws) (hc : isBlank c = false) (rest : List Char) :
    Takes (readChar (ws ++ c :: rest)) c rest := by
  induction ws with
  | nil =>
      rw [List.nil_append, Takes, readChar, hc]
      rfl
  | cons b ws ih =>
      obtain ⟨_, hread⟩ := (ih fun d hd => hws d (List.mem_cons_of_mem _ hd)).eq_some
      rw [List.cons_append, Takes, readChar, if_pos (isBlank_iff.mpr (hws b (by simp))), hread]
      rfl

/-! ### Strings -/

theorem takes_readCode {code : Nat} (h : WritesCode cs code) (rest : List Char) :
    Takes (readCode (cs ++ rest)) code rest := by
  cases h with
  | @plain c hspace hquote hbackslash =>
      rw [List.singleton_append, Takes, readCode, if_neg (Char.not_lt.mpr hspace)]
      · rfl
      all_goals
        intros
        exact hbackslash ‹_›
  | @letter letter c hmem =>
      simp only [escapes, List.mem_cons, List.not_mem_nil, or_false, Prod.mk.injEq] at hmem
      rcases hmem with ⟨rfl, rfl⟩ | ⟨rfl, rfl⟩ | ⟨rfl, rfl⟩ | ⟨rfl, rfl⟩ | ⟨rfl, rfl⟩ | ⟨rfl, rfl⟩ |
        ⟨rfl, rfl⟩ | ⟨rfl, rfl⟩ <;> rfl
  | @hex ds hlength =>
      obtain ⟨x, y, z, w, rfl⟩ : ∃ x y z w, ds = [x, y, z, w] := by
        match ds, hlength with
        | [x, y, z, w], _ => exact ⟨x, y, z, w, rfl⟩
      have hdigits : Text.digits? 16 4 0 [x.char, y.char, z.char, w.char] =
          some (Digit.number [x, y, z, w], []) :=
        (Text.digits?_zero_iff (by decide)).mpr
          ⟨[x, y, z, w], rfl, (List.append_nil _).symm, rfl⟩
      change Takes (readCode ('\\' :: 'u' :: x.char :: y.char :: z.char :: w.char :: rest)) _ _
      rw [Takes, readCode, hdigits]
      rfl

theorem head_of_writesCode {code : Nat} (h : WritesCode cs code) :
    ∃ c ds, cs = c :: ds ∧ c ≠ '"' := by
  cases h with
  | plain _ hquote _ => exact ⟨_, _, rfl, hquote⟩
  | letter | hex => exact ⟨_, _, rfl, by decide⟩

theorem takes_readString (h : WritesCodes cs codes) (rest : List Char) :
    Takes (readString (cs ++ '"' :: rest)) codes rest := by
  induction h with
  | nil =>
      rw [List.nil_append, Takes, readString]
      rfl
  | @cons cs ds code codes hcode _ ih =>
      obtain ⟨_, hread⟩ := (takes_readCode hcode (ds ++ '"' :: rest)).eq_some
      obtain ⟨_, hread'⟩ := ih.eq_some
      obtain ⟨c, es, rfl, hc⟩ := head_of_writesCode hcode
      rw [List.append_assoc, Takes, readString, hread]
      · dsimp only [Option.bind_eq_bind, Option.bind_some]
        rw [hread']
        rfl
      · rintro _ ⟨⟩
        exact hc rfl

/-! ### Numbers -/

/-- The text is empty or begins with none of the characters that satisfy `p`. -/
def Stops (p : Char → Bool) (cs : List Char) : Prop :=
  cs.head?.any p = false

theorem takeWhile_append_of_stops {p : Char → Bool} (h : ∀ c ∈ cs, p c = true) (hds : Stops p ds) :
    (cs ++ ds).takeWhile p = cs := by
  rw [List.takeWhile_append_of_pos h]
  cases ds with
  | nil => rw [List.takeWhile_nil, List.append_nil]
  | cons d ds => rw [List.takeWhile_cons_of_neg (by simpa [Stops] using hds), List.append_nil]

theorem dropWhile_append_of_stops {p : Char → Bool} (h : ∀ c ∈ cs, p c = true) (hds : Stops p ds) :
    (cs ++ ds).dropWhile p = ds := by
  rw [List.dropWhile_append_of_pos h]
  cases ds with
  | nil => rfl
  | cons d ds => rw [List.dropWhile_cons_of_neg (by simpa [Stops] using hds)]

theorem stops_of_writesExponent (h : WritesExponent cs) : Stops Char.isDigit cs := by
  cases h with
  | none => rfl
  | mark hmark _ _ =>
      simp only [List.mem_cons, List.not_mem_nil, or_false] at hmark
      rcases hmark with rfl | rfl <;> rfl

theorem isExponent_of_writes (h : WritesExponent cs) : isExponent cs = true := by
  cases h with
  | none => rfl
  | @mark mark sign cs hmark hsign hcs =>
      obtain ⟨hne, hdigits⟩ := hcs
      have hhead : sign = [] → cs.head? ≠ some '+' ∧ cs.head? ≠ some '-' := by
        rintro -
        constructor <;>
        · intro hhead
          have hdigit := hdigits _ (List.mem_of_mem_head? hhead)
          revert hdigit
          decide
      simp only [List.mem_cons, List.not_mem_nil, or_false] at hmark hsign
      have hrest : (if (sign ++ cs).head? = some '+' ∨ (sign ++ cs).head? = some '-' then
          (sign ++ cs).tail else sign ++ cs) = cs := by
        rcases hsign with rfl | rfl | rfl
        · rw [List.nil_append, if_neg (not_or.mpr (hhead rfl))]
        · rfl
        · rfl
      simp only [isExponent, hrest]
      simpa [hmark, hne] using hdigits

theorem isFraction_of_writes (h : WritesFraction cs) (hds : WritesExponent ds) :
    isFraction (cs ++ ds) = true := by
  have hexponent := isExponent_of_writes hds
  cases h with
  | none =>
      cases hds with
      | none => rfl
      | mark hmark _ _ =>
          simp only [List.mem_cons, List.not_mem_nil, or_false] at hmark
          rcases hmark with rfl | rfl <;> exact hexponent
  | @point cs hcs =>
      have hhead : (cs ++ ds).head?.any Char.isDigit = true := by
        obtain ⟨c, es, rfl⟩ := List.exists_cons_of_ne_nil hcs.1
        exact hcs.2 c (by simp)
      rw [List.cons_append, isFraction, hhead,
        dropWhile_append_of_stops hcs.2 (stops_of_writesExponent hds), hexponent]
      rfl

theorem stops_of_writesFraction (h : WritesFraction cs) (hds : WritesExponent ds) :
    Stops Char.isDigit (cs ++ ds) := by
  cases h with
  | none => exact stops_of_writesExponent hds
  | point => rfl

theorem isDigits_of_writesInteger (h : WritesInteger cs) : IsDigits cs := by
  cases h with
  | zero => exact ⟨by simp, by simp⟩
  | digits _ h => exact h

theorem isNumber_of_writes (h : WritesNumber cs) : isNumber cs = true := by
  cases h with
  | @parts sign integer fraction exponent hsign hinteger hfraction hexponent =>
      have hdigits := isDigits_of_writesInteger hinteger
      have hstops := stops_of_writesFraction hfraction hexponent
      have hunsigned : isUnsigned (integer ++ (fraction ++ exponent)) = true := by
        simp only [isUnsigned, takeWhile_append_of_stops hdigits.2 hstops,
          dropWhile_append_of_stops hdigits.2 hstops, isFraction_of_writes hfraction hexponent]
        cases hinteger with
        | zero => rfl
        | digits hzero _ => simp [hzero]
      simp only [List.mem_cons, List.not_mem_nil, or_false] at hsign
      rcases hsign with rfl | rfl
      · obtain ⟨c, es, rfl⟩ := List.exists_cons_of_ne_nil hdigits.1
        rw [List.nil_append, List.cons_append, isNumber]
        · exact hunsigned
        · rintro _ ⟨⟩
          exact absurd (hdigits.2 '-' (by simp)) (by decide)
      · exact hunsigned

theorem isNumberChar_of_isDigits (h : IsDigits cs) : ∀ c ∈ cs, isNumberChar c = true := by
  intro c hc
  rw [isNumberChar, h.2 c hc, Bool.true_or]

theorem isNumberChar_of_writes (h : WritesNumber cs) : ∀ c ∈ cs, isNumberChar c = true := by
  cases h with
  | @parts sign integer fraction exponent hsign hinteger hfraction hexponent =>
      simp only [List.forall_mem_append]
      refine ⟨?_, isNumberChar_of_isDigits (isDigits_of_writesInteger hinteger), ?_, ?_⟩
      · have hsigns : ∀ s ∈ [[], ['-']], ∀ c ∈ s, isNumberChar c = true := by simp [isNumberChar]
        exact hsigns sign hsign
      · cases hfraction with
        | none => simp
        | point hcs => exact List.forall_mem_cons.mpr ⟨by decide, isNumberChar_of_isDigits hcs⟩
      · cases hexponent with
        | none => simp
        | @mark mark sign cs hmark hsign hcs =>
            have hmarks : ∀ c ∈ ['e', 'E'], isNumberChar c = true := by simp [isNumberChar]
            have hsigns : ∀ s ∈ [[], ['+'], ['-']], ∀ c ∈ s, isNumberChar c = true := by
              simp [isNumberChar]
            exact List.forall_mem_cons.mpr ⟨hmarks mark hmark,
              List.forall_mem_append.mpr ⟨hsigns sign hsign, isNumberChar_of_isDigits hcs⟩⟩

/-! ### Values -/

section Steps

variable {es fs : List Char} {value : JsonValue} {items : List JsonValue}
  {members : List (List Nat × JsonValue)}

theorem takes_string (hquote : Takes (readChar cs) '"' ds)
    (hcodes : Takes (readString ds) codes rest) : Takes (readValue cs) (.string codes) rest := by
  obtain ⟨_, hquote⟩ := hquote.eq_some
  obtain ⟨_, hcodes⟩ := hcodes.eq_some
  rw [Takes, readValue, hquote]
  dsimp only [Option.bind_eq_bind, Option.bind_some]
  rw [hcodes]
  rfl

theorem takes_emptyArray (hopen : Takes (readChar cs) '[' ds)
    (hclose : Takes (readChar ds) ']' rest) : Takes (readValue cs) (.array []) rest := by
  obtain ⟨_, hopen⟩ := hopen.eq_some
  obtain ⟨_, hclose⟩ := hclose.eq_some
  rw [Takes, readValue, hopen]
  dsimp only [Option.bind_eq_bind, Option.bind_some]
  rw [hclose]
  rfl

theorem takes_array (hopen : Takes (readChar cs) '[' ds) (hfirst : Takes (readChar ds) c es)
    (hc : c ≠ ']') (hitems : Takes (readItems ds) items rest) :
    Takes (readValue cs) (.array items) rest := by
  obtain ⟨_, hopen⟩ := hopen.eq_some
  obtain ⟨_, hfirst⟩ := hfirst.eq_some
  obtain ⟨_, hitems⟩ := hitems.eq_some
  rw [Takes, readValue]
  simp only [hopen, hfirst, hitems, Option.bind_eq_bind, Option.bind_some]
  split
  · rename_i heq
    cases heq
    exact absurd rfl hc
  · rfl

theorem takes_emptyObject (hopen : Takes (readChar cs) '{' ds)
    (hclose : Takes (readChar ds) '}' rest) : Takes (readValue cs) (.object []) rest := by
  obtain ⟨_, hopen⟩ := hopen.eq_some
  obtain ⟨_, hclose⟩ := hclose.eq_some
  rw [Takes, readValue, hopen]
  dsimp only [Option.bind_eq_bind, Option.bind_some]
  rw [hclose]
  rfl

theorem takes_object (hopen : Takes (readChar cs) '{' ds) (hfirst : Takes (readChar ds) c es)
    (hc : c ≠ '}') (hmembers : Takes (readMembers ds) members rest) :
    Takes (readValue cs) (.object members) rest := by
  obtain ⟨_, hopen⟩ := hopen.eq_some
  obtain ⟨_, hfirst⟩ := hfirst.eq_some
  obtain ⟨_, hmembers⟩ := hmembers.eq_some
  rw [Takes, readValue]
  simp only [hopen, hfirst, hmembers, Option.bind_eq_bind, Option.bind_some]
  split
  · rename_i heq
    cases heq
    exact absurd rfl hc
  · rfl

theorem takes_lastItem (hvalue : Takes (readValue cs) value ds)
    (hclose : Takes (readChar ds) ']' rest) : Takes (readItems cs) [value] rest := by
  obtain ⟨_, hvalue⟩ := hvalue.eq_some
  obtain ⟨_, hclose⟩ := hclose.eq_some
  rw [Takes, readItems, hvalue]
  dsimp only [Option.bind_eq_bind, Option.bind_some]
  rw [hclose]
  rfl

theorem takes_item (hvalue : Takes (readValue cs) value ds) (hcomma : Takes (readChar ds) ',' es)
    (hitems : Takes (readItems es) items rest) : Takes (readItems cs) (value :: items) rest := by
  obtain ⟨_, hvalue⟩ := hvalue.eq_some
  obtain ⟨_, hcomma⟩ := hcomma.eq_some
  obtain ⟨_, hitems⟩ := hitems.eq_some
  rw [Takes, readItems]
  simp only [hvalue, hcomma, hitems, Option.bind_eq_bind, Option.bind_some]
  rfl

/-- The name of a member is read, and the colon behind it. -/
def TakesName (cs : List Char) (codes : List Nat) (rest : List Char) : Prop :=
  ∃ ds es, Takes (readChar cs) '"' ds ∧ Takes (readString ds) codes es ∧
    Takes (readChar es) ':' rest

theorem takes_lastMember (hname : TakesName cs codes ds) (hvalue : Takes (readValue ds) value es)
    (hclose : Takes (readChar es) '}' rest) : Takes (readMembers cs) [(codes, value)] rest := by
  obtain ⟨_, _, hquote, hcodes, hcolon⟩ := hname
  obtain ⟨_, hquote⟩ := hquote.eq_some
  obtain ⟨_, hcodes⟩ := hcodes.eq_some
  obtain ⟨_, hcolon⟩ := hcolon.eq_some
  obtain ⟨_, hvalue⟩ := hvalue.eq_some
  obtain ⟨_, hclose⟩ := hclose.eq_some
  rw [Takes, readMembers]
  simp only [hquote, hcodes, hcolon, hvalue, hclose, Option.bind_eq_bind, Option.bind_some, ne_eq,
    not_true_eq_false, if_false]
  rfl

theorem takes_member (hname : TakesName cs codes ds) (hvalue : Takes (readValue ds) value es)
    (hcomma : Takes (readChar es) ',' fs) (hmembers : Takes (readMembers fs) members rest) :
    Takes (readMembers cs) ((codes, value) :: members) rest := by
  obtain ⟨_, _, hquote, hcodes, hcolon⟩ := hname
  obtain ⟨_, hquote⟩ := hquote.eq_some
  obtain ⟨_, hcodes⟩ := hcodes.eq_some
  obtain ⟨_, hcolon⟩ := hcolon.eq_some
  obtain ⟨_, hvalue⟩ := hvalue.eq_some
  obtain ⟨_, hcomma⟩ := hcomma.eq_some
  obtain ⟨_, hmembers⟩ := hmembers.eq_some
  rw [Takes, readMembers]
  simp only [hquote, hcodes, hcolon, hvalue, hcomma, hmembers, Option.bind_eq_bind,
    Option.bind_some, ne_eq, not_true_eq_false, if_false]
  rfl

theorem takes_word {tail : List Char} (hfirst : Takes (readChar cs) c (tail ++ rest))
    (hword : (c, tail, value) ∈ [('n', ['u', 'l', 'l'], null), ('t', ['r', 'u', 'e'], bool true),
      ('f', ['a', 'l', 's', 'e'], bool false)]) : Takes (readValue cs) value rest := by
  obtain ⟨_, hfirst⟩ := hfirst.eq_some
  simp only [List.mem_cons, List.not_mem_nil, or_false, Prod.mk.injEq] at hword
  rcases hword with ⟨rfl, rfl, rfl⟩ | ⟨rfl, rfl, rfl⟩ | ⟨rfl, rfl, rfl⟩
  all_goals
    rw [Takes, readValue]
    simp only [hfirst, Option.bind_eq_bind, Option.bind_some]
    rfl

theorem takes_number {tail : List Char} (hfirst : Takes (readChar cs) c (tail ++ rest))
    (hnumber : WritesNumber (c :: tail)) (hrest : Stops isNumberChar rest) :
    Takes (readValue cs) (.number (String.ofList (c :: tail))) rest := by
  obtain ⟨_, hfirst⟩ := hfirst.eq_some
  have hchars := isNumberChar_of_writes hnumber
  have htail : ∀ d ∈ tail, isNumberChar d = true := fun d hd => hchars d (List.mem_cons_of_mem _ hd)
  have hother : ∀ d ∈ ['"', '[', '{', 'n', 't', 'f'], c ≠ d := by
    rintro d hd rfl
    have hnot : ∀ d ∈ ['"', '[', '{', 'n', 't', 'f'], isNumberChar d = false := by
      simp [isNumberChar]
    exact absurd (hchars c (by simp)) (by simp [hnot c hd])
  rw [Takes, readValue]
  simp only [hfirst, Option.bind_eq_bind, Option.bind_some]
  split
  case h_7 =>
    simp only [readNumber, takeWhile_append_of_stops htail hrest,
      dropWhile_append_of_stops htail hrest, isNumber_of_writes hnumber]
    rfl
  all_goals
    exact absurd rfl (hother _ (by simp))

end Steps

theorem takesName_of_writes (h : WritesName cs codes) (rest : List Char) :
    TakesName (cs ++ rest) codes rest := by
  obtain ⟨ws, _, ws', hws, ⟨body, hbody, rfl⟩, hws', rfl⟩ := h
  refine ⟨body ++ '"' :: (ws' ++ ':' :: rest), ws' ++ ':' :: rest, ?_,
    takes_readString hbody _, takes_readChar hws' rfl rest⟩
  have htext : ws ++ ('"' :: (body ++ ['"']) ++ (ws' ++ [':'])) ++ rest =
      ws ++ '"' :: (body ++ '"' :: (ws' ++ ':' :: rest)) := by
    simp
  rw [htext]
  exact takes_readChar hws rfl _

theorem first_of_writesNumber (h : WritesNumber cs) :
    ∃ c ds, cs = c :: ds ∧ isBlank c = false ∧ c ≠ ']' ∧ c ≠ '}' := by
  have hne : cs ≠ [] := by
    cases h with
    | parts _ hinteger _ _ => simp [(isDigits_of_writesInteger hinteger).1]
  obtain ⟨c, ds, rfl⟩ := List.exists_cons_of_ne_nil hne
  have hc := isNumberChar_of_writes h c (by simp)
  have hall : ∀ d ∈ [' ', '\n', '\t', '\r', ']', '}'], isNumberChar d = false := by
    simp [isNumberChar]
  have hother : c ∉ [' ', '\n', '\t', '\r', ']', '}'] := fun hmem => by simp [hall c hmem] at hc
  simp only [List.mem_cons, List.not_mem_nil, or_false, not_or] at hother
  exact ⟨c, ds, rfl, by simp [isBlank, hother], by simp [hother], by simp [hother]⟩

/-- The character that comes first apart from white space ends no array and no object. -/
theorem exists_first {part : Part} (h : Writes cs part) :
    ∃ ws c ds, cs = ws ++ c :: ds ∧ IsSpace ws ∧ isBlank c = false ∧ c ≠ ']' ∧ c ≠ '}' := by
  have hnil : IsSpace [] := by simp [IsSpace]
  induction h with
  | null | true | false | emptyArray | array | emptyObject | object =>
      exact ⟨[], _, _, rfl, hnil, rfl, by decide, by decide⟩
  | number h =>
      obtain ⟨c, ds, rfl, hc⟩ := first_of_writesNumber h
      exact ⟨[], c, ds, rfl, hnil, hc⟩
  | string h =>
      obtain ⟨body, -, rfl⟩ := h
      exact ⟨[], _, _, rfl, hnil, rfl, by decide, by decide⟩
  | @element ws cs ws' value hws _ _ ih =>
      obtain ⟨ws₀, c, ds, rfl, hws₀, hc⟩ := ih
      exact ⟨ws ++ ws₀, c, ds ++ ws', by simp, List.forall_mem_append.mpr ⟨hws, hws₀⟩, hc⟩
  | item _ ih => exact ih
  | items _ _ ih =>
      obtain ⟨ws, c, ds, rfl, hws, hc⟩ := ih
      exact ⟨ws, c, _, List.append_assoc _ _ _, hws, hc⟩
  | member hname | members hname =>
      obtain ⟨ws, _, ws', hws, ⟨body, -, rfl⟩, -, rfl⟩ := hname
      rw [List.append_assoc]
      exact ⟨ws, _, _, rfl, hws, rfl, by decide, by decide⟩

/-- What is written is read, with white space in front of it. A number ends where a character cannot
be part of it; items and members end with the bracket or brace behind them. -/
def IsRead (cs : List Char) : Part → Prop
  | .value value => ∀ ws rest, IsSpace ws → Stops isNumberChar rest →
      Takes (readValue (ws ++ (cs ++ rest))) value rest
  | .element value => ∀ rest, Stops isNumberChar rest →
      ∃ ws, IsSpace ws ∧ Takes (readValue (cs ++ rest)) value (ws ++ rest)
  | .items items => ∀ rest, Takes (readItems (cs ++ ']' :: rest)) items rest
  | .members members => ∀ rest, Takes (readMembers (cs ++ '}' :: rest)) members rest

theorem stops_of_isSpace (hws : IsSpace ws) (hrest : Stops isNumberChar rest) :
    Stops isNumberChar (ws ++ rest) := by
  cases ws with
  | nil => exact hrest
  | cons c ws =>
      have hall : ∀ c ∈ [' ', '\n', '\t', '\r'], isNumberChar c = false := by simp [isNumberChar]
      exact hall c (hws c (by simp))

theorem isRead_of_writes {part : Part} (h : Writes cs part) : IsRead cs part := by
  induction h with
  | null | true | false =>
      intro ws rest hws _
      exact takes_word (takes_readChar hws rfl _) (by simp)
  | number h =>
      intro ws rest hws hrest
      obtain ⟨c, ds, rfl, hblank, -⟩ := first_of_writesNumber h
      exact takes_number (takes_readChar hws hblank _) h hrest
  | string h =>
      intro ws rest hws _
      obtain ⟨body, hbody, rfl⟩ := h
      rw [List.cons_append, List.append_assoc]
      exact takes_string (takes_readChar hws rfl _) (takes_readString hbody rest)
  | emptyArray hspace =>
      intro ws rest hws _
      rw [List.cons_append, List.append_assoc]
      exact takes_emptyArray (takes_readChar hws rfl _) (takes_readChar hspace rfl rest)
  | @array cs items hitems ih =>
      intro ws rest hws _
      -- The reader sees by the first character behind the bracket that there are items.
      obtain ⟨ws', c, ds, hcs, hws', hblank, hc, -⟩ := exists_first hitems
      have hfirst : Takes (readChar (cs ++ ']' :: rest)) c (ds ++ ']' :: rest) := by
        rw [hcs, List.append_assoc]
        exact takes_readChar hws' hblank _
      rw [List.cons_append, List.append_assoc]
      exact takes_array (takes_readChar hws rfl _) hfirst hc (ih rest)
  | emptyObject hspace =>
      intro ws rest hws _
      rw [List.cons_append, List.append_assoc]
      exact takes_emptyObject (takes_readChar hws rfl _) (takes_readChar hspace rfl rest)
  | @object cs members hmembers ih =>
      intro ws rest hws _
      obtain ⟨ws', c, ds, hcs, hws', hblank, -, hc⟩ := exists_first hmembers
      have hfirst : Takes (readChar (cs ++ '}' :: rest)) c (ds ++ '}' :: rest) := by
        rw [hcs, List.append_assoc]
        exact takes_readChar hws' hblank _
      rw [List.cons_append, List.append_assoc]
      exact takes_object (takes_readChar hws rfl _) hfirst hc (ih rest)
  | @element ws cs ws' value hws _ hws' ih =>
      intro rest hrest
      -- A number ends at the white space, or where the value ends if there is none.
      refine ⟨ws', hws', ?_⟩
      rw [List.append_assoc, List.append_assoc]
      exact ih ws (ws' ++ rest) hws (stops_of_isSpace hws' hrest)
  | item _ ih =>
      intro rest
      obtain ⟨ws, hws, hvalue⟩ := ih (']' :: rest) rfl
      exact takes_lastItem hvalue (takes_readChar hws rfl rest)
  | @items cs ds _ _ _ _ ihValue ihItems =>
      intro rest
      obtain ⟨ws, hws, hvalue⟩ := ihValue (',' :: (ds ++ ']' :: rest)) rfl
      rw [List.append_assoc, List.cons_append]
      exact takes_item hvalue (takes_readChar hws rfl _) (ihItems rest)
  | member hname _ ih =>
      intro rest
      obtain ⟨ws, hws, hvalue⟩ := ih ('}' :: rest) rfl
      rw [List.append_assoc]
      exact takes_lastMember (takesName_of_writes hname _) hvalue (takes_readChar hws rfl rest)
  | @members _ cs ds _ _ _ hname _ _ ihValue ihMembers =>
      intro rest
      obtain ⟨ws, hws, hvalue⟩ := ihValue (',' :: (ds ++ '}' :: rest)) rfl
      rw [List.append_assoc, List.append_assoc, List.cons_append]
      exact takes_member (takesName_of_writes hname _) hvalue (takes_readChar hws rfl _)
        (ihMembers rest)

/-- A text is read as the value that it stands for. -/
theorem ofText?_of_writes {value : JsonValue} (h : Writes cs (.element value)) :
    ofText? cs = some value := by
  obtain ⟨ws, hws, hvalue⟩ := isRead_of_writes h [] rfl
  rw [List.append_nil, List.append_nil] at hvalue
  obtain ⟨_, hvalue⟩ := hvalue.eq_some
  have hblank : ws.all isBlank = true := List.all_eq_true.mpr fun c hc => isBlank_iff.mpr (hws c hc)
  rw [ofText?, hvalue]
  exact if_pos hblank

end DeclBridge.JsonValue
