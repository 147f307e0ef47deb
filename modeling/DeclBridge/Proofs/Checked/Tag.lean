import DeclBridge.Proofs.Checked.Literal
import DeclBridge.Tag.Basic

/-!
The search for a key in the text of a struct tag, by an index that walks over the bytes of the text.
A backslash takes one byte with it, not one character: what is left of the character is walked over
then, since no byte of it is a quote or a backslash.
-/

namespace DeclBridge.Checked

open Exec (get)
open Tag (isKeyChar valueReach)

/-- Bytes that are walked over by an index. -/
abbrev Bytes := List UInt8

/-- Walks over the bytes that satisfy `p`. -/
def Bytes.skipWhile (p : UInt8 → Bool) (bs : Bytes) (i : Nat) : Exec TagFault Nat := do
  if i < bs.length then
    if p (← get bs i) then bs |>.skipWhile p (i + 1) else return i
  else return i
partial_fixpoint

/-- A byte that may stand in a key. -/
def isKeyByte (b : UInt8) : Bool :=
  b > ' '.toUInt8 && b != ':'.toUInt8 && b != '"'.toUInt8 && b != 0x7f

/-- The place of the quote that closes a value, or a place behind the text. -/
def Bytes.valueEnd (bs : Bytes) (i : Nat) : Exec TagFault Nat := do
  if i < bs.length then
    let b ← get bs i
    if b = '"'.toUInt8 then return i
    else if b = '\\'.toUInt8 then bs |>.valueEnd (i + 2)
    else bs |>.valueEnd (i + 1)
  else return i
partial_fixpoint

open Bytes

/-- Whether a colon and a quote stand at an index. -/
def beginsValue (bs : List UInt8) (i : Nat) : Exec TagFault Bool := do
  if bs.length ≤ i + 1 then return false
  else return (← get bs i) == ':'.toUInt8 && (← get bs (i + 1)) == '"'.toUInt8

/-- The value of a key in the text of a tag, from the pair of a key and a value at an index on. -/
def Chars.lookup (key : List Char) (tag : Chars) (i : Nat) :
    Exec TagFault (Option (List Char)) := do
  let bs := bytes tag
  let start ← skipWhile (· == ' '.toUInt8) bs i
  let i ← skipWhile isKeyByte bs start
  if i = start then return none
  else if !(← beginsValue bs i) then return none
  else
    let name ← textSlice tag start i
    let first := i + 1
    let i ← valueEnd bs (first + 1)
    if bs.length ≤ i then
      if name = key then throw (.unterminatedValue (String.ofList key)) else return none
    else
      let quoted ← textSlice tag first (i + 1)
      if name = key then return some (← ExceptT.adapt TagFault.literal (unquote quoted))
      else tag |>.lookup key (i + 1)
partial_fixpoint

open Chars (lookup)

/-- The value of a key in a tag, which is given as the literal in the source text. -/
def extract (literal key : String) : Exec Tag.Failure String := do
  let tag ← ExceptT.adapt (fun fault => .malformed literal (.literal fault))
    (unquote literal.toList)
  let value ← ExceptT.adapt (.malformed literal) (lookup key.toList tag 0)
  match value with
  | some value => return String.ofList value
  | none => throw (.notFound literal)

/-- The character of one byte is that byte, and the bytes of the others come behind the first half
of all bytes. -/
theorem utf8EncodeChar_cases (c : Char) :
    String.utf8EncodeChar c = [c.toUInt8] ∧ c.toNat < 128 ∨
      128 ≤ c.toNat ∧ ∀ b ∈ String.utf8EncodeChar c, 128 ≤ b.toNat := by
  by_cases hascii : c.val ≤ 127
  · exact .inl ⟨String.utf8EncodeChar_eq_singleton (Char.utf8Size_eq_one_iff.mpr hascii),
      Nat.lt_succ_of_le hascii⟩
  · have hlarge : ¬c.val.toNat ≤ 127 := hascii
    refine .inr ⟨Nat.lt_of_not_le hlarge, fun b hb => ?_⟩
    simp only [String.utf8EncodeChar, hlarge, if_false] at hb
    have htail (n k : Nat) (hk : 128 ≤ k) (hn : n + k < 256) :
        128 ≤ (UInt8.ofNat (n + k)).toNat := by
      rw [UInt8.toNat_ofNat_of_lt' hn]
      omega
    split_ifs at hb <;> simp only [List.mem_cons, List.not_mem_nil, or_false] at hb
    · rcases hb with rfl | rfl <;> exact htail _ _ (by decide) (by omega)
    · rcases hb with rfl | rfl | rfl <;> exact htail _ _ (by decide) (by omega)
    · rcases hb with rfl | rfl | rfl | rfl <;> exact htail _ _ (by decide) (by omega)

theorem toNat_toUInt8 {c : Char} (hc : c.toNat < 128) : c.toUInt8.toNat = c.toNat := by
  have hmod : c.toUInt8.toNat = c.toNat % 256 := UInt32.toNat_toUInt8 c.val
  omega

theorem eq_of_mem_utf8EncodeChar {c d : Char} (hd : d.toNat < 128)
    (h : d.toUInt8 ∈ String.utf8EncodeChar c) : c = d := by
  have hbyte := toNat_toUInt8 hd
  rcases utf8EncodeChar_cases c with ⟨hc, hlt⟩ | ⟨-, hbytes⟩
  · rw [hc, List.mem_singleton] at h
    have hchar := toNat_toUInt8 hlt
    rw [← h, hbyte] at hchar
    exact (Char.toNat_inj.mp hchar).symm
  · have hlarge := hbytes _ h
    omega

theorem byte_eq_iff {c d : Char} (hd : d.toNat < 128) {b : UInt8}
    (hb : b ∈ String.utf8EncodeChar c) : b = d.toUInt8 ↔ c = d := by
  constructor
  · rintro rfl
    exact eq_of_mem_utf8EncodeChar hd hb
  · rintro rfl
    rcases utf8EncodeChar_cases c with ⟨hc, -⟩ | ⟨hlarge, -⟩
    · simpa [hc] using hb
    · omega

theorem get_bytes (before : List Char) (c : Char) (cs : List Char) :
    ∃ b ∈ String.utf8EncodeChar c,
      get (bytes (before ++ c :: cs)) (bytes before).length = (pure b : Exec TagFault UInt8) := by
  obtain ⟨b, bs, hbytes⟩ := List.exists_cons_of_ne_nil (String.utf8EncodeChar_ne_nil (c := c))
  refine ⟨b, by simp [hbytes], Exec.get_of_getElem? ?_⟩
  simp [bytes, hbytes]

theorem length_bytes_lt (before : List Char) (c : Char) (cs : List Char) :
    (bytes before).length < (bytes (before ++ c :: cs)).length := by
  have hpos := c.utf8Size_pos
  rw [bytes_append, List.length_append, length_bytes_cons]
  omega

theorem bytes_cons (before : List Char) (c : Char) (cs : List Char) :
    bytes (before ++ c :: cs) = bytes before ++ String.utf8EncodeChar c ++ bytes cs := by
  simp [bytes]

theorem bytes_concat (before : List Char) (c : Char) :
    bytes (before ++ [c]) = bytes before ++ String.utf8EncodeChar c := by
  simp [bytes]

theorem skipWhile_append {p : UInt8 → Bool} {mid : List UInt8} (hmid : ∀ b ∈ mid, p b = true)
    (before after : List UInt8) :
    skipWhile p (before ++ mid ++ after) before.length =
      skipWhile p (before ++ mid ++ after) (before ++ mid).length := by
  induction mid generalizing before with
  | nil => simp
  | cons b mid ih =>
      have hget : get (before ++ b :: mid ++ after) before.length = (pure b : Exec TagFault _) :=
        Exec.get_of_getElem? (by simp)
      have ih := ih (fun d hd => hmid d (List.mem_cons_of_mem _ hd)) (before ++ [b])
      rw [skipWhile, if_pos (by simp), hget, pure_bind, if_pos (hmid b List.mem_cons_self)]
      simpa using ih

theorem valueEnd_append {mid : List UInt8}
    (hmid : ∀ b ∈ mid, b ≠ '"'.toUInt8 ∧ b ≠ '\\'.toUInt8) (before after : List UInt8) :
    valueEnd (before ++ mid ++ after) before.length =
      valueEnd (before ++ mid ++ after) (before ++ mid).length := by
  induction mid generalizing before with
  | nil => simp
  | cons b mid ih =>
      obtain ⟨hquote, hescape⟩ := hmid b List.mem_cons_self
      have hget : get (before ++ b :: mid ++ after) before.length = (pure b : Exec TagFault _) :=
        Exec.get_of_getElem? (by simp)
      have ih := ih (fun d hd => hmid d (List.mem_cons_of_mem _ hd)) (before ++ [b])
      rw [valueEnd, if_pos (by simp), hget, pure_bind, if_neg hquote, if_neg hescape]
      simpa using ih

theorem skipWhile_eq {p : UInt8 → Bool} {q : Char → Bool}
    (h : ∀ c, ∀ b ∈ String.utf8EncodeChar c, p b = q c) (before cs : List Char) :
    skipWhile p (bytes (before ++ cs)) (bytes before).length =
      pure (bytes (before ++ cs.takeWhile q)).length := by
  induction cs generalizing before with
  | nil =>
      rw [skipWhile, List.append_nil, if_neg (Nat.lt_irrefl _)]
      simp
  | cons c cs ih =>
      cases hc : q c with
      | true =>
          have hmid : ∀ b ∈ String.utf8EncodeChar c, p b = true := fun b hb => (h c b hb).trans hc
          have ih := ih (before ++ [c])
          rw [List.append_assoc, List.singleton_append, bytes_cons, bytes_concat] at ih
          rw [bytes_cons, skipWhile_append hmid, ih]
          simp [hc]
      | false =>
          obtain ⟨b, hb, hget⟩ := get_bytes before c cs
          rw [skipWhile, if_pos (length_bytes_lt before c cs), hget, pure_bind, h c b hb, hc]
          simp [hc]

theorem isSpaceByte_eq (c : Char) (b : UInt8) (hb : b ∈ String.utf8EncodeChar c) :
    (b == ' '.toUInt8) = (c == ' ') := by
  rw [Bool.eq_iff_iff, beq_iff_eq, beq_iff_eq]
  exact byte_eq_iff (by decide) hb

theorem isKeyByte_eq (c : Char) (b : UInt8) (hb : b ∈ String.utf8EncodeChar c) :
    isKeyByte b = isKeyChar c := by
  have hne (d : Char) (hd : d.toNat < 128) : (b != d.toUInt8) = (c != d) := by
    rw [Bool.eq_iff_iff, bne_iff_ne, bne_iff_ne, ne_eq, ne_eq, byte_eq_iff hd hb]
  have hlt : decide (b > ' '.toUInt8) = decide (' ' < c) := by
    rw [decide_eq_decide]
    show 32 < b.toNat ↔ 32 < c.toNat
    rcases utf8EncodeChar_cases c with ⟨hc, hascii⟩ | ⟨hlarge, hbytes⟩
    · rw [hc, List.mem_singleton] at hb
      rw [hb, toNat_toUInt8 hascii]
    · have hlarge' := hbytes b hb
      omega
  simp only [isKeyByte, isKeyChar, hlt]
  rw [hne ':' (by decide), hne '"' (by decide), ← hne '\x7f' (by decide)]
  rfl

theorem valueEnd_char {c : Char} (hc : c ≠ '"' ∧ c ≠ '\\') (before cs : List Char) :
    valueEnd (bytes (before ++ c :: cs)) (bytes before).length =
      valueEnd (bytes (before ++ c :: cs)) (bytes (before ++ [c])).length := by
  have hmid : ∀ b ∈ String.utf8EncodeChar c, b ≠ '"'.toUInt8 ∧ b ≠ '\\'.toUInt8 := by
    intro b hb
    rw [ne_eq, ne_eq, byte_eq_iff (by decide) hb, byte_eq_iff (by decide) hb]
    exact hc
  rw [bytes_cons, bytes_concat, valueEnd_append hmid]

/-- A backslash takes the next character with it: its first byte at once, the others after it. -/
theorem valueEnd_escape (before cs : List Char) (c : Char) :
    valueEnd (bytes (before ++ '\\' :: c :: cs)) (bytes before).length =
      valueEnd (bytes (before ++ '\\' :: c :: cs)) (bytes (before ++ ['\\', c])).length := by
  obtain ⟨b, bs, hbytes⟩ := List.exists_cons_of_ne_nil (String.utf8EncodeChar_ne_nil (c := c))
  have htail : ∀ d ∈ bs, d ≠ '"'.toUInt8 ∧ d ≠ '\\'.toUInt8 := by
    intro d hd
    rcases utf8EncodeChar_cases c with ⟨hc, -⟩ | ⟨-, hlarge⟩
    · obtain ⟨-, rfl⟩ := List.cons.inj (hbytes.symm.trans hc)
      cases hd
    · have hd := hlarge d (by simp [hbytes, hd])
      refine ⟨?_, ?_⟩ <;>
        · rintro rfl
          exact absurd hd (by decide)
  obtain ⟨d, hd, hget⟩ := get_bytes before '\\' (c :: cs)
  obtain rfl : d = '\\'.toUInt8 := (byte_eq_iff (by decide) hd).mpr rfl
  have hbackslash : String.utf8EncodeChar '\\' = ['\\'.toUInt8] := rfl
  have hsplit : bytes (before ++ '\\' :: c :: cs) =
      (bytes before ++ ['\\'.toUInt8, b]) ++ bs ++ bytes cs := by
    simp [bytes, hbytes, hbackslash]
  have hbefore : bytes (before ++ ['\\', c]) = (bytes before ++ ['\\'.toUInt8, b]) ++ bs := by
    simp [bytes, hbytes, hbackslash]
  rw [valueEnd, if_pos (length_bytes_lt before _ _), hget, pure_bind, if_neg (by decide),
    if_pos rfl, hsplit, hbefore, ← valueEnd_append htail]
  simp

/-- The place that is found is that of the quote that closes the value, if there is one. -/
theorem valueEnd_eq (n : Nat) (before cs : List Char) :
    ∃ j, valueEnd (bytes (before ++ cs)) (bytes before).length = pure j ∧
      match valueReach n cs with
      | none => (bytes (before ++ cs)).length ≤ j
      | some m => ∃ value rest, cs = value ++ '"' :: rest ∧ n + value.length + 1 = m ∧
          j = (bytes (before ++ value)).length := by
  fun_induction valueReach n cs generalizing before with
  | case1 n =>
      refine ⟨(bytes before).length, ?_, ?_⟩
      · rw [valueEnd, List.append_nil, if_neg (Nat.lt_irrefl _)]
      · simp
  | case2 n cs =>
      obtain ⟨b, hb, hget⟩ := get_bytes before '"' cs
      refine ⟨(bytes before).length, ?_, [], cs, rfl, rfl, by simp⟩
      rw [valueEnd, if_pos (length_bytes_lt before _ _), hget, pure_bind,
        if_pos ((byte_eq_iff (by decide) hb).mpr rfl)]
  | case3 n c cs ih =>
      obtain ⟨j, hj, hreach⟩ := ih (before ++ ['\\', c])
      rw [List.append_assoc] at hj hreach
      refine ⟨j, (valueEnd_escape before cs c).trans hj, ?_⟩
      generalize valueReach (n + 2) cs = reach at hreach ⊢
      cases reach with
      | none => exact hreach
      | some m =>
          obtain ⟨value, rest, rfl, rfl, rfl⟩ := hreach
          exact ⟨'\\' :: c :: value, rest, rfl, by simp; omega, by simp⟩
  | case4 n c cs hquote hescape ih =>
      -- A backslash without a character behind it takes the walk out of the text, by two bytes.
      by_cases hc : c = '\\'
      · subst hc
        obtain rfl : cs = [] := by
          cases cs with
          | nil => rfl
          | cons d ds => exact (hescape d ds rfl rfl).elim
        obtain ⟨b, hb, hget⟩ := get_bytes before '\\' []
        obtain rfl : b = '\\'.toUInt8 := (byte_eq_iff (by decide) hb).mpr rfl
        have hend : (bytes (before ++ ['\\'])).length < (bytes before).length + 2 := by
          rw [bytes_concat, List.length_append]
          exact Nat.lt_succ_self _
        refine ⟨(bytes before).length + 2, ?_, Nat.le_of_lt hend⟩
        rw [valueEnd, if_pos (length_bytes_lt before _ _), hget, pure_bind, if_neg (by decide),
          if_pos rfl, valueEnd, if_neg (Nat.not_lt.mpr (Nat.le_of_lt hend))]
      · obtain ⟨j, hj, hreach⟩ := ih (before ++ [c])
        rw [List.append_assoc] at hj hreach
        refine ⟨j, (valueEnd_char ⟨hquote, hc⟩ before cs).trans hj, ?_⟩
        generalize valueReach (n + 1) cs = reach at hreach ⊢
        cases reach with
        | none => exact hreach
        | some m =>
            obtain ⟨value, rest, rfl, rfl, rfl⟩ := hreach
            exact ⟨c :: value, rest, rfl, by simp; omega, by simp⟩

theorem beginsValue_eq (before cs : List Char) :
    beginsValue (bytes (before ++ cs)) (bytes before).length =
      pure ([':', '"'].isPrefixOf cs) := by
  rw [beginsValue]
  split
  · rename_i hshort
    have hopens : [':', '"'].isPrefixOf cs = false := by
      rw [← Bool.not_eq_true, List.isPrefixOf_iff_prefix]
      rintro ⟨rest, rfl⟩
      rw [bytes_append, List.length_append, bytes_append, List.length_append] at hshort
      have htwo : (bytes [':', '"']).length = 2 := rfl
      omega
    rw [hopens]
  · rename_i hlong
    cases cs with
    | nil => simp at hlong
    | cons c cs =>
        obtain ⟨b, hb, hget⟩ := get_bytes before c cs
        by_cases hc : c = ':'
        · subst hc
          have hbefore : (bytes (before ++ [':'])).length = (bytes before).length + 1 := by
            rw [bytes_concat, List.length_append]
            rfl
          cases cs with
          | nil => exact absurd (Nat.le_of_eq hbefore) hlong
          | cons d ds =>
              obtain ⟨e, he, hnext⟩ := get_bytes (before ++ [':']) d ds
              rw [hbefore, List.append_assoc, List.singleton_append] at hnext
              rw [hget, hnext, (byte_eq_iff (by decide) hb).mpr rfl]
              have hquote : (e == '"'.toUInt8) = ('"' == d) := by
                rw [Bool.eq_iff_iff, beq_iff_eq, beq_iff_eq, byte_eq_iff (by decide) he, eq_comm]
              simp only [pure_bind, List.isPrefixOf, Bool.and_true, hquote]
              rfl
        · have hnext : get (bytes (before ++ c :: cs)) ((bytes before).length + 1) =
              (pure _ : Exec TagFault UInt8) :=
            Exec.get_of_getElem? (List.getElem?_eq_getElem (Nat.not_le.mp hlong))
          have hcolon : (b == ':'.toUInt8) = false :=
            beq_false_of_ne (mt (byte_eq_iff (by decide) hb).mp hc)
          rw [hget, hnext]
          simp [List.isPrefixOf, hcolon, beq_false_of_ne (Ne.symm hc)]

theorem length_bytes_append_ne (before : List Char) {cs : List Char} (hcs : cs ≠ []) :
    (bytes (before ++ cs)).length ≠ (bytes before).length := by
  cases cs with
  | nil => exact absurd rfl hcs
  | cons c cs => exact Nat.ne_of_gt (length_bytes_lt before c cs)

theorem take_literal (value more : List Char) :
    '"' :: (value ++ '"' :: more).take (value.length + 1) = '"' :: (value ++ ['"']) := by
  rw [List.take_append, List.take_of_length_le (Nat.le_succ _), Nat.add_sub_cancel_left]
  rfl

theorem drop_literal (value more : List Char) :
    (value ++ '"' :: more).drop (value.length + 1) = more := by
  rw [List.drop_append, List.drop_of_length_le (Nat.le_succ _), Nat.add_sub_cancel_left]
  rfl

theorem length_bytes_value_lt (before value more : List Char) :
    (bytes (before ++ '"' :: value)).length <
      (bytes (before ++ '"' :: (value ++ '"' :: more))).length := by
  have hlt := length_bytes_lt (before ++ '"' :: value) '"' more
  rwa [List.append_assoc, List.cons_append] at hlt

/-- The literal between two quotes is cut out of a text from the first quote through the second. -/
theorem textSlice_literal (before value more : List Char) :
    textSlice (before ++ '"' :: (value ++ '"' :: more)) (bytes before).length
        ((bytes (before ++ '"' :: value)).length + 1) =
      (pure ('"' :: (value ++ ['"'])) : Exec TagFault (List Char)) ∧
    ∀ key, lookup key (before ++ '"' :: (value ++ '"' :: more))
        ((bytes (before ++ '"' :: value)).length + 1) =
      lookup key (before ++ '"' :: (value ++ ['"']) ++ more)
        (bytes (before ++ '"' :: (value ++ ['"']))).length := by
  have hsplit : before ++ '"' :: (value ++ '"' :: more) =
      before ++ '"' :: (value ++ ['"']) ++ more := by simp
  have hlast : (bytes (before ++ '"' :: value)).length + 1 =
      (bytes (before ++ '"' :: (value ++ ['"']))).length := by
    rw [← List.cons_append, ← List.append_assoc, bytes_append (before ++ '"' :: value),
      List.length_append]
    rfl
  rw [hsplit, hlast]
  exact ⟨textSlice_append _ _ _, fun _ => rfl⟩

/-- The search finds what the tag says of the key, and cuts the tag at characters only. -/
theorem lookup_eq (key before cs : List Char) :
    lookup key (before ++ cs) (bytes before).length = Exec.ofExcept (Tag.find? key cs) := by
  induction hlength : cs.length using Nat.strongRecOn generalizing before cs with
  | _ n ih =>
      subst hlength
      have hblanks := skipWhile_eq isSpaceByte_eq before cs
      have hname := skipWhile_eq isKeyByte_eq (before ++ cs.takeWhile (· == ' '))
        (cs.dropWhile (· == ' '))
      rw [List.append_assoc, List.takeWhile_append_dropWhile] at hname
      rw [lookup, Tag.find?]
      simp only [hblanks, pure_bind, hname]
      have hlength : (cs.dropWhile (· == ' ')).length ≤ cs.length :=
        (List.dropWhile_suffix _).length_le
      have htag : before ++ cs = before ++ cs.takeWhile (· == ' ') ++ cs.dropWhile (· == ' ') := by
        rw [List.append_assoc, List.takeWhile_append_dropWhile]
      -- From here on `pair` is what stands behind the blanks, and `front` what stands before it.
      generalize cs.dropWhile (· == ' ') = pair at hlength htag ⊢
      generalize before ++ cs.takeWhile (· == ' ') = front at htag ⊢
      have hpair := List.takeWhile_append_dropWhile (p := isKeyChar) (l := pair)
      rw [htag]
      generalize pair.takeWhile isKeyChar = name at hpair ⊢
      generalize hrest : pair.dropWhile isKeyChar = rest at hpair ⊢
      subst hpair
      rw [← List.append_assoc]
      simp only [beginsValue_eq (front ++ name) rest, pure_bind]
      by_cases hempty : name = []
      · subst hempty
        rw [List.append_nil, if_pos rfl]
        split <;> rfl
      rw [if_neg (length_bytes_append_ne front hempty)]
      cases hopens : [':', '"'].isPrefixOf rest with
      | false =>
          simp only [Bool.not_false, if_true]
          split
          · cases hopens
          · rfl
      | true =>
          obtain ⟨tail, rfl⟩ := List.isPrefixOf_iff_prefix.mp hopens
          obtain ⟨j, hj, hreach⟩ := valueEnd_eq 0 (front ++ name ++ [':', '"']) tail
          have hopen : (bytes (front ++ name ++ [':', '"'])).length =
              (bytes (front ++ name)).length + 1 + 1 := by
            rw [bytes_append, List.length_append]
            rfl
          rw [hopen, List.append_assoc (front ++ name)] at hj
          simp only [Bool.not_true, Bool.false_eq_true, if_false, textSlice_append, pure_bind, hj]
          simp only [List.cons_append, List.nil_append, if_neg hempty]
          generalize valueReach 0 tail = reach at hreach ⊢
          cases reach with
          | none =>
              rw [if_pos (by simpa using hreach)]
              split <;> rfl
          | some m =>
              obtain ⟨value, more, rfl, rfl, rfl⟩ := hreach
              have hhead : (bytes (front ++ name)).length + 1 =
                  (bytes (front ++ name ++ [':'])).length := by
                rw [bytes_append (front ++ name), List.length_append]
                rfl
              have hsplit : front ++ name ++ ':' :: '"' :: (value ++ '"' :: more) =
                  front ++ name ++ [':'] ++ '"' :: (value ++ '"' :: more) := by simp
              have hvalue : front ++ name ++ [':', '"'] ++ value =
                  front ++ name ++ [':'] ++ '"' :: value := by simp
              have hlt := length_bytes_value_lt (front ++ name ++ [':']) value more
              obtain ⟨hslice, hbehind⟩ := textSlice_literal (front ++ name ++ [':']) value more
              rw [hhead, hsplit, hvalue, if_neg (Nat.not_le.mpr hlt), hslice, pure_bind,
                Nat.zero_add, hbehind]
              simp only [take_literal, drop_literal]
              split
              · rw [unquote_eq, Exec.adapt_ofExcept]
                cases Tag.Literal.decode ('"' :: (value ++ ['"'])) <;> rfl
              · refine ih more.length ?_ _ more rfl
                simp only [List.length_append, List.length_cons] at hlength
                omega

/-- Looking up a key in a tag breaks down on no tag and no key. -/
theorem extract_eq (literal key : String) :
    extract literal key = Exec.ofExcept (Tag.valueOf literal key) := by
  have hlookup (tag : List Char) :
      lookup key.toList tag 0 = Exec.ofExcept (Tag.find? key.toList tag) :=
    lookup_eq key.toList [] tag
  rw [extract, unquote_eq, Exec.adapt_ofExcept, Tag.valueOf]
  cases Tag.Literal.decode literal.toList with
  | error fault => rfl
  | ok tag =>
      simp only [Except.mapError, Exec.ofExcept_ok, pure_bind, hlookup, Exec.adapt_ofExcept]
      cases Tag.find? key.toList tag with
      | error fault => rfl
      | ok value => cases value <;> rfl

end DeclBridge.Checked
