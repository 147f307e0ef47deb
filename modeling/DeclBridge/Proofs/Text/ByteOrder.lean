import Mathlib.Data.List.Lex

/-!
The order of texts and the order of their bytes. UTF-8 keeps the order of characters, so texts that
are sorted by their characters are sorted by their bytes.
-/

namespace DeclBridge.Text

theorem cons_ofNat_lt_iff {m n : Nat} (hm : m < UInt8.size) (hn : n < UInt8.size)
    {bytes more : List UInt8} :
    UInt8.ofNat m :: bytes < UInt8.ofNat n :: more ↔ m < n ∨ m = n ∧ bytes < more := by
  rw [List.cons_lt_cons_iff, UInt8.ofNat_lt_iff_lt hm hn, ← UInt8.toNat_inj,
    UInt8.toNat_ofNat_of_lt' hm, UInt8.toNat_ofNat_of_lt' hn]

theorem lt_sixBits {m n : Nat} (h : m < n) :
    m / 64 < n / 64 ∨ m / 64 = n / 64 ∧ m % 64 < n % 64 := by
  omega

/-- The bytes of a smaller character are smaller, and not because they end earlier. -/
theorem utf8EncodeChar_append_lt {c d : Char} (h : c < d) (bytes more : List UInt8) :
    String.utf8EncodeChar c ++ bytes < String.utf8EncodeChar d ++ more := by
  have hval : c.val.toNat < d.val.toNat := h
  have hbound : d.val.toNat < 64 * 64 * 64 * 8 := by
    rcases d.valid with h | h <;> omega
  simp only [String.utf8EncodeChar]
  generalize c.val.toNat = v at *
  generalize d.val.toNat = w at *
  have hdiv (n : Nat) : n / 4096 = n / 64 / 64 ∧ n / 262144 = n / 64 / 64 / 64 := by omega
  have hlast := lt_sixBits hval
  have hthird := @lt_sixBits (v / 64) (w / 64)
  have hsecond := @lt_sixBits (v / 64 / 64) (w / 64 / 64)
  -- One goal for each two lengths that the characters can have.
  split_ifs <;>
    simp (disch := simp only [UInt8.size]; omega) only [List.cons_append, cons_ofNat_lt_iff,
      Nat.add_lt_add_iff_right, Nat.add_right_cancel_iff, hdiv] <;>
    omega

theorem flatMap_utf8EncodeChar_lt {cs ds : List Char} (h : cs < ds) :
    cs.flatMap String.utf8EncodeChar < ds.flatMap String.utf8EncodeChar := by
  induction h with
  | @nil d ds =>
      obtain ⟨byte, bytes, hbytes⟩ :=
        List.exists_cons_of_ne_nil (String.utf8EncodeChar_ne_nil (c := d))
      rw [List.flatMap_cons, hbytes]
      exact List.nil_lt_cons _ _
  | rel h => exact utf8EncodeChar_append_lt h _ _
  | cons _ ih => exact List.append_left_lt ih

theorem toList_data_toUTF8 (s : String) :
    s.toUTF8.data.toList = s.toList.flatMap String.utf8EncodeChar := by
  rw [String.toUTF8_eq_toByteArray]
  conv => lhs; rw [← String.ofList_toList (s := s)]
  exact List.toList_data_toByteArray

theorem data_toUTF8_lt {s t : String} (h : s < t) :
    s.toUTF8.data.toList < t.toUTF8.data.toList := by
  rw [toList_data_toUTF8, toList_data_toUTF8]
  exact flatMap_utf8EncodeChar_lt h

end DeclBridge.Text
