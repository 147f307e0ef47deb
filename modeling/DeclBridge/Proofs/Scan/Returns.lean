import DeclBridge.Proofs.Scan.Whole
import DeclBridge.Proofs.Text.Returns

/-!
Scanning without carriage returns. Where a line break follows on every carriage return, a text has
the same tokens without them: they part tokens like the line breaks, and stand otherwise only in
comments and raw strings.
-/

namespace DeclBridge

open Text (withoutReturns ReturnsEndLines withoutReturns_cons withoutReturns_return)

namespace Token

namespace Reach

variable {c : Char} {cs : List Char} {n m : Nat}

theorem whileTrue_withoutReturns {p : Char → Bool} (h : ReturnsEndLines cs)
    (hbreak : p '\n' = false) (n : Nat) :
    whileTrue p n (withoutReturns cs) = n + (withoutReturns (cs.takeWhile p)).length := by
  rw [whileTrue_eq, Text.takeWhile_withoutReturns h hbreak]

theorem take_lineComment (cs : List Char) :
    (c :: cs).take (lineComment 1 cs) = c :: cs.takeWhile (· != '\n') := by
  rw [lineComment, whileTrue_eq, Nat.add_comm, List.take_succ_cons,
    ← List.prefix_iff_eq_take.mp (List.takeWhile_prefix _)]

theorem blockComment_withoutReturns (hcs : ReturnsEndLines cs) (h : blockComment n cs = some m) :
    ∃ k, m = n + k ∧ ∀ n', blockComment n' (withoutReturns cs) =
      some (n' + (withoutReturns (cs.take k)).length) := by
  fun_induction blockComment n cs with
  | case1 => simp at h
  | case2 n rest =>
      cases h
      refine ⟨2, rfl, fun n' => ?_⟩
      rw [withoutReturns_cons (by decide), withoutReturns_cons (by decide)]
      rfl
  | case3 n c cs hopen ih =>
      obtain ⟨k, rfl, hk⟩ := ih hcs.2 h
      refine ⟨k + 1, by omega, fun n' => ?_⟩
      rw [List.take_succ_cons]
      by_cases hc : c = '\r'
      · rw [hc, withoutReturns_return, withoutReturns_return, hk]
      · rw [withoutReturns_cons hc, withoutReturns_cons hc, blockComment, hk, List.length_cons]
        · simp only [Option.some.injEq]
          omega
        · rintro rest rfl hrest
          -- A slash behind the star would be there with the carriage returns, too.
          have hslash := (Text.head?_withoutReturns hcs.2 (d := '/') (by decide) (by decide)).mp
            (by rw [hrest]; rfl)
          obtain ⟨ds, rfl⟩ : ∃ ds, cs = '/' :: ds := by
            cases cs with
            | nil => simp at hslash
            | cons e es => exact ⟨es, by rw [Option.some.inj hslash]⟩
          exact hopen ds rfl rfl

theorem raw_withoutReturns (h : raw n cs = some m) :
    ∃ k, m = n + k ∧ ∀ n', raw n' (withoutReturns cs) =
      some (n' + (withoutReturns (cs.take k)).length) := by
  fun_induction raw n cs with
  | case1 => simp at h
  | case2 n cs =>
      cases h
      refine ⟨1, rfl, fun n' => ?_⟩
      rw [withoutReturns_cons (by decide), raw, if_pos rfl]
      rfl
  | case3 n c cs hc ih =>
      obtain ⟨k, rfl, hk⟩ := ih h
      refine ⟨k + 1, by omega, fun n' => ?_⟩
      rw [List.take_succ_cons]
      by_cases hreturn : c = '\r'
      · rw [hreturn, withoutReturns_return, withoutReturns_return, hk]
      · rw [withoutReturns_cons hreturn, withoutReturns_cons hreturn, raw, if_neg hc, hk,
          List.length_cons]
        simp only [Option.some.injEq]
        omega

theorem quoted_withoutReturns (hcs : ReturnsEndLines cs) (h : quoted n cs = some m) :
    quoted n (withoutReturns cs) = some m ∧ ∃ k, m = n + k ∧ '\r' ∉ cs.take k := by
  fun_induction quoted n cs with
  | case1 | case3 | case4 => simp at h
  | case2 n rest =>
      cases h
      rw [withoutReturns_cons (by decide)]
      exact ⟨rfl, 1, rfl, by simp⟩
  | case5 n c cs hbreak ih =>
      have hc : c ≠ '\r' := by
        rintro rfl
        obtain ⟨ds, rfl⟩ := hcs.2.exists_eq
        simp [quoted] at h
      obtain ⟨hquoted, k, rfl, hk⟩ := ih hcs.2.2 h
      rw [withoutReturns_cons (by decide), withoutReturns_cons hc, quoted]
      · refine ⟨hquoted, k + 2, by omega, ?_⟩
        simpa [hc.symm] using hk
      · exact hbreak
  | case6 n c cs hquote hbreak hescaped hescape ih =>
      have hc : c ≠ '\r' := by
        rintro rfl
        obtain ⟨ds, rfl⟩ := hcs.exists_eq
        simp [quoted] at h
      obtain ⟨hquoted, k, rfl, hk⟩ := ih hcs.2 h
      have hslash : c ≠ '\\' := by
        rintro rfl
        cases cs with
        | nil => simp [quoted] at h
        | cons d ds => exact hescape d ds rfl rfl
      rw [withoutReturns_cons hc, quoted]
      · refine ⟨hquoted, k + 1, by omega, ?_⟩
        simpa [hc.symm] using hk
      · exact hquote
      · exact hbreak
      · exact fun _ heq => absurd heq hslash
      · exact fun _ _ heq => absurd heq hslash

theorem rune_withoutReturns (hcs : ReturnsEndLines cs) (h : rune n cs = some m) :
    rune n (withoutReturns cs) = some m ∧ ∃ k, m = n + k ∧ '\r' ∉ cs.take k := by
  fun_induction rune n cs with
  | case1 | case3 => simp at h
  | case2 n rest =>
      cases h
      rw [withoutReturns_cons (by decide)]
      exact ⟨rfl, 1, rfl, by simp⟩
  | case4 n c cs ih =>
      have hc : c ≠ '\r' := by
        rintro rfl
        obtain ⟨ds, rfl⟩ := hcs.2.exists_eq
        simp [rune] at h
      obtain ⟨hrune, k, rfl, hk⟩ := ih hcs.2.2 h
      rw [withoutReturns_cons (by decide), withoutReturns_cons hc, rune]
      refine ⟨hrune, k + 2, by omega, ?_⟩
      simpa [hc.symm] using hk
  | case5 n c cs hquote hbreak hescape ih =>
      have hc : c ≠ '\r' := by
        rintro rfl
        obtain ⟨ds, rfl⟩ := hcs.exists_eq
        simp [rune] at h
      obtain ⟨hrune, k, rfl, hk⟩ := ih hcs.2 h
      have hslash : c ≠ '\\' := by
        rintro rfl
        cases cs with
        | nil => simp [rune] at h
        | cons d ds => exact hescape d ds rfl rfl
      rw [withoutReturns_cons hc, rune]
      · refine ⟨hrune, k + 1, by omega, ?_⟩
        simpa [hc.symm] using hk
      · exact hquote
      · exact hbreak
      · exact fun _ _ heq => absurd heq hslash

/-- A token that white space ends is the same without carriage returns. -/
theorem reach_withoutReturns {α : Type} {reach : List Char → α} (hcs : ReturnsEndLines cs)
    (hreach : ∀ b, isSpace b = true → ∀ as bs, reach (as ++ b :: bs) = reach as) :
    reach (withoutReturns cs) = reach cs := by
  by_cases hmem : '\r' ∈ cs
  · obtain ⟨as, bs, rfl, has⟩ := List.eq_append_cons_of_mem hmem
    obtain ⟨ds, rfl⟩ := (hcs.suffix (List.suffix_append _ _)).exists_eq
    rw [Text.withoutReturns_append, Text.withoutReturns_of_not_mem has, withoutReturns_return,
      withoutReturns_cons (by decide), hreach '\n' (by decide), hreach '\r' (by decide)]
  · rw [Text.withoutReturns_of_not_mem hmem]

theorem Ends.not_mem_take {α : Type} {reach : List Char → α} {a : α} {b : Char}
    (h : Ends reach a 0 n cs) (hb : isSpace b = true)
    (hreach : ∀ b, isSpace b = true → ∀ as bs, reach (as ++ b :: bs) = reach as)
    (hle : ∀ as, reach as = a → n ≤ as.length) : b ∉ cs.take n := by
  obtain ⟨as, bs, rfl, rfl, has⟩ := h
  rw [Nat.zero_add, List.take_left]
  intro hmem
  obtain ⟨before, after, rfl⟩ := List.append_of_mem hmem
  rw [hreach b hb] at has
  have hlength := hle before has
  simp only [List.length_append, List.length_cons] at hlength
  omega

end Reach

open Reach

variable {c : Char} {cs : List Char} {shape : Shape} {n : Nat}

theorem numberExtent_space (b : Char) (hb : isSpace b = true) (as bs : List Char) :
    numberExtent c (as ++ b :: bs) = numberExtent c as :=
  numberExtent_append (continuesNumber_of_isSpace hb)

theorem not_mem_take_of_numberExtent (h : numberExtent c cs = .ok (shape, n)) :
    '\r' ∉ cs.take n :=
  (numberExtent_ends h).1.not_mem_take (by decide) numberExtent_space
    fun _ => numberExtent_le

/-- Only comments and raw strings hold carriage returns, where a line break follows on each. -/
theorem not_mem_take_of_returnsEndLines (hcs : ReturnsEndLines cs)
    (h : extent c cs = .ok (shape, n)) :
    '\r' ∉ cs.take n ∨ shape = .comment ∨ shape = .string ∧ c = '`' := by
  rw [extent_eq_ok] at h
  cases h with
  | lineComment | blockComment => exact .inr (.inl rfl)
  | raw => exact .inr (.inr ⟨rfl, rfl⟩)
  | punctuation | star | dot => exact .inl (by simp)
  | product | ellipsis => exact .inl (by simp)
  | quoted h =>
      obtain ⟨-, k, rfl, hk⟩ := quoted_withoutReturns hcs h
      exact .inl (by rwa [Nat.zero_add])
  | rune h =>
      obtain ⟨-, k, rfl, hk⟩ := rune_withoutReturns hcs h
      exact .inl (by rwa [Nat.zero_add])
  | int _ h | float _ h => exact .inl (not_mem_take_of_numberExtent h)
  | word _ _ h =>
      refine .inl fun hmem => ?_
      rw [← h, word] at hmem
      have hword := mem_take_whileTrue hmem
      revert hword
      decide
  | operator _ _ h =>
      refine .inl ((operator_ends h).not_mem_take (by decide) ?_ ?_)
      · exact fun b hb as bs => operator_append hb
      · rintro as rfl
        simpa using operator_le 0 as

theorem length_withoutReturns_take (h : '\r' ∉ cs.take n) (hn : n ≤ cs.length) :
    (withoutReturns (cs.take n)).length = n := by
  rw [Text.withoutReturns_of_not_mem h, List.length_take, Nat.min_eq_left hn]

/-- A token is the same without the carriage returns in front of line breaks, but for those that it
holds. -/
theorem extent_withoutReturns (hcs : ReturnsEndLines cs) (h : extent c cs = .ok (shape, n)) :
    extent c (withoutReturns cs) = .ok (shape, (withoutReturns (cs.take n)).length) := by
  have hlength : '\r' ∉ cs.take n → (withoutReturns (cs.take n)).length = n :=
    fun hmem => length_withoutReturns_take hmem (extent_le h)
  have hkept := not_mem_take_of_returnsEndLines hcs h
  -- Tokens other than comments and raw strings hold no carriage return and keep their length.
  rw [extent_eq_ok] at h ⊢
  cases h with
  | @lineComment rest _ h =>
      rw [withoutReturns_cons (by decide)]
      refine .lineComment ?_
      rw [lineComment, whileTrue_withoutReturns hcs.2 (by decide), ← h, take_lineComment,
        withoutReturns_cons (by decide), List.length_cons, Nat.add_comm]
  | blockComment h =>
      obtain ⟨k, rfl, hk⟩ := blockComment_withoutReturns hcs.2 h
      rw [withoutReturns_cons (by decide)]
      refine .blockComment ?_
      rw [hk, Nat.add_comm 1 k, List.take_succ_cons, withoutReturns_cons (by decide),
        List.length_cons, Nat.add_comm 1]
  | punctuation _ h => exact .punctuation _ h
  | product =>
      rw [withoutReturns_cons (by decide)]
      exact .product _
  | star h =>
      exact .star fun hhead => h ((Text.head?_withoutReturns hcs (by decide) (by decide)).mp hhead)
  | ellipsis =>
      rw [withoutReturns_cons (by decide), withoutReturns_cons (by decide)]
      exact .ellipsis _
  | dot hdots hdigit =>
      refine .dot (fun hhead hnext => ?_) ?_
      · have hhead := (Text.head?_withoutReturns hcs (by decide) (by decide)).mp hhead
        obtain ⟨es, rfl⟩ := List.head?_eq_some_iff.mp hhead
        rw [withoutReturns_cons (by decide)] at hnext
        exact hdots rfl ((Text.head?_withoutReturns hcs.2 (by decide) (by decide)).mp hnext)
      · rw [Text.any_head?_withoutReturns hcs (by decide) (by decide), hdigit]
  | quoted h =>
      rw [hlength (by simpa using hkept)]
      exact .quoted (quoted_withoutReturns hcs h).1
  | raw h =>
      obtain ⟨k, rfl, hk⟩ := raw_withoutReturns h
      rw [Nat.zero_add]
      exact .raw (by rw [hk, Nat.zero_add])
  | rune h =>
      rw [hlength (by simpa using hkept)]
      exact .rune (rune_withoutReturns hcs h).1
  | int hdigit h =>
      rw [hlength (not_mem_take_of_numberExtent h)]
      exact .int hdigit (by rw [reach_withoutReturns hcs numberExtent_space, h])
  | float hnumber h =>
      rw [hlength (not_mem_take_of_numberExtent h)]
      refine .float ?_ (by rw [reach_withoutReturns hcs numberExtent_space, h])
      rwa [beginsNumber, Text.any_head?_withoutReturns hcs (by decide) (by decide)]
  | word hword hdigit h =>
      rw [hlength (by simpa using hkept)]
      refine .word hword hdigit ?_
      rw [word, reach_withoutReturns hcs fun b hb as bs =>
        whileTrue_append (continuesWord_of_isSpace hb)]
      exact h
  | operator hoperator hcomment h =>
      rw [hlength (by simpa using hkept)]
      refine .operator hoperator ?_ ?_
      · rintro ⟨hc, hhead⟩
        exact hcomment ⟨hc, hhead.imp (Text.head?_withoutReturns hcs (by decide) (by decide)).mp
          (Text.head?_withoutReturns hcs (by decide) (by decide)).mp⟩
      · rw [reach_withoutReturns hcs fun b hb as bs => operator_append hb]
        exact h

end Token

end DeclBridge
