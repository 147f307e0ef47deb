import DeclBridge.Proofs.Text.Split
import DeclBridge.Text.Blank

/-!
Carriage returns. A text whose lines end with a carriage return and a line break has the same lines
without the carriage returns.
-/

namespace DeclBridge.Text

def withoutReturns (cs : List Char) : List Char :=
  cs.filter (· != '\r')

/-- The text with a carriage return before every line break. -/
def withReturns : List Char → List Char
  | [] => []
  | c :: cs => if c = '\n' then '\r' :: c :: withReturns cs else c :: withReturns cs

/-- Whether a line break follows on every carriage return. -/
def ReturnsEndLines : List Char → Prop
  | [] => True
  | c :: cs => (c = '\r' → cs.head? = some '\n') ∧ ReturnsEndLines cs

instance : (cs : List Char) → Decidable (ReturnsEndLines cs)
  | [] => .isTrue True.intro
  | _ :: cs => @instDecidableAnd _ _ _ (instDecidableReturnsEndLines cs)

variable {c d : Char} {cs ds : List Char} {n : Nat}

theorem withoutReturns_cons (hc : c ≠ '\r') :
    withoutReturns (c :: cs) = c :: withoutReturns cs :=
  List.filter_cons_of_pos (by simpa using hc)

theorem withoutReturns_return : withoutReturns ('\r' :: cs) = withoutReturns cs :=
  List.filter_cons_of_neg (by simp)

theorem withoutReturns_append (cs ds : List Char) :
    withoutReturns (cs ++ ds) = withoutReturns cs ++ withoutReturns ds :=
  List.filter_append ..

theorem not_mem_withoutReturns (cs : List Char) : '\r' ∉ withoutReturns cs := by
  simp [withoutReturns]

theorem mem_withoutReturns (hc : c ≠ '\r') : c ∈ withoutReturns cs ↔ c ∈ cs := by
  simp [withoutReturns, hc]

theorem withoutReturns_of_not_mem (h : '\r' ∉ cs) : withoutReturns cs = cs := by
  rw [withoutReturns, List.filter_eq_self]
  intro c hc
  exact bne_iff_ne.mpr fun heq => h (heq ▸ hc)

theorem count_withoutReturns (cs : List Char) : (withoutReturns cs).count '\n' = cs.count '\n' :=
  List.count_filter (by decide)

theorem returnsEndLines_of_not_mem (h : '\r' ∉ cs) : ReturnsEndLines cs := by
  induction cs with
  | nil => exact True.intro
  | cons c cs ih =>
      rw [List.mem_cons, not_or] at h
      exact ⟨fun hc => absurd hc.symm h.1, ih h.2⟩

theorem ReturnsEndLines.suffix (h : ReturnsEndLines cs) (hds : ds <:+ cs) : ReturnsEndLines ds := by
  induction cs with
  | nil => rwa [List.suffix_nil.mp hds]
  | cons c cs ih =>
      rcases List.suffix_cons_iff.mp hds with rfl | hds
      · exact h
      · exact ih h.2 hds

theorem ReturnsEndLines.drop (h : ReturnsEndLines cs) (n : Nat) : ReturnsEndLines (cs.drop n) :=
  h.suffix (List.drop_suffix n cs)

theorem ReturnsEndLines.exists_eq (h : ReturnsEndLines ('\r' :: cs)) : ∃ ds, cs = '\n' :: ds := by
  cases cs with
  | nil => simpa using h.1 rfl
  | cons c cs =>
      have hc : c = '\n' := by simpa using h.1 rfl
      exact ⟨cs, by rw [hc]⟩

theorem head?_withoutReturns (h : ReturnsEndLines cs) (hbreak : d ≠ '\n') (hreturn : d ≠ '\r') :
    (withoutReturns cs).head? = some d ↔ cs.head? = some d := by
  cases cs with
  | nil => rfl
  | cons c cs =>
      by_cases hc : c = '\r'
      · subst hc
        obtain ⟨ds, rfl⟩ := h.exists_eq
        rw [withoutReturns_return, withoutReturns_cons (by decide)]
        simp [hbreak.symm, hreturn.symm]
      · rw [withoutReturns_cons hc]
        rfl

theorem any_head?_withoutReturns {p : Char → Bool} (h : ReturnsEndLines cs)
    (hbreak : p '\n' = false) (hreturn : p '\r' = false) : (withoutReturns cs).head?.any p = cs.head?.any p := by
  cases cs with
  | nil => rfl
  | cons c cs =>
      by_cases hc : c = '\r'
      · subst hc
        obtain ⟨ds, rfl⟩ := h.exists_eq
        rw [withoutReturns_return, withoutReturns_cons (by decide)]
        simp [hbreak, hreturn]
      · rw [withoutReturns_cons hc]
        rfl

theorem takeWhile_withoutReturns {p : Char → Bool} (h : ReturnsEndLines cs)
    (hbreak : p '\n' = false) :
    (withoutReturns cs).takeWhile p = withoutReturns (cs.takeWhile p) := by
  induction cs with
  | nil => rfl
  | cons c cs ih =>
      by_cases hc : c = '\r'
      · subst hc
        obtain ⟨ds, rfl⟩ := h.exists_eq
        rw [withoutReturns_return, withoutReturns_cons (by decide),
          List.takeWhile_cons_of_neg (by simp [hbreak])]
        by_cases hp : p '\r' = true
        · rw [List.takeWhile_cons_of_pos hp, List.takeWhile_cons_of_neg (by simp [hbreak])]
          rfl
        · rw [List.takeWhile_cons_of_neg hp]
          rfl
      · rw [withoutReturns_cons hc]
        by_cases hp : p c = true
        · rw [List.takeWhile_cons_of_pos hp, List.takeWhile_cons_of_pos hp, ih h.2,
            withoutReturns_cons hc]
        · rw [List.takeWhile_cons_of_neg hp, List.takeWhile_cons_of_neg hp]
          rfl

theorem take_withoutReturns (cs : List Char) (n : Nat) :
    (withoutReturns cs).take (withoutReturns (cs.take n)).length = withoutReturns (cs.take n) := by
  have h := withoutReturns_append (cs.take n) (cs.drop n)
  rw [List.take_append_drop] at h
  rw [h, List.take_left]

theorem drop_withoutReturns (cs : List Char) (n : Nat) :
    (withoutReturns cs).drop (withoutReturns (cs.take n)).length = withoutReturns (cs.drop n) := by
  have h := withoutReturns_append (cs.take n) (cs.drop n)
  rw [List.take_append_drop] at h
  rw [h, List.drop_left]

/-- In front of any text, what ends with another character than a carriage return is as good. -/
theorem ReturnsEndLines.of_append (h : ReturnsEndLines (cs ++ ds))
    (hlast : cs.getLast? ≠ some '\r') : ReturnsEndLines cs := by
  induction cs with
  | nil => exact True.intro
  | cons c cs ih =>
      cases cs with
      | nil => exact ⟨fun hc => absurd (by rw [hc]; rfl) hlast, True.intro⟩
      | cons d cs =>
          rw [List.getLast?_cons_cons] at hlast
          exact ⟨h.1, ih h.2 hlast⟩

theorem ReturnsEndLines.getLast?_ne (h : ReturnsEndLines (cs ++ ds)) (hds : ds.head? ≠ some '\n') :
    cs.getLast? ≠ some '\r' := by
  intro hlast
  obtain ⟨front, rfl⟩ := List.getLast?_eq_some_iff.mp hlast
  rw [List.append_assoc] at h
  exact hds ((h.suffix (List.suffix_append _ _)).1 rfl)

theorem exists_of_withoutReturns_eq (hlast : cs.getLast? ≠ some '\r')
    (h : withoutReturns cs = ds ++ [d]) :
    ∃ front, cs = front ++ [d] ∧ withoutReturns front = ds := by
  rcases List.eq_nil_or_concat cs with rfl | ⟨front, c, rfl⟩
  · simp [withoutReturns] at h
  · rw [List.concat_eq_append] at *
    have hc : c ≠ '\r' := by
      rintro rfl
      simp at hlast
    rw [withoutReturns_append, withoutReturns_cons hc] at h
    obtain ⟨hfront, hd⟩ := List.append_inj' h rfl
    cases hd
    exact ⟨front, rfl, hfront⟩

/-- Within a line a carriage return is the last character. -/
theorem ReturnsEndLines.not_mem_dropLast (h : ReturnsEndLines (cs ++ ds)) (hbreak : '\n' ∉ cs) :
    '\r' ∉ cs.dropLast := by
  induction cs with
  | nil => simp
  | cons c cs ih =>
      rw [List.mem_cons, not_or] at hbreak
      cases cs with
      | nil => simp
      | cons d cs =>
          rw [List.dropLast_cons_of_ne_nil (by simp), List.mem_cons, not_or]
          refine ⟨?_, ih h.2 hbreak.2⟩
          rintro rfl
          exact hbreak.2 (by simpa using Or.inl (Option.some.inj (h.1 rfl)).symm)

theorem eq_withoutReturns (h : '\r' ∉ cs.dropLast) :
    cs = withoutReturns cs ∨ cs = withoutReturns cs ++ ['\r'] := by
  rcases List.eq_nil_or_concat cs with rfl | ⟨front, c, rfl⟩
  · exact .inl rfl
  · rw [List.concat_eq_append, List.dropLast_concat] at *
    rw [withoutReturns_append, withoutReturns_of_not_mem h]
    by_cases hc : c = '\r'
    · subst hc
      exact .inr (by rw [withoutReturns_return]; simp [withoutReturns])
    · exact .inl (by rw [withoutReturns_cons hc]; rfl)

theorem split_withoutReturns (cs : List Char) :
    split '\n' (withoutReturns cs) = (split '\n' cs).map withoutReturns := by
  induction cs with
  | nil => rfl
  | cons c cs ih =>
      obtain ⟨piece, pieces, hsplit, -⟩ := exists_split '\n' cs
      rw [hsplit] at ih
      rw [split, hsplit]
      by_cases hc : c = '\r'
      · subst hc
        rw [withoutReturns_return, ih]
        dsimp only
        rw [if_neg (by decide), List.map_cons, List.map_cons, withoutReturns_return]
      · rw [withoutReturns_cons hc, split, ih, List.map_cons]
        dsimp only
        split
        · rfl
        · rw [List.map_cons, withoutReturns_cons hc]

theorem trim_append_return (cs : List Char) : trim (cs ++ ['\r']) = trim cs := by
  have hblank : isBlank '\r' = true := by decide
  rw [trim, trim, List.dropWhile_append]
  split
  · rename_i hnil
    rw [List.isEmpty_iff.mp hnil]
    simp [hblank]
  · simp [hblank]

theorem trim_withoutReturns (h : '\r' ∉ cs.dropLast) : trim (withoutReturns cs) = trim cs := by
  rcases eq_withoutReturns h with hcs | hcs
  · rw [← hcs]
  · conv_rhs => rw [hcs, trim_append_return]

/-- The lines are the same up to white space around them. -/
theorem map_trim_split (h : ReturnsEndLines cs) :
    (split '\n' (withoutReturns cs)).map trim = (split '\n' cs).map trim := by
  rw [split_withoutReturns, List.map_map]
  refine List.map_congr_left fun line hline => ?_
  obtain ⟨front, back, hcs⟩ := isInfix_of_mem_split hline
  obtain ⟨piece, pieces, hsplit, -, hpieces⟩ := exists_split '\n' cs
  rw [hsplit] at hline
  rw [← hcs, List.append_assoc] at h
  exact trim_withoutReturns
    ((h.suffix (List.suffix_append _ _)).not_mem_dropLast (hpieces line hline))

theorem withoutReturns_withReturns (h : '\r' ∉ cs) : withoutReturns (withReturns cs) = cs := by
  induction cs with
  | nil => rfl
  | cons c cs ih =>
      rw [List.mem_cons, not_or] at h
      rw [withReturns]
      split
      · rw [withoutReturns_return, withoutReturns_cons (Ne.symm h.1), ih h.2]
      · rw [withoutReturns_cons (Ne.symm h.1), ih h.2]

theorem returnsEndLines_withReturns (h : '\r' ∉ cs) : ReturnsEndLines (withReturns cs) := by
  induction cs with
  | nil => exact True.intro
  | cons c cs ih =>
      rw [List.mem_cons, not_or] at h
      rw [withReturns]
      split
      · rename_i hc
        exact ⟨fun _ => by simp [hc], fun heq => absurd heq.symm h.1, ih h.2⟩
      · exact ⟨fun heq => absurd heq.symm h.1, ih h.2⟩

end DeclBridge.Text
