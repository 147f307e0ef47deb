import DeclBridge.Proofs.Naming.Recasing

/-!
Acronyms in names. An acronym is in capitals, and where it is found all of them but the first become
small letters. So no acronym of a table is left in a name: neither one that overlaps another, nor
one that a later replacement could bring back.
-/

namespace DeclBridge

namespace Text

/-- Whether a text is another one with some of its ASCII capitals in small form. -/
def Lowered (cs ds : List Char) : Prop :=
  List.Forall₂ (fun c d => d = c ∨ d = c.toLower) cs ds

namespace Lowered

variable {cs ds es x : List Char}

theorem refl (cs : List Char) : Lowered cs cs :=
  List.forall₂_same.mpr fun _ _ => .inl rfl

theorem trans (hcs : Lowered cs ds) (hds : Lowered ds es) : Lowered cs es := by
  induction hcs generalizing es with
  | nil => exact hds
  | cons hd _ ih =>
      obtain _ | ⟨he, hds⟩ := hds
      refine .cons ?_ (ih hds)
      rcases hd with rfl | rfl
      · exact he
      · exact .inr (by simpa using he)

theorem map_toLower (h : Lowered cs ds) : ds.map Char.toLower = cs.map Char.toLower := by
  induction h with
  | nil => rfl
  | cons hd _ ih =>
      rw [List.map_cons, List.map_cons, ih]
      rcases hd with rfl | rfl
      · rfl
      · rw [Char.toLower_toLower_eq_toLower]

theorem prefix_of_isUpper (h : Lowered cs ds) (hx : ∀ c ∈ x, c.isUpper = true)
    (hbegin : x <+: ds) : x <+: cs := by
  induction h generalizing x with
  | nil => exact hbegin
  | @cons c d cs ds hd _ ih =>
      cases x with
      | nil => exact List.nil_prefix
      | cons y x =>
          obtain ⟨hy, hx⟩ := List.forall_mem_cons.mp hx
          obtain ⟨rfl, hrest⟩ := List.cons_prefix_cons.mp hbegin
          rcases hd with rfl | rfl
          · exact List.cons_prefix_cons.mpr ⟨rfl, ih hx hrest⟩
          · rw [Char.isUpper_toLower_eq_false] at hy
            cases hy

theorem infix_of_isUpper (h : Lowered cs ds) (hx : ∀ c ∈ x, c.isUpper = true)
    (hholds : x <:+: ds) : x <:+: cs := by
  induction h with
  | nil => exact hholds
  | cons hd h ih =>
      rcases List.infix_cons_iff.mp hholds with hbegin | hrest
      · exact (prefix_of_isUpper (.cons hd h) hx hbegin).isInfix
      · exact List.infix_cons (ih hrest)

end Lowered

variable {pattern replacement ds x : List Char}

theorem lowered_replaceAll (h : Lowered pattern replacement) (cs : List Char) :
    Lowered cs (replaceAll pattern replacement cs) := by
  fun_induction replaceAll pattern replacement cs with
  | case1 => exact .nil
  | case2 c cs hprefix ih =>
      have hcs := append_drop_of_prefix hprefix.1 (List.isPrefixOf_iff_prefix.mp hprefix.2)
      rw [← hcs]
      exact List.rel_append h ih
  | case3 c cs _ ih => exact .cons (.inl rfl) ih

theorem infix_of_infix_append {cs : List Char} (hds : ∀ d ∈ ds, d ∉ x) (h : x <:+: ds ++ cs) :
    x <:+: cs := by
  induction ds with
  | nil => exact h
  | cons d ds ih =>
      obtain ⟨hd, hds⟩ := List.forall_mem_cons.mp hds
      rcases List.infix_cons_iff.mp h with hprefix | hinfix
      · cases x with
        | nil => exact List.nil_infix
        | cons y x =>
            obtain ⟨rfl, -⟩ := List.cons_prefix_cons.mp hprefix
            exact absurd List.mem_cons_self hd
      · exact ih hds hinfix

theorem upper_of_isUpper {c : Char} (h : c.isUpper = true) : upper c = [c] :=
  ascii_cases (P := fun c => c.isUpper = true → upper c = [c]) (by decide +kernel)
    (toNat_lt_of_isUpper h) h

end Text

namespace Naming

open Text (IsAscii Lowered replaceAll)

/-- Whether a text is two or more ASCII capitals. -/
def IsAcronym (a : List Char) : Prop :=
  2 ≤ a.length ∧ ∀ c ∈ a, c.isUpper = true

instance (a : List Char) : Decidable (IsAcronym a) :=
  @instDecidableAnd _ _ _ (List.decidableBAll (fun c : Char => c.isUpper = true) a)

variable {a : List Char}

theorem IsAcronym.isAscii (h : IsAcronym a) : IsAscii a :=
  fun c hc => Text.toNat_lt_of_isUpper (h.2 c hc)

theorem IsAcronym.titleCase (h : IsAcronym a) :
    ∃ c d cs, a = c :: d :: cs ∧ Naming.titleCase a = c :: (d :: cs).map Char.toLower := by
  match a, h with
  | c :: d :: cs, h =>
      have hrest : IsAscii (d :: cs) := fun e he => h.isAscii e (List.mem_cons_of_mem c he)
      refine ⟨c, d, cs, rfl, ?_⟩
      rw [Naming.titleCase, Text.upper_of_isUpper (h.2 c List.mem_cons_self),
        Text.flatMap_lower_ascii hrest, List.singleton_append]

theorem IsAcronym.lowered_titleCase (h : IsAcronym a) : Lowered a (Naming.titleCase a) := by
  obtain ⟨c, d, cs, rfl, htitle⟩ := h.titleCase
  rw [htitle]
  refine .cons (.inl rfl) (List.forall₂_map_right_iff.mpr ?_)
  exact List.forall₂_same.mpr fun _ _ => .inr rfl

/-- An acronym that is replaced does not stand in the name any more. It cannot begin in a replaced
one, whose second letter is small, and where it is not replaced it did not stand before. -/
theorem IsAcronym.not_infix_replaceAll (h : IsAcronym a) (cs : List Char) :
    ¬ a <:+: replaceAll a (Naming.titleCase a) cs := by
  have hlowered := Text.lowered_replaceAll h.lowered_titleCase
  obtain ⟨p, q, ps, ha, htitle⟩ := h.titleCase
  have hsmall : ∀ c ∈ (q :: ps).map Char.toLower, c ∉ a := by
    intro c hc hmem
    obtain ⟨d, -, rfl⟩ := List.mem_map.mp hc
    have hupper := h.2 _ hmem
    rw [Char.isUpper_toLower_eq_false] at hupper
    cases hupper
  have hlower : q.toLower ≠ q := fun heq =>
    hsmall q (by simp [heq]) (by simp [ha])
  fun_induction replaceAll a (Naming.titleCase a) cs with
  | case1 => simp [ha]
  | case2 c cs hprefix ih =>
      generalize replaceAll a (Naming.titleCase a) _ = rest at ih ⊢
      intro hinfix
      rw [htitle, List.cons_append] at hinfix
      rcases List.infix_cons_iff.mp hinfix with hbegin | hrest
      · rw [ha, List.cons_prefix_cons, List.map_cons, List.cons_append,
          List.cons_prefix_cons] at hbegin
        exact hlower hbegin.2.1.symm
      · exact ih (Text.infix_of_infix_append hsmall hrest)
  | case3 c cs hprefix ih =>
      intro hinfix
      rcases List.infix_cons_iff.mp hinfix with hbegin | hrest
      · have hstood := Lowered.prefix_of_isUpper (.cons (.inl rfl) (hlowered cs)) h.2 hbegin
        exact hprefix ⟨by simp [ha], List.isPrefixOf_iff_prefix.mpr hstood⟩
      · exact ih hrest

variable {acronyms : List String}

theorem lowered_normalizeAcronyms (h : ∀ a ∈ acronyms, IsAcronym a.toList) (name : List Char) :
    Lowered name (normalizeAcronyms acronyms name) := by
  induction acronyms generalizing name with
  | nil => exact Lowered.refl name
  | cons a acronyms ih =>
      obtain ⟨ha, hacronyms⟩ := List.forall_mem_cons.mp h
      exact (Text.lowered_replaceAll ha.lowered_titleCase name).trans (ih hacronyms _)

theorem not_infix_normalizeAcronyms (h : ∀ a ∈ acronyms, IsAcronym a.toList) (name : List Char) :
    ∀ a ∈ acronyms, ¬ a.toList <:+: normalizeAcronyms acronyms name := by
  induction acronyms generalizing name with
  | nil => exact nofun
  | cons a acronyms ih =>
      obtain ⟨ha, hacronyms⟩ := List.forall_mem_cons.mp h
      intro b hb
      rcases List.mem_cons.mp hb with rfl | hb
      · -- What later replacements leave of its capitals was there when it was replaced.
        intro hinfix
        have hlater := lowered_normalizeAcronyms hacronyms
          (replaceAll b.toList (titleCase b.toList) name)
        exact ha.not_infix_replaceAll name (hlater.infix_of_isUpper ha.2 hinfix)
      · exact ih hacronyms _ b hb

/-- After a table of acronyms is applied to a name, none of them stands in it any more, only the
case of letters has changed, and nothing is left to do. -/
theorem normalizeAcronyms_complete (h : ∀ a ∈ acronyms, IsAcronym a.toList) (name : List Char) :
    (∀ a ∈ acronyms, ¬ a.toList <:+: normalizeAcronyms acronyms name) ∧
      (normalizeAcronyms acronyms name).length = name.length ∧
      (normalizeAcronyms acronyms name).map Char.toLower = name.map Char.toLower ∧
      normalizeAcronyms acronyms (normalizeAcronyms acronyms name) =
        normalizeAcronyms acronyms name := by
  have hnone := not_infix_normalizeAcronyms h name
  have hlowered := lowered_normalizeAcronyms h name
  exact ⟨hnone, hlowered.length_eq.symm, hlowered.map_toLower,
    normalizeAcronyms_of_not_infix hnone⟩

/-- Neither overlaps of one acronym with itself or another, nor what a first replacement parts from
its neighbours, leave an acronym behind. -/
theorem normalizeAcronyms_complete_overlaps :
    let acronyms := ["SHS", "HS", "SSH"]
    let text := normalizeAcronyms acronyms "SHSHSSHéSSSHS".toList
    text = "ShsHsSHéSSShs".toList ∧ (∀ a ∈ acronyms, ¬ a.toList <:+: text) ∧
      normalizeAcronyms acronyms text = text := by
  intro acronyms text
  have htext : text = "ShsHsSHéSSShs".toList := by decide +kernel
  obtain ⟨hnone, -, -, hagain⟩ :=
    @normalizeAcronyms_complete acronyms (by decide) "SHSHSSHéSSSHS".toList
  exact ⟨htext, hnone, hagain⟩

end Naming

end DeclBridge
