import DeclBridge.Text.Split
import Mathlib.Data.List.Basic

/-!
Texts and their pieces. The pieces of a text hold no separator, and with separators between them
they are the text again.
-/

namespace DeclBridge

namespace Text

/-- A text is its pieces with the separator between them, which is in none of them. -/
theorem exists_split (sep : Char) (cs : List Char) :
    ∃ piece pieces, split sep cs = piece :: pieces ∧ cs = [sep].intercalate (piece :: pieces) ∧
      ∀ p ∈ piece :: pieces, sep ∉ p := by
  induction cs with
  | nil => exact ⟨[], [], rfl, rfl, by simp⟩
  | cons c cs ih =>
      obtain ⟨piece, pieces, hsplit, htext, hpieces⟩ := ih
      by_cases hc : c = sep
      · refine ⟨[], piece :: pieces, by rw [split, hsplit]; simp [hc], ?_, by simpa using hpieces⟩
        rw [List.intercalate_cons_cons, ← htext, hc]
        rfl
      · refine ⟨c :: piece, pieces, by rw [split, hsplit]; simp [hc], ?_, ?_⟩
        · rw [htext]
          cases pieces with
          | nil => simp
          | cons next pieces => simp [List.intercalate_cons_cons]
        · intro p hp
          rcases List.mem_cons.mp hp with rfl | hp
          · rw [List.mem_cons, not_or]
            exact ⟨Ne.symm hc, hpieces piece (by simp)⟩
          · exact hpieces p (List.mem_cons_of_mem _ hp)

theorem split_of_not_mem {sep : Char} {cs : List Char} (h : sep ∉ cs) : split sep cs = [cs] := by
  induction cs with
  | nil => rfl
  | cons c cs ih =>
      rw [List.mem_cons, not_or] at h
      rw [split, ih h.2]
      simp [Ne.symm h.1]

theorem split_append (sep : Char) (cs ds : List Char) :
    split sep (cs ++ sep :: ds) = split sep cs ++ split sep ds := by
  obtain ⟨piece, pieces, hds, -⟩ := exists_split sep ds
  induction cs with
  | nil => simp [split, hds]
  | cons c cs ih =>
      obtain ⟨first, others, hcs, -⟩ := exists_split sep cs
      rw [hcs] at ih
      rw [List.cons_append, split, split, ih, hcs, List.cons_append]
      by_cases hc : c = sep <;> simp [hc]

theorem split_intercalate {sep : Char} {piece : List Char} {pieces : List (List Char)}
    (h : ∀ p ∈ piece :: pieces, sep ∉ p) :
    split sep ([sep].intercalate (piece :: pieces)) = piece :: pieces := by
  induction pieces generalizing piece with
  | nil =>
      rw [List.intercalate_singleton]
      exact split_of_not_mem (h piece (by simp))
  | cons next pieces ih =>
      rw [List.intercalate_cons_cons, List.append_assoc, List.singleton_append,
        split_append, split_of_not_mem (h piece (by simp)), ih, List.singleton_append]
      intro p hp
      exact h p (List.mem_cons_of_mem _ hp)

theorem mem_intercalate {sep c : Char} {pieces : List (List Char)}
    (h : c ∈ [sep].intercalate pieces) : c = sep ∨ ∃ p ∈ pieces, c ∈ p := by
  induction pieces with
  | nil => simp at h
  | cons piece pieces ih =>
      cases pieces with
      | nil => exact .inr ⟨piece, by simp, by simpa using h⟩
      | cons next pieces =>
          rw [List.intercalate_cons_cons, List.mem_append, List.mem_append] at h
          rcases h with (hpiece | hsep) | hrest
          · exact .inr ⟨piece, by simp, hpiece⟩
          · exact .inl (List.mem_singleton.mp hsep)
          · refine (ih hrest).imp_right ?_
            rintro ⟨p, hp, hc⟩
            exact ⟨p, List.mem_cons_of_mem _ hp, hc⟩

theorem isInfix_of_mem_split {sep : Char} {cs piece : List Char} (h : piece ∈ split sep cs) :
    piece <:+: cs := by
  obtain ⟨first, pieces, hsplit, htext, -⟩ := exists_split sep cs
  rw [hsplit] at h
  rw [htext]
  generalize first :: pieces = all at h
  induction all with
  | nil => simp at h
  | cons other all ih =>
      cases all with
      | nil => simp [List.mem_singleton.mp h]
      | cons next all =>
          rw [List.intercalate_cons_cons]
          rcases List.mem_cons.mp h with rfl | h
          · rw [List.append_assoc]
            exact (List.prefix_append _ _).isInfix
          · exact (ih h).trans (List.suffix_append _ _).isInfix

end Text

end DeclBridge
