import DeclBridge.Proofs.Grammar.Nesting
import DeclBridge.Proofs.Grammar.Span
import DeclBridge.Proofs.Scan.Tokens

/-!
Reading of tokens that move and that others follow. A derivation looks at kinds and at differences
of lines, and at one token behind what it takes, so it goes through as long as there is such a token.
-/

namespace DeclBridge

namespace Cursor

open Token (Moves)

/-- The second place is the first one `k` lines below, and `more` follows its tokens. -/
structure Relocates (k : Nat) (more : List Token) (c d : Cursor) : Prop where
  line : d.line = c.line + k
  rest : Token.Relocates k more c.rest d.rest

variable {k : Nat} {more ts us : List Token} {c : Cursor}

theorem relocates_first {t u : Token} (htu : Moves k t u) (h : Token.Relocates k more ts us) :
    Relocates k more ⟨t.line, ts⟩ ⟨u.line, us⟩ :=
  ⟨htu.line, h⟩

theorem head?_relocates {α : Type} (f : Token.Kind → α) (h : Token.Relocates k more ts us)
    (hmore : ts ≠ [] ∨ more = []) : us.head?.map (f ·.kind) = ts.head?.map (f ·.kind) := by
  cases h with
  | nil => simp [hmore.resolve_left (fun h => h rfl)]
  | cons ht => simp [ht.kind]

theorem any_head?_relocates {p : Token.Kind → Bool} (h : Token.Relocates k more ts us)
    (hmore : ts ≠ [] ∨ more = []) : us.head?.any (p ·.kind) = ts.head?.any (p ·.kind) := by
  have hhead := head?_relocates p h hmore
  cases hts : ts.head? <;> cases hus : us.head? <;> simp_all

theorem all_head?_relocates {p : Token.Kind → Bool} (h : Token.Relocates k more ts us)
    (hmore : ts ≠ [] ∨ more = []) : us.head?.all (p ·.kind) = ts.head?.all (p ·.kind) := by
  have hhead := head?_relocates p h hmore
  cases hts : ts.head? <;> cases hus : us.head? <;> simp_all

theorem nextIs_relocates {kind : Token.Kind} (h : Token.Relocates k more ts us)
    (hmore : ts ≠ [] ∨ more = []) : nextIs kind us = nextIs kind ts :=
  any_head?_relocates (p := fun other => decide (other = kind)) h hmore

theorem ne_nil_of_nextIs {kind : Token.Kind} (h : nextIs kind ts = true) : ts ≠ [] := by
  obtain ⟨t, us, rfl, -⟩ := nextIs_iff.mp h
  simp

theorem afterGroup?_relocates {depth : Nat} (h : afterGroup? depth ts = some c)
    (hts : Token.Relocates k more ts us) :
    ∃ d, afterGroup? depth us = some d ∧ Relocates k more c d := by
  induction hts generalizing depth with
  | nil => simp [afterGroup?] at h
  | @cons t u ts us htu hts ih =>
      rcases t.kind.bracket_cases with ⟨bracket, ht⟩ | ⟨bracket, ht⟩ | ht
      · rw [afterGroup?_opening ht] at h
        rw [afterGroup?_opening (htu.kind.trans ht)]
        exact ih h
      · cases depth with
        | zero =>
            rw [afterGroup?_close ht] at h
            cases h
            exact ⟨_, afterGroup?_close (htu.kind.trans ht), relocates_first htu hts⟩
        | succ depth =>
            rw [afterGroup?_closing ht] at h
            rw [afterGroup?_closing (htu.kind.trans ht)]
            exact ih h
      · rw [afterGroup?_other ht] at h
        rw [afterGroup?_other (by rw [htu.kind]; exact ht)]
        exact ih h

theorem groups_relocates (h : Groups ts c) (hts : Token.Relocates k more ts us) :
    ∃ d, Groups us d ∧ Relocates k more c d := by
  obtain ⟨t, vs, bracket, rfl, ht, hc⟩ := h
  cases hts with
  | cons htu hts =>
      obtain ⟨d, hd, hcd⟩ := afterGroup?_relocates hc hts
      exact ⟨d, ⟨_, _, bracket, rfl, htu.kind.trans ht, hd⟩, hcd⟩

theorem nextIs_braces_relocates (h : Groups ts c) (hts : Token.Relocates k more ts us) :
    (nextIs (.opening .curly) us && nextIs (.closing .curly) us.tail) =
      (nextIs (.opening .curly) ts && nextIs (.closing .curly) ts.tail) := by
  obtain ⟨t, vs, bracket, rfl, ht, hc⟩ := h
  obtain _ | ⟨htu, hts⟩ := hts
  rw [List.tail_cons, List.tail_cons, nextIs_cons, nextIs_cons, htu.kind,
    nextIs_relocates hts (.inl (behind_afterGroup? hc).ne_nil)]

end Cursor

namespace TypeExpr

open Cursor

variable {k : Nat} {more ts us : List Token} {c d c' : Cursor}

theorem afterLength?_relocates {depth : Nat} (h : afterLength? depth ts = some c)
    (hts : Token.Relocates k more ts us) :
    ∃ d, afterLength? depth us = some d ∧ Relocates k more c d := by
  induction hts generalizing depth with
  | nil => simp [afterLength?] at h
  | @cons t u ts us htu hts ih =>
      rcases t.kind.bracket_cases with ⟨bracket, ht⟩ | ⟨bracket, ht⟩ | ht
      · rw [afterLength?_opening ht] at h
        rw [afterLength?_opening (htu.kind.trans ht)]
        exact ih h
      · by_cases hclose : bracket = .square ∧ depth = 0
        · obtain ⟨rfl, rfl⟩ := hclose
          rw [afterLength?_close ht] at h
          cases h
          exact ⟨_, afterLength?_close (htu.kind.trans ht), relocates_first htu hts⟩
        · have hdeep : bracket ≠ .square ∨ depth ≠ 0 := Decidable.not_and_iff_or_not.mp hclose
          rw [afterLength?_closing ht hdeep] at h
          rw [afterLength?_closing (htu.kind.trans ht) hdeep]
          exact ih h
      · rw [afterLength?_other ht] at h
        rw [afterLength?_other (by rw [htu.kind]; exact ht)]
        exact ih h

theorem endsLength_relocates {simple length : TypeExpr} (h : EndsLength simple ts length c)
    (hts : Token.Relocates k more ts us) :
    ∃ d, EndsLength simple us length d ∧ Relocates k more c d := by
  obtain ⟨hc, rfl⟩ := h
  obtain ⟨d, hd, hcd⟩ := afterLength?_relocates hc hts
  refine ⟨d, ⟨hd, ?_⟩, hcd⟩
  rw [nextIs_relocates hts (.inl (by rintro rfl; simp [afterLength?] at hc))]

theorem readsMember_relocates {name : String} {type : TypeExpr} (h : ReadsMember name c type d)
    (hc : Relocates k more c c') (hmore : d.rest ≠ [] ∨ more = []) :
    ∃ d', ReadsMember name c' type d' ∧ Relocates k more d d' := by
  rcases c' with ⟨line', rest'⟩
  obtain ⟨hline, hrest⟩ := hc
  cases h with
  | alone hdot => exact ⟨_, .alone (by rw [nextIs_relocates hrest hmore, hdot]), hline, hrest⟩
  | member ht hu =>
      obtain _ | ⟨htt, _ | ⟨huu, hrest⟩⟩ := hrest
      exact ⟨_, .member (htt.kind.trans ht) (huu.kind.trans hu), relocates_first huu hrest⟩

theorem readsLength_relocates {length : TypeExpr} (h : ReadsLength ts length c)
    (hts : Token.Relocates k more ts us) :
    ∃ d, ReadsLength us length d ∧ Relocates k more c d := by
  cases h with
  | int ht he =>
      obtain _ | ⟨htu, hts⟩ := hts
      obtain ⟨d, hd, hcd⟩ := endsLength_relocates he hts
      exact ⟨d, .int (htu.kind.trans ht) hd, hcd⟩
  | counted ht he =>
      obtain _ | ⟨htu, hts⟩ := hts
      obtain ⟨d, hd, hcd⟩ := endsLength_relocates he hts
      exact ⟨d, .counted (htu.kind.trans ht) hd, hcd⟩
  | name ht hm he =>
      obtain _ | ⟨htu, hts⟩ := hts
      have hrest := (behind_afterLength? he.1).ne_nil
      obtain ⟨e, hm', hce⟩ := readsMember_relocates hm (relocates_first htu hts) (.inl hrest)
      obtain ⟨d, hd, hcd⟩ := endsLength_relocates he hce.rest
      exact ⟨d, .name (htu.kind.trans ht) hm' hd, hcd⟩
  | computed ht he =>
      obtain _ | ⟨htu, hts⟩ := hts
      obtain ⟨d, hd, hcd⟩ := endsLength_relocates he (.cons htu hts)
      exact ⟨d, .computed (by rw [htu.kind]; exact ht) hd, hcd⟩

/-- A type expression stays one where its tokens are moved and others follow. -/
theorem reads_relocates {type : TypeExpr} (h : Reads ts type c)
    (hts : Token.Relocates k more ts us) (hmore : c.rest ≠ [] ∨ more = []) :
    ∃ d, Reads us type d ∧ Relocates k more c d := by
  induction h generalizing us with
  | name ht hm =>
      obtain _ | ⟨htu, hts⟩ := hts
      obtain ⟨d, hd, hcd⟩ := readsMember_relocates hm (relocates_first htu hts) hmore
      exact ⟨d, .name (htu.kind.trans ht) hd, hcd⟩
  | pointer ht _ ih =>
      obtain _ | ⟨htu, hts⟩ := hts
      obtain ⟨d, hd, hcd⟩ := ih hts hmore
      exact ⟨d, .pointer (htu.kind.trans ht) hd, hcd⟩
  | slice ht hu _ ih =>
      obtain _ | ⟨htt, _ | ⟨huu, hts⟩⟩ := hts
      obtain ⟨d, hd, hcd⟩ := ih hts hmore
      exact ⟨d, .slice (htt.kind.trans ht) (huu.kind.trans hu) hd, hcd⟩
  | array ht hclosing hl _ ih =>
      obtain _ | ⟨htu, hts⟩ := hts
      obtain ⟨e, he, hce⟩ := readsLength_relocates hl hts
      obtain ⟨d, hd, hcd⟩ := ih hce.rest hmore
      refine ⟨d, .array (htu.kind.trans ht) ?_ he hd, hcd⟩
      rw [nextIs_relocates hts (.inl (behind_of_readsLength hl).ne_nil), hclosing]
  | parens ht _ hu ih =>
      obtain _ | ⟨htt, hts⟩ := hts
      obtain ⟨⟨line, rest⟩, hd, hcd⟩ := ih hts (.inl (by simp))
      obtain ⟨-, _ | ⟨huu, hrest⟩⟩ := hcd
      exact ⟨_, .parens (htt.kind.trans ht) hd (huu.kind.trans hu), relocates_first huu hrest⟩
  | receiver ht hu _ ih =>
      obtain _ | ⟨htt, _ | ⟨huu, hts⟩⟩ := hts
      obtain ⟨d, hd, hcd⟩ := ih hts hmore
      exact ⟨d, .receiver (htt.kind.trans ht) (huu.kind.trans hu) hd, hcd⟩
  | sender ht hu _ ih =>
      obtain _ | ⟨htt, _ | ⟨huu, hts⟩⟩ := hts
      obtain ⟨d, hd, hcd⟩ := ih hts hmore
      exact ⟨d, .sender (htt.kind.trans ht) (huu.kind.trans hu) hd, hcd⟩
  | channel ht harrow hr ih =>
      obtain _ | ⟨htu, hts⟩ := hts
      obtain ⟨d, hd, hcd⟩ := ih hts hmore
      refine ⟨d, .channel (htu.kind.trans ht) ?_ hd, hcd⟩
      rw [nextIs_relocates hts (.inl (behind_of_reads hr).ne_nil), harrow]
  | map ht hu _ hv _ ihKey ihValue =>
      obtain _ | ⟨htt, _ | ⟨huu, hts⟩⟩ := hts
      obtain ⟨⟨line, rest⟩, hd, hcd⟩ := ihKey hts (.inl (by simp))
      obtain ⟨-, _ | ⟨hvv, hrest⟩⟩ := hcd
      obtain ⟨e, he, hce⟩ := ihValue hrest hmore
      exact ⟨e, .map (htt.kind.trans ht) (huu.kind.trans hu) hd (hvv.kind.trans hv) he, hce⟩
  | dynamic ht hg hempty =>
      obtain _ | ⟨htu, hts⟩ := hts
      obtain ⟨d, hd, hcd⟩ := groups_relocates hg hts
      refine ⟨d, .dynamic (htu.kind.trans ht) hd ?_, hcd⟩
      rwa [nextIs_braces_relocates hg hts]
  | interface ht hg hempty =>
      obtain _ | ⟨htu, hts⟩ := hts
      obtain ⟨d, hd, hcd⟩ := groups_relocates hg hts
      refine ⟨d, .interface (htu.kind.trans ht) hd ?_, hcd⟩
      rwa [nextIs_braces_relocates hg hts]
  | struct ht hg =>
      obtain _ | ⟨htu, hts⟩ := hts
      obtain ⟨d, hd, hcd⟩ := groups_relocates hg hts
      exact ⟨d, .struct (htu.kind.trans ht) hd, hcd⟩
  | procedure ht hround hg hresults hresult =>
      obtain _ | ⟨htu, hts⟩ := hts
      obtain ⟨d, hd, hcd⟩ := groups_relocates hg hts
      refine ⟨d, .procedure (htu.kind.trans ht) ?_ hd ?_ ?_, hcd⟩
      · rw [nextIs_relocates hts (.inl (ne_nil_of_nextIs hround)), hround]
      · rw [nextIs_relocates hcd.rest hmore, hresults]
      · rw [any_head?_relocates hcd.rest hmore, hresult]
  | results ht hround hg hresults hg' =>
      obtain _ | ⟨htu, hts⟩ := hts
      obtain ⟨e, he, hce⟩ := groups_relocates hg hts
      obtain ⟨d, hd, hcd⟩ := groups_relocates hg' hce.rest
      refine ⟨d, .results (htu.kind.trans ht) ?_ he ?_ hd, hcd⟩
      · rw [nextIs_relocates hts (.inl (ne_nil_of_nextIs hround)), hround]
      · rw [nextIs_relocates hce.rest (.inl (ne_nil_of_nextIs hresults)), hresults]
  | result ht hround hg hresults hresult hr ih =>
      obtain _ | ⟨htu, hts⟩ := hts
      obtain ⟨e, he, hce⟩ := groups_relocates hg hts
      obtain ⟨d, hd, hcd⟩ := ih hce.rest hmore
      have hrest := (behind_of_reads hr).ne_nil
      refine ⟨d, .result (htu.kind.trans ht) ?_ he ?_ ?_ hd, hcd⟩
      · rw [nextIs_relocates hts (.inl (ne_nil_of_nextIs hround)), hround]
      · rw [nextIs_relocates hce.rest (.inl hrest), hresults]
      · rw [any_head?_relocates hce.rest (.inl hrest), hresult]

end TypeExpr

end DeclBridge
