import DeclBridge.Proofs.Grammar.Relocation

/-!
Source texts one behind the other. Tokens that are properly nested and end with a statement are read
as if nothing followed them.
-/

namespace DeclBridge

namespace Comment

/-- The comment `k` lines below. -/
def down (k : Nat) (c : Comment) : Comment :=
  { c with line := c.line + k }

end Comment

def Field.down (k : Nat) (f : Field) : Field :=
  { f with doc := f.doc.map (Comment.down k) }

def Decl.down (k : Nat) : Decl → Decl
  | .record r =>
      .record { r with
        line := r.line + k
        fields := r.fields.map (Field.down k)
        comments := r.comments.map (Comment.down k)
        trailing := r.trailing.map (Comment.down k) }
  | .alias a =>
      .alias { a with
        line := a.line + k
        comments := a.comments.map (Comment.down k)
        trailing := a.trailing.map (Comment.down k) }

/-- What stands at the top of a text, `k` lines below. -/
def Node.down (k : Nat) : Node → Node
  | .comment c => .comment (c.down k)
  | .decl d => .decl (d.down k)
  | .other what => .other what

namespace Field

open Cursor

variable {k : Nat} {more ts us : List Token} {c d c' : Cursor} {f : Field}

theorem readsEnd_relocates {names : List String} {type : TypeExpr}
    (h : ReadsEnd names type c f d) (hc : Relocates k more c c') :
    ∃ d', ReadsEnd names type c' f d' ∧ Relocates k more d d' := by
  rcases c' with ⟨line', rest'⟩
  obtain ⟨hline, hrest⟩ := hc
  cases h with
  | @tagged _ t us _ ht hend =>
      obtain _ | ⟨htu, hrest⟩ := hrest
      have hus : us ≠ [] := by rintro rfl; simp at hend
      refine ⟨_, .tagged (htu.kind.trans ht) ?_, relocates_first htu hrest⟩
      rw [any_head?_relocates hrest (.inl hus), hend]
  | plain hend =>
      have hc : c.rest ≠ [] := by intro hc; simp [hc] at hend
      refine ⟨_, .plain ?_, hline, hrest⟩
      rw [any_head?_relocates hrest (.inl hc), hend]

theorem ne_nil_of_readsEnd {names : List String} {type : TypeExpr}
    (h : ReadsEnd names type c f d) : c.rest ≠ [] := by
  cases h with
  | tagged => simp
  | plain hend => intro hc; simp [hc] at hend

theorem readsNames_relocates {names : List String} (h : ReadsNames c names d)
    (hc : Relocates k more c c') (hmore : d.rest ≠ [] ∨ more = []) :
    ∃ d', ReadsNames c' names d' ∧ Relocates k more d d' := by
  induction h generalizing c' with
  | nil hcomma =>
      exact ⟨c', .nil (by rw [nextIs_relocates hc.rest hmore, hcomma]), hc⟩
  | cons ht hu _ ih =>
      rcases c' with ⟨line', rest'⟩
      obtain ⟨-, _ | ⟨htt, _ | ⟨huu, hrest⟩⟩⟩ := hc
      obtain ⟨d', hd', hdd'⟩ := ih (relocates_first huu hrest) hmore
      exact ⟨d', .cons (htt.kind.trans ht) (huu.kind.trans hu) hd', hdd'⟩

theorem reads_relocates (h : Reads ts f c) (hts : Token.Relocates k more ts us) :
    ∃ d, Reads us f d ∧ Relocates k more c d := by
  cases h with
  | pointer hstar hr he =>
      have hrest := ne_nil_of_readsEnd he
      obtain ⟨e, hr', hce⟩ := TypeExpr.reads_relocates hr hts (.inl hrest)
      obtain ⟨d, he', hcd⟩ := readsEnd_relocates he hce
      refine ⟨d, .pointer ?_ hr' he', hcd⟩
      rw [nextIs_relocates hts (.inl (ne_nil_of_nextIs hstar)), hstar]
  | qualified ht hdot hm he =>
      obtain _ | ⟨htu, hts⟩ := hts
      have hrest := ne_nil_of_readsEnd he
      obtain ⟨e, hm', hce⟩ :=
        TypeExpr.readsMember_relocates hm (relocates_first htu hts) (.inl hrest)
      obtain ⟨d, he', hcd⟩ := readsEnd_relocates he hce
      refine ⟨d, .qualified (htu.kind.trans ht) ?_ hm' he', hcd⟩
      rw [nextIs_relocates hts (.inl (ne_nil_of_nextIs hdot)), hdot]
  | embedded ht hdot hend he =>
      obtain _ | ⟨htu, hts⟩ := hts
      have hrest := ne_nil_of_readsEnd he
      obtain ⟨d, he', hcd⟩ := readsEnd_relocates he (relocates_first htu hts)
      refine ⟨d, .embedded (htu.kind.trans ht) ?_ ?_ he', hcd⟩
      · rw [nextIs_relocates hts (.inl hrest), hdot]
      · rw [any_head?_relocates hts (.inl hrest), hend]
  | @named t ts _ _ _ _ _ _ _ ht hdot hend hn hr he =>
      obtain _ | ⟨htu, hts⟩ := hts
      have hts' : ts ≠ [] := by
        rintro rfl
        have hnames := length_of_readsNames hn
        have htype := (TypeExpr.behind_of_reads hr).ne_nil
        exact htype (List.length_eq_zero_iff.mp (Nat.le_zero.mp hnames))
      obtain ⟨e, hn', hce⟩ := readsNames_relocates hn (relocates_first htu hts)
        (.inl (TypeExpr.behind_of_reads hr).ne_nil)
      obtain ⟨g, hr', hcg⟩ := TypeExpr.reads_relocates hr hce.rest (.inl (ne_nil_of_readsEnd he))
      obtain ⟨d, he', hcd⟩ := readsEnd_relocates he hcg
      refine ⟨d, .named (htu.kind.trans ht) ?_ ?_ hn' hr' he', hcd⟩
      · rw [nextIs_relocates hts (.inl hts'), hdot]
      · rw [any_head?_relocates hts (.inl hts'), hend]

theorem readsAll_relocates {lastLine lastLine' : Nat} {doc : List Comment} {fields : List Field}
    (h : ReadsAll lastLine doc ts fields c) (hts : Token.Relocates k more ts us)
    (hlast : ∀ t ∈ ts, t.line = lastLine ↔ t.line + k = lastLine') :
    ∃ d, ReadsAll lastLine' (doc.map (Comment.down k)) us (fields.map (Field.down k)) d ∧
      Relocates k more c d := by
  induction h generalizing us lastLine' with
  | semicolon ht _ ih =>
      obtain _ | ⟨htu, hts⟩ := hts
      obtain ⟨d, hd, hcd⟩ := ih hts (fun t ht => hlast t (List.mem_cons_of_mem _ ht))
      exact ⟨d, .semicolon (htu.kind.trans ht) hd, hcd⟩
  | @comment lastLine doc t ts text _ _ ht _ ih =>
      obtain _ | ⟨htu, hts⟩ := hts
      obtain ⟨d, hd, hcd⟩ := ih hts (fun t ht => hlast t (List.mem_cons_of_mem _ ht))
      refine ⟨d, .comment (htu.kind.trans ht) ?_, hcd⟩
      have hiff := hlast t (by simp)
      rw [← htu.line] at hiff
      -- The comment trails the field before it in both places or in neither.
      by_cases hline : t.line = lastLine
      · rw [if_pos (hiff.mp hline)]
        rwa [if_pos hline] at hd
      · rw [if_neg (fun h => hline (hiff.mpr h)), htu.line]
        rwa [if_neg hline, List.map_append] at hd
  | close ht =>
      obtain _ | ⟨htu, hts⟩ := hts
      exact ⟨_, .close (htu.kind.trans ht), relocates_first htu hts⟩
  | @field _ doc _ f _ c _ hf _ ih =>
      obtain ⟨e, hf', hce⟩ := reads_relocates hf hts
      have hlines : ∀ t ∈ c.rest, t.line = c.line ↔ t.line + k = e.line := by
        intro t _
        rw [hce.line]
        omega
      obtain ⟨d, hd, hcd⟩ := ih hce.rest hlines
      exact ⟨d, ReadsAll.field (f := f) hf' hd, hcd⟩

end Field

namespace Token

/-- The last token that is no comment, if there is one. -/
def lastWritten? (ts : List Token) : Option Token :=
  (ts.filter fun t => !t.kind.isComment).getLast?

/-- The last token that is no comment, if there is one, ends a statement. -/
def Settled (ts : List Token) : Prop :=
  ∀ t ∈ lastWritten? ts, t.kind = .semicolon

instance (ts : List Token) : Decidable (Settled ts) :=
  inferInstanceAs (Decidable (∀ t ∈ lastWritten? ts, t.kind = .semicolon))

variable {t : Token} {ts : List Token}

theorem lastWritten?_comment (h : t.kind.isComment = true) :
    lastWritten? (t :: ts) = lastWritten? ts := by
  simp [lastWritten?, h]

theorem lastWritten?_cons (h : t.kind.isComment = false) :
    lastWritten? (t :: ts) = some ((lastWritten? ts).getD t) := by
  simp [lastWritten?, h, List.getLast?_cons]

theorem isComment_of_isCode {kind : Kind} (h : kind.isCode = true) : kind.isComment = false := by
  cases kind <;> simp_all [Kind.isCode, Kind.isComment]

theorem Settled.tail (h : Settled (t :: ts)) : Settled ts := by
  intro u hu
  apply h
  by_cases ht : t.kind.isComment = true
  · rwa [lastWritten?_comment ht]
  · rw [lastWritten?_cons (eq_false_of_ne_true ht), Option.mem_def.mp hu]
    exact rfl

theorem Settled.of_suffix {us : List Token} (h : Settled ts) (hus : us <:+ ts) : Settled us := by
  obtain ⟨before, rfl⟩ := hus
  induction before with
  | nil => exact h
  | cons t before ih => exact ih h.tail

theorem Settled.lastWritten?_ne_none (h : Settled (t :: ts)) (ht : t.kind.isCode = true) :
    lastWritten? ts ≠ none := by
  intro hnone
  have hlast := h t (by rw [lastWritten?_cons (isComment_of_isCode ht), hnone]; rfl)
  rw [hlast] at ht
  cases ht

theorem Settled.rest_ne_nil {c : Cursor} (h : Settled ts) (hc : Cursor.Behind Token.Kind.isCode ts c) :
    c.rest ≠ [] := by
  obtain ⟨taken, u, rfl, -, hu⟩ := hc
  intro hrest
  have hsettled := h.of_suffix (List.suffix_append taken _)
  exact hsettled.lastWritten?_ne_none hu (by rw [hrest]; rfl)

end Token

namespace Cursor

open Token (Settled nest lastWritten? nest_opening nest_closing nest_other)

variable {k : Nat} {more ts us : List Token}

/-- A declaration that is skipped ends before what follows settled tokens. -/
theorem afterDeclaration_relocates (inner outer : List Bracket) {line line' : Nat}
    (hts : Token.Relocates k more ts us) (hline : line' = line + k)
    (hmore : more = [] ∨ nest (inner ++ outer) ts = some [] ∧ Settled ts ∧
      (inner ++ outer ≠ [] ∨ lastWritten? ts ≠ none)) :
    Relocates k more (afterDeclaration line inner.length ts)
        (afterDeclaration line' inner.length us) ∧
      (more = [] ∨ nest outer (afterDeclaration line inner.length ts).rest = some []) := by
  -- `inner` are the groups in the declaration and `outer` those around it. In front of `more` one
  -- of them is open, or code is left that ends the declaration.
  induction hts generalizing inner line line' with
  | nil =>
      rcases hmore with rfl | ⟨hnest, -, hend⟩
      · exact ⟨⟨hline, .nil⟩, .inl rfl⟩
      · obtain hopen := Option.some.inj hnest
        exact absurd rfl (hend.resolve_left (fun h => h hopen))
  | @cons t u ts us htu hts ih =>
      have hsettled : ∀ {brackets : List Bracket}, t.kind.isCode = true → Settled (t :: ts) →
          brackets ≠ [] ∨ lastWritten? ts ≠ none :=
        fun ht h => .inr (h.lastWritten?_ne_none ht)
      rcases t.kind.bracket_cases with ⟨bracket, ht⟩ | ⟨bracket, ht⟩ | ht
      · rw [afterDeclaration_opening ht, afterDeclaration_opening (htu.kind.trans ht)]
        refine ih (bracket :: inner) htu.line (hmore.imp_right ?_)
        rintro ⟨hnest, h, -⟩
        rw [nest_opening ht] at hnest
        exact ⟨hnest, h.tail, .inl (by simp)⟩
      · cases inner with
        | nil =>
            rw [List.length_nil, afterDeclaration_close ht,
              afterDeclaration_close (htu.kind.trans ht)]
            exact ⟨⟨hline, .cons htu hts⟩, hmore.imp_right And.left⟩
        | cons _ inner =>
            rw [List.length_cons, afterDeclaration_closing ht,
              afterDeclaration_closing (htu.kind.trans ht)]
            refine ih inner htu.line (hmore.imp_right ?_)
            rintro ⟨hnest, h, -⟩
            obtain ⟨brackets, hbrackets, hnest⟩ := nest_closing ht hnest
            cases hbrackets
            exact ⟨hnest, h.tail, hsettled (by rw [ht]; rfl) h⟩
      · by_cases hstop : t.kind = .semicolon ∧ inner = []
        · obtain ⟨hsemicolon, rfl⟩ := hstop
          rw [List.length_nil, afterDeclaration_semicolon hsemicolon,
            afterDeclaration_semicolon (htu.kind.trans hsemicolon)]
          refine ⟨⟨htu.line, hts⟩, hmore.imp_right ?_⟩
          rintro ⟨hnest, -⟩
          rwa [nest_other ht] at hnest
        · have hgo : t.kind ≠ .semicolon ∨ inner.length ≠ 0 :=
            (Decidable.not_and_iff_or_not.mp hstop).imp_right
              (fun hinner h => hinner (List.length_eq_zero_iff.mp h))
          rw [afterDeclaration_other ht hgo,
            afterDeclaration_other (by rw [htu.kind]; exact ht) (by rw [htu.kind]; exact hgo)]
          refine ih inner htu.line (hmore.imp_right ?_)
          rintro ⟨hnest, h, hend⟩
          rw [nest_other ht] at hnest
          refine ⟨hnest, h.tail, ?_⟩
          by_cases hcomment : t.kind.isComment = true
          · rwa [Token.lastWritten?_comment hcomment] at hend
          · by_cases hsemicolon : t.kind = .semicolon
            · refine .inl (fun hopen => hstop ⟨hsemicolon, ?_⟩)
              exact (List.append_eq_nil_iff.mp hopen).1
            · refine hsettled ?_ h
              cases hkind : t.kind <;> simp_all [Token.Kind.isCode, Token.Kind.isComment]

end Cursor

namespace Decl

open Cursor
open Token (Settled nest nest_opening nest_closing nest_other)

variable {k : Nat} {more ts us : List Token}

theorem not_isCode_iff {kind : Token.Kind} :
    kind.isCode = false ↔ kind = .semicolon ∨ ∃ text, kind = .comment text := by
  cases kind <;> simp [Token.Kind.isCode]

/-- Whether a name begins a generic type is decided before what follows settled tokens. -/
theorem isGeneric_relocates (hts : Token.Relocates k more ts us)
    (hmore : more = [] ∨ ∃ t, t.kind.isCode = true ∧ Settled (t :: ts)) :
    (nextIs (.opening .square) us && hasParameters us) =
      (nextIs (.opening .square) ts && hasParameters ts) := by
  have hlast : ∀ (before : List Token) {t : Token}, Settled (before ++ [t]) →
      t.kind = .semicolon ∨ ∃ text, t.kind = .comment text := by
    intro before t h
    rw [← not_isCode_iff]
    refine eq_false_of_ne_true (fun ht => ?_)
    exact (h.of_suffix (List.suffix_append _ _)).lastWritten?_ne_none ht rfl
  -- Five tokens decide. Where there are fewer, the last one is a comment or ends a statement.
  obtain _ | ⟨ha, _ | ⟨hb, _ | ⟨hc, _ | ⟨hd, _ | ⟨he, hts⟩⟩⟩⟩⟩ := hts
  · rcases hmore with rfl | ⟨t, ht, h⟩
    · rfl
    · exact absurd rfl (h.lastWritten?_ne_none ht)
  · rcases hmore with rfl | ⟨t, ht, h⟩
    · simp [hasParameters]
    · rcases hlast [_] h with h | ⟨text, h⟩ <;> simp [ha.kind, h]
  · rcases hmore with rfl | ⟨t, ht, h⟩
    · simp [hasParameters]
    · rcases hlast [_, _] h with h | ⟨text, h⟩ <;>
        cases more <;> simp [hasParameters, ha.kind, hb.kind, h]
  · rcases hmore with rfl | ⟨t, ht, h⟩
    · simp [hasParameters, ha.kind, hb.kind, hc.kind]
    · rcases hlast [_, _, _] h with h | ⟨text, h⟩ <;>
        simp [hasParameters, ha.kind, hb.kind, hc.kind, h]
  · rcases hmore with rfl | ⟨t, ht, h⟩
    · simp [hasParameters, ha.kind, hb.kind, hc.kind]
    · rcases hlast [_, _, _, _] h with h | ⟨text, h⟩ <;>
        cases more <;> simp [hasParameters, ha.kind, hb.kind, hc.kind, hd.kind, h]
  · simp [hasParameters, ha.kind, hb.kind, hc.kind, hd.kind, he.kind]

theorem withTrailing_down (k : Nat) (trailing : Option Comment) (d : Decl) :
    (d.withTrailing trailing).down k = (d.down k).withTrailing (trailing.map (Comment.down k)) := by
  cases d <;> rfl

theorem isLineEnd_moves {t u : Token} (h : Token.Moves k t u) : u.isLineEnd = t.isLineEnd := by
  rw [Token.isLineEnd, Token.isLineEnd, h.kind, h.lexeme]

theorem dropAssign_relocates (hts : Token.Relocates k more ts us) (hmore : ts ≠ [] ∨ more = []) :
    Token.Relocates k more (dropAssign ts) (dropAssign us) := by
  cases hts with
  | nil =>
      rw [hmore.resolve_left (fun h => h rfl)]
      exact .nil
  | cons htu hts =>
      simp only [dropAssign, htu.kind]
      split
      · exact hts
      · exact .cons htu hts

theorem dropLineEnd_relocates (hts : Token.Relocates k more ts us) (hmore : ts ≠ [] ∨ more = []) :
    Token.Relocates k more (dropLineEnd ts) (dropLineEnd us) := by
  cases hts with
  | nil =>
      rw [hmore.resolve_left (fun h => h rfl)]
      exact .nil
  | cons htu hts =>
      simp only [dropLineEnd, isLineEnd_moves htu]
      split
      · exact hts
      · exact .cons htu hts

/-- A comment on a line stays there, and nothing that follows begins on that line. -/
theorem commentOn?_relocates {line : Nat} (hts : Token.Relocates k more ts us)
    (hmore : ∀ u ∈ more, line + k < u.line) :
    (commentOn? line ts = none ∧ commentOn? (line + k) us = none) ∨
      ∃ comment c d, commentOn? line ts = some (comment, c) ∧
        commentOn? (line + k) us = some (comment.down k, d) ∧ Relocates k more c d := by
  have hnone : ∀ {line : Nat} {ts : List Token},
      (∀ t us text, ts = t :: us → t.kind = .comment text → t.line ≠ line) →
        commentOn? line ts = none := by
    intro line ts h
    refine Option.eq_none_iff_forall_ne_some.mpr ?_
    rintro ⟨comment, c⟩ hc
    obtain ⟨t, us, text, rfl, ht, hline, -⟩ := commentOn?_eq_some.mp hc
    exact h t us text rfl ht hline
  cases hts with
  | nil =>
      refine .inl ⟨rfl, hnone ?_⟩
      rintro u us text rfl - hline
      exact absurd (hmore u (by simp)) (by omega)
  | @cons t u ts us htu hts =>
      by_cases hcomment : ∃ text, t.kind = .comment text ∧ t.line = line
      · obtain ⟨text, ht, rfl⟩ := hcomment
        refine .inr ⟨⟨text, t.line⟩, ⟨t.line, ts⟩, ⟨t.line + k, us⟩, ?_, ?_, rfl, hts⟩
        · exact commentOn?_eq_some.mpr ⟨t, ts, text, rfl, ht, rfl, rfl, rfl⟩
        · exact commentOn?_eq_some.mpr
            ⟨u, us, text, rfl, htu.kind.trans ht, htu.line, rfl, rfl⟩
      · refine .inl ⟨hnone ?_, hnone ?_⟩
        · rintro _ _ text ⟨⟩ ht hline
          exact hcomment ⟨text, ht, hline⟩
        · rintro _ _ text ⟨⟩ ht hline
          rw [htu.kind] at ht
          rw [htu.line] at hline
          exact hcomment ⟨text, ht, by omega⟩

theorem trailing_relocates {c c' : Cursor} (hc : Relocates k more c c')
    (hrest : c.rest ≠ [] ∨ more = []) (hmore : ∀ u ∈ more, c.line + k < u.line) :
    (trailing c').1 = (trailing c).1.map (Comment.down k) ∧
      Relocates k more (trailing c).2 (trailing c').2 := by
  have hdrop := dropLineEnd_relocates hc.rest hrest
  unfold trailing
  rw [hc.line]
  rcases commentOn?_relocates hdrop hmore with ⟨h, h'⟩ | ⟨comment, d, d', h, h', hd⟩
  · rw [h, h']
    exact ⟨rfl, hc⟩
  · rw [h, h']
    exact ⟨rfl, hd⟩

theorem nest_trailing {brackets result : List Bracket} {c : Cursor}
    (h : nest brackets c.rest = some result) :
    nest brackets (trailing c).2.rest = some result := by
  have hdrop : nest brackets (dropLineEnd c.rest) = some result := by
    cases hts : c.rest with
    | nil => rwa [hts] at h
    | cons t ts =>
        rw [hts] at h
        rw [dropLineEnd]
        split
        · rename_i ht
          simp only [Token.isLineEnd, Bool.and_eq_true, beq_iff_eq] at ht
          rwa [nest_other (by rw [ht.1]; rfl)] at h
        · exact h
  unfold trailing
  split
  · rename_i comment d hd
    obtain ⟨t, us, text, hts, ht, -, -, rfl⟩ := commentOn?_eq_some.mp hd
    rwa [hts, nest_other (by rw [ht]; rfl)] at hdrop
  · exact h

theorem nest_dropAssign {brackets result : List Bracket}
    (h : nest brackets ts = some result) : nest brackets (dropAssign ts) = some result := by
  cases ts with
  | nil => exact h
  | cons t ts =>
      rw [dropAssign]
      split
      · rename_i ht
        rwa [nest_other (by rw [ht]; rfl)] at h
      · exact h

theorem nest_of_readsBody {name : String} {line : Nat} {d : Decl} {c : Cursor}
    {brackets result : List Bracket} (h : ReadsBody name line ts d c)
    (hnest : nest brackets ts = some result) : nest brackets c.rest = some result := by
  cases h with
  | record ht hu hf =>
      rw [nest_other (by rw [ht]; rfl), nest_opening hu] at hnest
      exact Field.nest_of_readsAll hf hnest
  | type _ hr => exact TypeExpr.nest_of_reads hr hnest

theorem readsBody_relocates {name : String} {line : Nat} {d : Decl} {c : Cursor}
    (h : ReadsBody name line ts d c) (hts : Token.Relocates k more ts us)
    (hnumbered : ∀ t ∈ ts, 0 < t.line) (hmore : c.rest ≠ [] ∨ more = []) :
    ∃ c', ReadsBody name (line + k) us (d.down k) c' ∧ Relocates k more c c' := by
  cases h with
  | @record _ _ ts _ _ ht hu hf =>
      obtain _ | ⟨htt, _ | ⟨huu, hts⟩⟩ := hts
      have hlast : ∀ t ∈ ts, t.line = 0 ↔ t.line + k = 0 := by
        intro t htail
        have hline := hnumbered t (List.mem_cons_of_mem _ (List.mem_cons_of_mem _ htail))
        omega
      obtain ⟨c', hf', hc⟩ := Field.readsAll_relocates hf hts hlast
      exact ⟨c', .record (htt.kind.trans ht) (huu.kind.trans hu) hf', hc⟩
  | type hstruct hr =>
      obtain ⟨c', hr', hc⟩ := TypeExpr.reads_relocates hr hts hmore
      refine ⟨c', .type ?_ hr', hc⟩
      rw [nextIs_relocates hts (.inl (TypeExpr.behind_of_reads hr).ne_nil), hstruct]

/-- The tokens leave no group open among `brackets`, end with a statement, and `more` follows them on
later lines, `k` lines below. -/
structure Separates (k : Nat) (more : List Token) (brackets : List Bracket) (ts : List Token) :
    Prop where
  nest : nest brackets ts = some []
  settled : Settled ts
  below : ∀ t ∈ ts, ∀ u ∈ more, t.line + k < u.line

variable {brackets : List Bracket} {c : Cursor}

theorem Separates.of_suffix {brackets' : List Bracket} (h : Separates k more brackets ts)
    (hus : us <:+ ts) (hnest : Token.nest brackets' us = some []) : Separates k more brackets' us :=
  ⟨hnest, h.settled.of_suffix hus, fun t ht => h.below t (hus.subset ht)⟩

theorem Separates.tail {t : Token} (h : Separates k more brackets (t :: ts))
    (ht : t.kind.isBracket = false) : Separates k more brackets ts := by
  have hnest := h.nest
  rw [nest_other ht] at hnest
  exact h.of_suffix (List.suffix_cons _ _) hnest

theorem Separates.below_line (h : Separates k more brackets ts) (hc : Behind Token.Kind.isCode ts c) :
    ∀ u ∈ more, c.line + k < u.line := by
  obtain ⟨t, ht, hline⟩ := hc.line
  rw [← hline]
  exact h.below t ht

/-- A specification stays one where its tokens are moved and others follow on later lines. -/
theorem readsSpec_relocates {line : Nat} {node : Node} (h : ReadsSpec line ts node c)
    (hts : Token.Relocates k more ts us) (hnumbered : ∀ t ∈ ts, 0 < t.line)
    (hmore : more = [] ∨ Separates k more brackets ts) :
    ∃ c', ReadsSpec (line + k) us (node.down k) c' ∧ Relocates k more c c' ∧
      (more = [] ∨ Token.nest brackets c.rest = some []) := by
  cases h with
  | @generic t ts name ht hgeneric =>
      obtain _ | ⟨htu, hts⟩ := hts
      have hcode : t.kind.isCode = true := by rw [ht]; rfl
      have hskip := afterDeclaration_relocates [] brackets hts htu.line
        (hmore.imp_right fun h => ⟨?_, h.settled.tail, .inr (h.settled.lastWritten?_ne_none hcode)⟩)
      · refine ⟨_, .generic (htu.kind.trans ht) ?_, hskip⟩
        rw [isGeneric_relocates hts (hmore.imp_right fun h => ⟨t, hcode, h.settled⟩), hgeneric]
      · have hnest := h.nest
        rwa [nest_other (by rw [ht]; rfl)] at hnest
  | @decl t ts name d c ht hgeneric hb hend =>
      obtain _ | ⟨htu, hts⟩ := hts
      have hcode : t.kind.isCode = true := by rw [ht]; rfl
      have hts' : ts ≠ [] := by
        rintro rfl
        exact (behind_of_readsBody hb).ne_nil rfl
      have hbehind : Behind Token.Kind.isCode (t :: ts) c :=
        (behind_of_readsBody hb).isCode.of_suffix ((suffix_dropAssign ts).trans (List.suffix_cons _ _))
      have hnumbered' : ∀ u ∈ dropAssign ts, 0 < u.line :=
        fun u hu => hnumbered u (List.mem_cons_of_mem _ ((suffix_dropAssign ts).subset hu))
      have hrest : c.rest ≠ [] ∨ more = [] :=
        hmore.symm.imp_left fun h => h.settled.rest_ne_nil hbehind
      have hbelow : ∀ u ∈ more, c.line + k < u.line := by
        rcases hmore with rfl | h
        · simp
        · exact h.below_line hbehind
      obtain ⟨c', hb', hc⟩ :=
        readsBody_relocates hb (dropAssign_relocates hts (.inl hts')) hnumbered' hrest
      obtain ⟨htrailing, hplace⟩ := trailing_relocates hc hrest hbelow
      refine ⟨(trailing c').2, ?_, hplace, hmore.imp_right fun h => ?_⟩
      · rw [Node.down, withTrailing_down, ← htrailing]
        refine .decl (htu.kind.trans ht) ?_ hb' ?_
        · rw [isGeneric_relocates hts (hmore.imp_right fun h => ⟨t, hcode, h.settled⟩), hgeneric]
        · rw [all_head?_relocates hc.rest hrest, hend]
      · have hnest := h.nest
        rw [nest_other (by rw [ht]; rfl)] at hnest
        exact nest_trailing (nest_of_readsBody hb (nest_dropAssign hnest))

theorem readsGroup_relocates {line : Option Nat} {nodes : List Node}
    (h : ReadsGroup line ts nodes c) (hts : Token.Relocates k more ts us)
    (hnumbered : ∀ t ∈ ts, 0 < t.line)
    (hmore : more = [] ∨ Separates k more (.round :: brackets) ts) :
    ∃ c', ReadsGroup (line.map (· + k)) us (nodes.map (Node.down k)) c' ∧ Relocates k more c c' ∧
      (more = [] ∨ Token.nest brackets c.rest = some []) := by
  have htail : ∀ {t : Token} {ts : List Token}, (∀ u ∈ t :: ts, 0 < u.line) →
      ∀ u ∈ ts, 0 < u.line :=
    fun h u hu => h u (List.mem_cons_of_mem _ hu)
  induction h generalizing us with
  | semicolon ht _ ih =>
      obtain _ | ⟨htu, hts⟩ := hts
      obtain ⟨c', hg, hc⟩ := ih hts (htail hnumbered) (hmore.imp_right fun h => h.tail (by rw [ht]; rfl))
      exact ⟨c', .semicolon (htu.kind.trans ht) hg, hc⟩
  | @comment line t _ text nodes _ ht _ ih =>
      obtain _ | ⟨htu, hts⟩ := hts
      obtain ⟨c', hg, hc⟩ := ih hts (htail hnumbered) (hmore.imp_right fun h => h.tail (by rw [ht]; rfl))
      refine ⟨c', ?_, hc⟩
      rw [List.map_cons, Node.down, Comment.down, ← htu.line]
      exact .comment (htu.kind.trans ht) hg
  | close ht =>
      obtain _ | ⟨htu, hts⟩ := hts
      refine ⟨_, .close (htu.kind.trans ht), relocates_first htu hts, hmore.imp_right fun h => ?_⟩
      obtain ⟨outer, houter, hnest⟩ := nest_closing ht h.nest
      cases houter
      exact hnest
  | @spec line t ts node nodes c d hs _ ih =>
      obtain ⟨e, hs', hce, hnest⟩ := readsSpec_relocates hs hts hnumbered hmore
      have hsuffix := suffix_of_readsSpec hs
      have hmore' : more = [] ∨ Separates k more (.round :: brackets) c.rest := by
        rcases hmore with hmore | h
        · exact .inl hmore
        · exact hnest.imp_right fun hnest => h.of_suffix hsuffix hnest
      obtain ⟨c', hg, hc⟩ := ih hce.rest (fun u hu => hnumbered u (hsuffix.subset hu)) hmore'
      obtain _ | ⟨htu, hts⟩ := hts
      refine ⟨c', .spec ?_ hg, hc⟩
      cases line with
      | none =>
          rw [Option.map_none, Option.getD_none, htu.line]
          exact hs'
      | some line => exact hs'

theorem reads_relocates {line : Nat} {nodes : List Node}
    (h : Reads line ts nodes c) (hts : Token.Relocates k more ts us)
    (hnumbered : ∀ t ∈ ts, 0 < t.line) (hmore : more = [] ∨ Separates k more brackets ts) :
    ∃ c', Reads (line + k) us (nodes.map (Node.down k)) c' ∧ Relocates k more c c' ∧
      (more = [] ∨ Token.nest brackets c.rest = some []) := by
  cases h with
  | @group t ts _ _ ht hg =>
      obtain _ | ⟨htu, hts⟩ := hts
      have hmore' : more = [] ∨ Separates k more (.round :: brackets) ts := by
        refine hmore.imp_right fun h => h.of_suffix (List.suffix_cons _ _) ?_
        have hnest := h.nest
        rwa [nest_opening ht] at hnest
      obtain ⟨c', hg', hc⟩ :=
        readsGroup_relocates hg hts (fun u hu => hnumbered u (List.mem_cons_of_mem _ hu)) hmore'
      exact ⟨c', .group (htu.kind.trans ht) hg', hc⟩
  | single hs =>
      obtain ⟨c', hs', hc⟩ := readsSpec_relocates hs hts hnumbered hmore
      exact ⟨c', .single hs', hc⟩

end Decl

namespace Node

open Cursor
open Decl (Separates)

/-- Source texts one behind the other hold the nodes of both. -/
theorem readsAll_relocates {k : Nat} {more ts us : List Token} {nodes others : List Node}
    (h : ReadsAll ts nodes) (hts : Token.Relocates k more ts us)
    (hnumbered : ∀ t ∈ ts, 0 < t.line) (hmore : more = [] ∨ Separates k more [] ts)
    (hothers : ReadsAll more others) : ReadsAll us (nodes.map (Node.down k) ++ others) := by
  have htail : ∀ {t : Token} {ts : List Token}, (∀ u ∈ t :: ts, 0 < u.line) →
      ∀ u ∈ ts, 0 < u.line :=
    fun h u hu => h u (List.mem_cons_of_mem _ hu)
  induction h generalizing us with
  | nil =>
      cases hts
      exact hothers
  | semicolon ht _ ih =>
      obtain _ | ⟨htu, hts⟩ := hts
      exact .semicolon (htu.kind.trans ht)
        (ih hts (htail hnumbered) (hmore.imp_right fun h => h.tail (by rw [ht]; rfl)))
  | comment ht _ ih =>
      obtain _ | ⟨htu, hts⟩ := hts
      rw [List.map_cons, Node.down, Comment.down, ← htu.line]
      exact .comment (htu.kind.trans ht)
        (ih hts (htail hnumbered) (hmore.imp_right fun h => h.tail (by rw [ht]; rfl)))
  | package ht hu _ ih =>
      obtain _ | ⟨htt, _ | ⟨huu, hts⟩⟩ := hts
      exact .package (htt.kind.trans ht) (huu.kind.trans hu)
        (ih hts (htail (htail hnumbered))
          (hmore.imp_right fun h => (h.tail (by rw [ht]; rfl)).tail (by rw [hu]; rfl)))
  | @type t ts nodes more' c ht hd _ ih =>
      obtain _ | ⟨htu, hts⟩ := hts
      have hmore' : more = [] ∨ Separates k more [] ts :=
        hmore.imp_right fun h => h.tail (by rw [ht]; rfl)
      obtain ⟨c', hd', hc, hnest⟩ := Decl.reads_relocates hd hts (htail hnumbered) hmore'
      have hsuffix := Decl.suffix_of_reads hd
      have hrest : more = [] ∨ Separates k more [] c.rest := by
        rcases hmore' with hmore' | h
        · exact .inl hmore'
        · exact hnest.imp_right fun hnest => h.of_suffix hsuffix hnest
      rw [← htu.line] at hd'
      rw [List.map_append, List.append_assoc]
      exact .type (htu.kind.trans ht) hd'
        (ih hc.rest (fun u hu => htail hnumbered u (hsuffix.subset hu)) hrest)
  | @skipped t ts nodes ht _ ih =>
      obtain _ | ⟨htu, hts⟩ := hts
      have hcode : t.kind.isCode = true := by
        rcases beginsSkipped_iff.mp ht with h | h | h | h <;> rw [h] <;> rfl
      have hbracket : t.kind.isBracket = false := by
        rcases beginsSkipped_iff.mp ht with h | h | h | h <;> rw [h] <;> rfl
      obtain ⟨hc, hnest⟩ := afterDeclaration_relocates [] [] hts htu.line
        (hmore.imp_right fun h =>
          ⟨(h.tail hbracket).nest, h.settled.tail, .inr (h.settled.lastWritten?_ne_none hcode)⟩)
      have hsuffix := suffix_afterDeclaration t.line 0 ts
      have hrest : more = [] ∨ Separates k more [] (afterDeclaration t.line 0 ts).rest := by
        rcases hmore with hmore | h
        · exact .inl hmore
        · exact hnest.imp_right fun hnest => (h.tail hbracket).of_suffix hsuffix hnest
      rw [List.map_cons, Node.down, ← htu.lexeme]
      exact .skipped (by rw [htu.kind]; exact ht)
        (ih hc.rest (fun u hu => htail hnumbered u (hsuffix.subset hu)) hrest)

end Node

end DeclBridge
