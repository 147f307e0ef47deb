import DeclBridge.Proofs.Grammar.Decl
import DeclBridge.Proofs.Printing.TypeExpr
import DeclBridge.Render.Decl

/-!
The lines of a struct: fields as they are written, their tokens, and the reading of these tokens.
-/

namespace DeclBridge

theorem toList_unlines_cons (line : String) (lines : List String) :
    (unlines (line :: lines)).toList = line.toList ++ ['\n'] ++ (unlines lines).toList := by
  simp [unlines_cons]

namespace Mark

open Token (endStatements lineEnd)

/-- In front of `rest` a text is scanned up to a place on its last line, and its marks give the
tokens whatever marks follow. -/
structure Writes (p : Position) (text rest : List Char) (marks : List Mark) (ts : List Token)
    (q : Position) : Prop where
  scans : Scans p (text ++ rest) marks q rest
  line : q.line = p.line + text.count '\n'
  statements : ∀ last more, endStatements last none (marks ++ more) =
    ts ++ endStatements last none more

variable {p q r : Position} {text text' rest : List Char} {marks marks' : List Mark}
  {ts us : List Token}

theorem writes_nil (p : Position) (rest : List Char) : Writes p [] rest [] [] p :=
  ⟨.done, rfl, fun _ _ => rfl⟩

theorem Writes.append (h : Writes p text (text' ++ rest) marks ts q)
    (h' : Writes q text' rest marks' us r) :
    Writes p (text ++ text') rest (marks ++ marks') (ts ++ us) r := by
  refine ⟨?_, ?_, ?_⟩
  · rw [List.append_assoc]
    exact h.scans.trans h'.scans
  · rw [h'.line, h.line, List.count_append, Nat.add_assoc]
  · intro last more
    rw [List.append_assoc, h.statements, h'.statements, List.append_assoc]

theorem endStatements_tokens {t : Token} (hus : ∀ u ∈ us, u.kind.isComment = false)
    (ht : t.kind.isComment = false) (last : Position) (marks : List Mark) :
    endStatements last none ((us ++ [t]).map token ++ marks) =
      us ++ t :: endStatements last (if t.kind.endsStatement then some [] else none) marks := by
  have hpending : ∀ pending : Option (List Token), pending.getD [] = [] →
      endStatements last pending ((us ++ [t]).map token ++ marks) =
        us ++ t :: endStatements last (if t.kind.endsStatement then some [] else none) marks := by
    induction us with
    | nil =>
        intro pending h
        rw [List.nil_append, List.map_cons, List.cons_append, Token.endStatements_token ht, h]
        rfl
    | cons u us ih =>
        intro pending h
        rw [List.cons_append, List.map_cons, List.cons_append,
          Token.endStatements_token (hus u (by simp)), h, List.nil_append,
          ih (fun v hv => hus v (by simp [hv]))]
        · rfl
        · split <;> rfl
  exact hpending none rfl

/-- A line whose last token may end a statement has the end of it behind that token. -/
theorem writes_line {t : Token} (hscan : Scans p (text ++ '\n' :: rest) (ts.map token) q ('\n' :: rest))
    (hline : q.line = p.line + text.count '\n') (hts : ∀ u ∈ ts, u.kind.isComment = false)
    (ht : [t] <:+ ts) :
    Writes p (text ++ ['\n']) rest (ts.map token ++ [lineBreak (q.shift 1)])
      (ts ++ if t.kind.endsStatement then [lineEnd (q.shift 1)] else []) ⟨q.line + 1, 1⟩ := by
  obtain ⟨us, rfl⟩ := ht
  refine ⟨?_, ?_, ?_⟩
  · rw [List.append_assoc]
    exact hscan.trans (.lineBreak .done)
  · rw [List.count_append, hline]
    rfl
  · intro last more
    rw [List.append_assoc, endStatements_tokens (fun u hu => hts u (by simp [hu])) (hts t (by simp))]
    split <;> simp [endStatements, Token.lineEndBefore]

theorem writes_of_spells {t : Token} (h : Spells p text ('\n' :: rest) ts q)
    (hts : ∀ u ∈ ts, u.kind.isComment = false) (ht : [t] <:+ ts) :
    Writes p (text ++ ['\n']) rest (ts.map token ++ [lineBreak (q.shift 1)])
      (ts ++ if t.kind.endsStatement then [lineEnd (q.shift 1)] else []) ⟨q.line + 1, 1⟩ := by
  refine writes_line h.scans ?_ hts ht
  rw [h.breaks, h.line]
  rfl

end Mark

/-- Whether a field may embed the type: a name, or a pointer. -/
def TypeExpr.isEmbeddable : TypeExpr → Bool
  | named _ | qualified _ _ | pointer _ => true
  | _ => false

namespace Field

open Cursor
open Mark (Scans Spells Writes)
open Token (isName isLiteral lineEnd)
open Token.Reach (continuesWord)

/-- The tag of a field as it is written behind the type. -/
def tagText (f : Field) : String :=
  (f.tag.map (" " ++ ·)).getD ""

/-- The field as it is written in Go. -/
def text (f : Field) : String :=
  (if f.isEmbedded then "" else String.intercalate ", " f.names ++ " ") ++ f.type.text ++ f.tagText

/-- Whether the text of a field says what it is. Its comments are not part of the text. -/
def isPrintable (f : Field) : Bool :=
  f.names.all isName && f.type.isPrintable && f.tag.all isLiteral && f.doc.isEmpty &&
    (!f.isEmbedded || f.type.isEmbeddable)

/-- The tokens that write the tag of a field. -/
inductive SpelledTag : Option String → List Token → Prop where
  | none : SpelledTag none []
  | some {t : Token} {text : String} : t.kind = .string text → SpelledTag (some text) [t]

variable {f : Field} {rest : List Char} {ts us : List Token}

theorem scans_tag (h : f.tag.all isLiteral = true) (p : Position) (rest : List Char) :
    ∃ ts q, Scans p (f.tagText.toList ++ rest) (ts.map .token) q rest ∧ SpelledTag f.tag ts ∧
      q.line = p.line + f.tagText.toList.count '\n' := by
  rw [tagText]
  cases htag : f.tag with
  | none => exact ⟨[], p, .done, .none, rfl⟩
  | some text =>
      rw [htag] at h
      obtain ⟨t, q, hscan, hkind, -, hline⟩ := Mark.scans_literal h (p.shift 1) rest
      refine ⟨[t], q, ?_, .some hkind, ?_⟩
      · simp only [Option.map_some, Option.getD_some, String.toList_append]
        exact .blank rfl hscan
      · simp only [Option.map_some, Option.getD_some, String.toList_append]
        rw [hline, List.count_append]
        simp [Position.shift]

theorem stops_tagText (f : Field) (rest : List Char) :
    (f.tagText.toList ++ '\n' :: rest).head?.any continuesWord = false := by
  rw [tagText]
  cases f.tag with
  | none =>
      show continuesWord '\n' = false
      decide
  | some text =>
      simp only [Option.map_some, Option.getD_some, String.toList_append]
      show continuesWord ' ' = false
      decide

theorem readsEnd_of_spelled (names : List String) (type : TypeExpr) {tag : Option String}
    (h : SpelledTag tag ts) (line : Nat) (p : Position) (us : List Token) :
    ∃ line', ReadsEnd names type ⟨line, ts ++ lineEnd p :: us⟩ ⟨names, type, tag, []⟩
      ⟨line', lineEnd p :: us⟩ := by
  cases h with
  | none => exact ⟨line, .plain rfl⟩
  | some ht => exact ⟨_, .tagged ht rfl⟩

theorem nextIs_of_spelledTag {tag : Option String} (h : SpelledTag tag ts) (p : Position)
    (us : List Token) :
    nextIs .dot (ts ++ lineEnd p :: us) = false ∧
      (ts ++ lineEnd p :: us).head?.any (endsEmbedded ·.kind) = true := by
  cases h with
  | none => exact ⟨rfl, rfl⟩
  | some ht => simp [ht, endsEmbedded]

/-- The names of a field, with the tokens of all but the first one told apart. -/
theorem spells_names {first : String} {names : List String} (h : (first :: names).all isName = true)
    (p : Position) (rest : List Char) :
    ∃ t ts q, Spells p (String.intercalate ", " (first :: names)).toList (' ' :: rest) (t :: ts) q ∧
      t.kind = .identifier first ∧ (∀ u ∈ ts, u.kind.isComment = false) ∧
      (ts ≠ [] → nextIs .comma ts = true) ∧
      ∀ us, nextIs .comma us = false → ReadsNames ⟨p.line, ts ++ us⟩ names ⟨p.line, us⟩ := by
  induction names generalizing first p with
  | nil =>
      have hname : isName first = true := by simpa using h
      have hstop : (' ' :: rest).head?.any continuesWord = false := by
        show continuesWord ' ' = false
        decide
      obtain ⟨t, q, ht, hkind⟩ := Mark.spells_name hname p hstop
      refine ⟨t, [], q, ?_, hkind, by simp, by simp, fun us hus => .nil hus⟩
      rwa [String.intercalate_singleton]
  | cons second names ih =>
      rw [List.all_cons, Bool.and_eq_true] at h
      have hstop : (',' :: ' ' :: ((String.intercalate ", " (second :: names)).toList ++
          ' ' :: rest)).head?.any continuesWord = false := by
        show continuesWord ',' = false
        decide
      obtain ⟨t, q, ht, hkind⟩ := Mark.spells_name h.1 p hstop
      obtain ⟨u, r, hu, hcomma⟩ := Mark.spells_exact
        (show Token.extent ',' (' ' :: ((String.intercalate ", " (second :: names)).toList ++
          ' ' :: rest)) = .ok (.exact .comma, 0) from rfl) (by decide) q
      have hblank := Mark.spells_blank r
        ((String.intercalate ", " (second :: names)).toList ++ ' ' :: rest)
      obtain ⟨v, ts, s, hts, hkind', hcomment, -, hreads⟩ := ih h.2 (r.shift 1)
      have hline : (r.shift 1).line = p.line := hu.line.trans ht.line
      refine ⟨t, u :: v :: ts, s, ?_, hkind, ?_, fun _ => by simp [hcomma], ?_⟩
      · rw [String.intercalate_cons_cons]
        simp only [String.toList_append, List.append_assoc]
        exact ht.append (hu.append (hblank.append hts rfl) rfl) (by simp)
      · simp only [List.mem_cons]
        rintro w (rfl | rfl | hw)
        · rw [hcomma]; rfl
        · rw [hkind']; rfl
        · exact hcomment w hw
      · intro us hus
        -- All names are on the line of the first one.
        have hv : v.line = p.line := (hts.lines v (by simp)).trans hline
        refine .cons hcomma hkind' ?_
        rw [hv]
        rw [hline] at hreads
        exact hreads us hus

theorem ends_of_spelledTag {tag : Option String}
    (hts : ∃ t, [t] <:+ ts ∧ t.kind.endsStatement = true) (h : SpelledTag tag us) :
    ∃ t, [t] <:+ ts ++ us ∧ t.kind.endsStatement = true := by
  cases h with
  | none => rwa [List.append_nil]
  | some ht => exact ⟨_, List.suffix_append _ _, by rw [ht]; rfl⟩

theorem nextIs_of_spelled {type : TypeExpr} (h : TypeExpr.Spelled type ts) (us : List Token) :
    nextIs .dot (ts ++ us) = false ∧ nextIs .comma (ts ++ us) = false ∧
      (ts ++ us).head?.any (endsEmbedded ·.kind) = false := by
  obtain ⟨t, ts, rfl, ht⟩ := TypeExpr.begins_of_spelled h
  rw [List.cons_append, nextIs_cons, nextIs_cons, List.head?_cons, Option.any_some]
  cases hkind : t.kind <;> simp_all [TypeExpr.beginsText, endsEmbedded]

theorem reads_of_spelled_embedded {type : TypeExpr} {tag : Option String} {vs : List Token}
    {line : Nat} {p : Position} (h : TypeExpr.Spelled type ts) (htype : type.isEmbeddable = true)
    (hline : ∀ t ∈ ts, t.line = line) (htag : SpelledTag tag us) :
    ∃ line', Reads (ts ++ (us ++ lineEnd p :: vs)) ⟨[], type, tag, []⟩
      ⟨line', lineEnd p :: vs⟩ := by
  have hnext := nextIs_of_spelledTag htag p vs
  obtain ⟨line', hend⟩ := readsEnd_of_spelled [] type htag line p vs
  refine ⟨line', ?_⟩
  cases h with
  | name h =>
      cases h with
      | @named t name ht =>
          refine .embedded ht hnext.1 hnext.2 ?_
          rw [hline t (by simp)]
          exact hend
      | qualified ht hu hv =>
          refine .qualified ht (by simp [hu]) ?_ hend
          exact TypeExpr.readsMember_of_spelledName (.qualified ht hu hv) ht hline hnext.1
  | pointer ht h =>
      refine .pointer (by simp [ht]) ?_ hend
      exact TypeExpr.reads_of_spelled (.pointer ht h) hline hnext.1
  | _ => cases htype

theorem reads_of_spelled_named {type : TypeExpr} {tag : Option String} {first : String}
    {names : List String} {t : Token} {ns vs : List Token} {line : Nat} {p : Position}
    (ht : t.kind = .identifier first) (hns : ns ≠ [] → nextIs .comma ns = true)
    (hnames : ∀ us, nextIs .comma us = false → ReadsNames ⟨t.line, ns ++ us⟩ names ⟨line, us⟩)
    (h : TypeExpr.Spelled type ts) (hline : ∀ t ∈ ts, t.line = line) (htag : SpelledTag tag us) :
    ∃ line', Reads (t :: (ns ++ (ts ++ (us ++ lineEnd p :: vs)))) ⟨first :: names, type, tag, []⟩
      ⟨line', lineEnd p :: vs⟩ := by
  have hnext := nextIs_of_spelledTag htag p vs
  have htype := nextIs_of_spelled h (us ++ lineEnd p :: vs)
  obtain ⟨line', hend⟩ := readsEnd_of_spelled (first :: names) type htag line p vs
  have hcomma : nextIs .dot (ns ++ (ts ++ (us ++ lineEnd p :: vs))) = false ∧
      (ns ++ (ts ++ (us ++ lineEnd p :: vs))).head?.any (endsEmbedded ·.kind) = false := by
    cases ns with
    | nil => exact ⟨htype.1, htype.2.2⟩
    | cons u ns =>
        have hu : u.kind = .comma := by simpa using hns (by simp)
        simp [hu, endsEmbedded]
  refine ⟨line', .named ht hcomma.1 hcomma.2 (hnames _ htype.2.1) ?_ hend⟩
  exact TypeExpr.reads_of_spelled h hline hnext.1

/-- The tokens of the type and the tag of a field, on the line that the type begins. -/
theorem scans_type (htype : f.type.isPrintable = true) (htag : f.tag.all isLiteral = true)
    (p : Position) (rest : List Char) :
    ∃ ts us q, Scans p (f.type.text.toList ++ (f.tagText.toList ++ '\n' :: rest))
        ((ts ++ us).map .token) q ('\n' :: rest) ∧
      TypeExpr.Spelled f.type ts ∧ SpelledTag f.tag us ∧ (∀ t ∈ ts, t.line = p.line) ∧
      q.line = p.line + (f.type.text.toList ++ f.tagText.toList).count '\n' := by
  obtain ⟨ts, q, hts, hspelled⟩ :=
    TypeExpr.spells_of_isPrintable htype p (stops_tagText f rest)
  obtain ⟨us, r, hus, htagged, hline⟩ := scans_tag htag q ('\n' :: rest)
  refine ⟨ts, us, r, ?_, hspelled, htagged, hts.lines, ?_⟩
  · rw [List.map_append]
    exact hts.scans.trans hus
  · rw [hline, hts.line, List.count_append, hts.breaks, Nat.zero_add]

theorem isComment_of_spelledTag {tag : Option String} (h : SpelledTag tag ts) :
    ∀ t ∈ ts, t.kind.isComment = false := by
  cases h <;> simp [*, Token.Kind.isComment]

theorem isComment_of_spelledField {type : TypeExpr} {tag : Option String}
    (h : TypeExpr.Spelled type ts) (htag : SpelledTag tag us) :
    ∀ t ∈ ts ++ us, t.kind.isComment = false := by
  intro t ht
  rcases List.mem_append.mp ht with ht | ht
  · exact TypeExpr.isComment_of_spelled h t ht
  · exact isComment_of_spelledTag htag t ht

/-- The text of a field is scanned up to the end of its line, and the tokens are read as the
field. -/
structure SpellsLine (f : Field) (p : Position) (rest : List Char) (ts : List Token)
    (q : Position) : Prop where
  scans : Scans p (f.text.toList ++ '\n' :: rest) (ts.map .token) q ('\n' :: rest)
  line : q.line = p.line + f.text.toList.count '\n'
  comments : ∀ t ∈ ts, t.kind.isComment = false
  ends : ∃ t, [t] <:+ ts ∧ t.kind.endsStatement = true
  reads : ∀ b us, ∃ line, Reads (ts ++ lineEnd b :: us) f ⟨line, lineEnd b :: us⟩

theorem spellsLine_embedded {type : TypeExpr} {tag : Option String} (htype : type.isPrintable = true)
    (hembedded : type.isEmbeddable = true) (htag : tag.all isLiteral = true) (p : Position)
    (rest : List Char) : ∃ ts q, SpellsLine ⟨[], type, tag, []⟩ p rest ts q := by
  obtain ⟨ts, us, q, hscan, hspelled, htagged, hlines, hline⟩ :=
    scans_type (f := ⟨[], type, tag, []⟩) htype htag p rest
  have htext : (text ⟨[], type, tag, []⟩).toList =
      type.text.toList ++ (tagText ⟨[], type, tag, []⟩).toList := by
    simp [text, isEmbedded]
  refine ⟨ts ++ us, q, ?_, ?_, isComment_of_spelledField hspelled htagged,
    ends_of_spelledTag (TypeExpr.ends_of_spelled hspelled) htagged, ?_⟩
  · rwa [htext, List.append_assoc]
  · rwa [htext]
  · intro b vs
    rw [List.append_assoc]
    exact reads_of_spelled_embedded hspelled hembedded hlines htagged

theorem spellsLine_named {type : TypeExpr} {tag : Option String} {first : String}
    {names : List String} (hnames : (first :: names).all isName = true)
    (htype : type.isPrintable = true) (htag : tag.all isLiteral = true) (p : Position)
    (rest : List Char) : ∃ ts q, SpellsLine ⟨first :: names, type, tag, []⟩ p rest ts q := by
  obtain ⟨t, ns, q, hspells, ht, hcomment, hcomma, hreads⟩ := spells_names hnames p
    (type.text.toList ++ ((tagText ⟨first :: names, type, tag, []⟩).toList ++ '\n' :: rest))
  have hblank := hspells.append (Mark.spells_blank q _) rfl
  obtain ⟨ts, us, r, hscan, hspelled, htagged, hlines, hline⟩ :=
    scans_type (f := ⟨first :: names, type, tag, []⟩) htype htag (q.shift 1) rest
  have htext : (text ⟨first :: names, type, tag, []⟩).toList =
      (String.intercalate ", " (first :: names)).toList ++ [' '] ++
        (type.text.toList ++ (tagText ⟨first :: names, type, tag, []⟩).toList) := by
    simp [text, isEmbedded]
  obtain ⟨u, hu, hend⟩ := ends_of_spelledTag (TypeExpr.ends_of_spelled hspelled) htagged
  refine ⟨t :: ns ++ (ts ++ us), r, ?_, ?_, ?_, ⟨u, hu.trans (List.suffix_append _ _), hend⟩, ?_⟩
  · have hall := hblank.scans.trans hscan
    rw [List.append_nil, ← List.map_append] at hall
    rw [htext]
    simpa using hall
  · rw [htext, List.count_append, hblank.breaks, Nat.zero_add, ← hblank.line]
    exact hline
  · intro v hv
    rcases List.mem_append.mp hv with hv | hv
    · rcases List.mem_cons.mp hv with rfl | hv
      · rw [ht]; rfl
      · exact hcomment v hv
    · exact isComment_of_spelledField hspelled htagged v hv
  · intro b vs
    have hfirst : t.line = (q.shift 1).line := (hspells.lines t (by simp)).trans hblank.line.symm
    rw [← hblank.line, ← hfirst] at hreads
    rw [← hfirst] at hlines
    simpa using reads_of_spelled_named (p := b) ht hcomma hreads hspelled hlines htagged

theorem spellsLine_of_isPrintable (h : f.isPrintable = true) (p : Position) (rest : List Char) :
    ∃ ts q, SpellsLine f p rest ts q := by
  rcases f with ⟨names, type, tag, doc⟩
  simp only [isPrintable, Bool.and_eq_true, List.isEmpty_iff] at h
  obtain ⟨⟨⟨⟨hnames, htype⟩, htag⟩, rfl⟩, hembedded⟩ := h
  cases names with
  | nil => exact spellsLine_embedded htype hembedded htag p rest
  | cons first names => exact spellsLine_named hnames htype htag p rest

/-- The text of a field is a line whose tokens are read as the field. -/
theorem writes_of_isPrintable (h : f.isPrintable = true) (p : Position) (rest : List Char) :
    ∃ marks ts b q, Writes p (f.text.toList ++ ['\n']) rest marks (ts ++ [lineEnd b]) q ∧
      ∀ us, ∃ line, Reads (ts ++ lineEnd b :: us) f ⟨line, lineEnd b :: us⟩ := by
  obtain ⟨ts, q, hline⟩ := spellsLine_of_isPrintable h p rest
  obtain ⟨t, ht, hend⟩ := hline.ends
  have hwrites := Mark.writes_line hline.scans hline.line hline.comments ht
  rw [if_pos hend] at hwrites
  exact ⟨_, ts, _, _, hwrites, hline.reads _⟩

/-- The lines of the fields are read as the fields, up to the brace behind them. -/
theorem writes_fields {fields : List Field} (h : fields.all isPrintable = true) (p : Position)
    (rest : List Char) :
    ∃ marks ts q, Writes p (unlines (fields.map text)).toList rest marks ts q ∧
      ∀ lastLine t us, t.kind = .closing .curly →
        ReadsAll lastLine [] (ts ++ t :: us) fields ⟨t.line, us⟩ := by
  induction fields generalizing p with
  | nil => exact ⟨[], [], p, Mark.writes_nil p rest, fun _ _ _ ht => .close ht⟩
  | cons f fields ih =>
      rw [List.all_cons, Bool.and_eq_true] at h
      obtain ⟨marks, ts, b, q, hfield, hread⟩ :=
        writes_of_isPrintable h.1 p ((unlines (fields.map text)).toList ++ rest)
      obtain ⟨marks', us, r, hfields, hreads⟩ := ih h.2 q
      refine ⟨marks ++ marks', ts ++ [lineEnd b] ++ us, r, ?_, ?_⟩
      · rw [List.map_cons, toList_unlines_cons]
        exact hfield.append hfields
      · intro lastLine t vs ht
        obtain ⟨line, hf⟩ := hread (us ++ t :: vs)
        have hdoc : f.doc = [] := by
          simp only [isPrintable, Bool.and_eq_true, List.isEmpty_iff] at h
          exact h.1.1.2
        have hall : ReadsAll lastLine f.doc (ts ++ lineEnd b :: (us ++ t :: vs)) (f :: fields)
            ⟨t.line, vs⟩ :=
          .field hf (.semicolon rfl (hreads line t vs ht))
        rw [hdoc] at hall
        simpa using hall

end Field

end DeclBridge
