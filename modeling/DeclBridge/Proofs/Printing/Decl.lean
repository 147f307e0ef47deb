import DeclBridge.Proofs.Grammar.Node
import DeclBridge.Proofs.Printing.Lines
import DeclBridge.Proofs.Scan.Tokens

/-!
Parsing undoes printing. The text of a list of declarations is read as exactly these declarations, each
on the line on which its text begins.
-/

namespace DeclBridge

open Cursor
open Mark (Spells Writes)
open Token (isName lineEnd)
open Token.Reach (continuesWord)

namespace Decl

/-- The lines of the declaration as it is written in Go. A tag may go over several lines of the
text. -/
def lines : Decl → List String
  | .record r => ("type " ++ r.name ++ " struct \x7b") :: r.fields.map Field.text ++ ["\x7d"]
  | .alias a => ["type " ++ a.name ++ " " ++ a.type.text]

/-- Whether the text of a declaration says what it is. Its comments are not part of the text. -/
def isPrintable : Decl → Bool
  | .record r =>
      isName r.name && r.fields.all Field.isPrintable && r.comments.isEmpty && r.trailing.isNone
  | .alias a =>
      isName a.name && a.type.isPrintable && a.comments.isEmpty && a.trailing.isNone

/-- The declaration on another line. -/
def onLine (line : Nat) : Decl → Decl
  | .record r => .record { r with line }
  | .alias a => .alias { a with line }

/-- Declarations as nodes, each on the line on which its text begins if the first one begins on
`line`. -/
def nodesFrom (line : Nat) : List Decl → List Node
  | [] => []
  | d :: ds => .decl (d.onLine line) :: nodesFrom (line + (unlines d.lines).toList.count '\n') ds

variable {p q : Position} {rest : List Char} {ts more : List Token} {d : Decl}

theorem spells_head {name : String} (h : isName name = true) (p : Position) (rest : List Char) :
    ∃ t u q, Spells p ("type ".toList ++ (name.toList ++ [' '])) rest [t, u] q ∧
      t.kind = .keyword .type ∧ u.kind = .identifier name := by
  have hstop : ∀ cs : List Char, (' ' :: cs).head?.any continuesWord = false := by
    intro cs
    rw [List.head?_cons]
    decide
  obtain ⟨t, q, ht, hkind⟩ := Mark.spells_keyword .type p (hstop (name.toList ++ ' ' :: rest))
  have hfirst := ht.append (Mark.spells_blank q (name.toList ++ ' ' :: rest)) rfl
  obtain ⟨u, r, hu, hkind'⟩ := Mark.spells_name h (q.shift 1) (hstop rest)
  have hsecond := hu.append (Mark.spells_blank r rest) rfl
  refine ⟨t, u, r.shift 1, ?_, hkind, hkind'⟩
  exact hfirst.append hsecond (by simp)

/-- No comment trails a declaration whose line ends behind it, unless one begins the next line. -/
theorem trailing_lineEnd {line : Nat} {b : Position}
    (h : more.head?.all (!·.kind.isComment) = true) :
    trailing ⟨line, lineEnd b :: more⟩ = (none, ⟨line, lineEnd b :: more⟩) := by
  have hcomment : commentOn? line more = none := by
    rw [Option.eq_none_iff_forall_ne_some]
    rintro ⟨c, d⟩ hc
    obtain ⟨t, us, text, rfl, ht, -⟩ := commentOn?_eq_some.mp hc
    simp [ht, Token.Kind.isComment] at h
  simp only [trailing]
  rw [show dropLineEnd (lineEnd b :: more) = more from rfl, hcomment]

/-- A type expression with a text is not taken for type parameters. -/
theorem hasParameters_of_spelled {type : TypeExpr} (h : TypeExpr.Spelled type ts)
    (us : List Token) :
    (nextIs (.opening .square) (ts ++ us) && hasParameters (ts ++ us)) = false := by
  cases h with
  | name h => cases h <;> simp [*]
  | @slice t u ts _ ht hu _ =>
      rw [List.cons_append, List.cons_append]
      cases ts ++ us <;> simp [hu, hasParameters]
  | array ht hl hu =>
      cases hl with
      | int hv => simp [hv, hasParameters]
      | name hn => cases hn <;> simp [hasParameters, *]
  | _ => simp [*]

theorem head_of_spelled {type : TypeExpr} (h : TypeExpr.Spelled type ts) (us : List Token) :
    dropAssign (ts ++ us) = ts ++ us ∧ nextIs (.keyword .struct) (ts ++ us) = false := by
  obtain ⟨t, ts, rfl, ht⟩ := TypeExpr.begins_of_spelled h
  rw [List.cons_append, nextIs_cons, dropAssign]
  cases hkind : t.kind <;> simp_all [TypeExpr.beginsText]
  rintro rfl
  simp at ht

/-- A declaration in front of a token that is no comment is read without a trailing comment. -/
theorem reads_of_body {name : String} {line last : Nat} {t : Token} {b : Position}
    (ht : t.kind = .identifier name)
    (hbody : ReadsBody name line (dropAssign (ts ++ lineEnd b :: more)) d ⟨last, lineEnd b :: more⟩)
    (hgeneric : (nextIs (.opening .square) (ts ++ lineEnd b :: more) &&
      hasParameters (ts ++ lineEnd b :: more)) = false)
    (hmore : more.head?.all (!·.kind.isComment) = true) :
    Reads line (t :: (ts ++ lineEnd b :: more)) [.decl (d.withTrailing none)]
      ⟨last, lineEnd b :: more⟩ := by
  have hspec := ReadsSpec.decl ht hgeneric hbody rfl
  rw [trailing_lineEnd hmore] at hspec
  exact .single hspec

/-- The text of a declaration is scanned as tokens that are read as the declaration. -/
structure SpellsLines (d : Decl) (p : Position) (rest : List Char) (marks : List Mark)
    (ts : List Token) (q : Position) : Prop where
  writes : Writes p (unlines d.lines).toList rest marks ts q
  comments : ts.head?.all (!·.kind.isComment) = true
  reads : ∀ more nodes, more.head?.all (!·.kind.isComment) = true → Node.ReadsAll more nodes →
    Node.ReadsAll (ts ++ more) (.decl (d.onLine p.line) :: nodes)

theorem spellsLines_alias {a : Alias} (h : (Decl.alias a).isPrintable = true) (p : Position)
    (rest : List Char) : ∃ marks ts q, SpellsLines (.alias a) p rest marks ts q := by
  rcases a with ⟨name, line, type, comments, trailing⟩
  simp only [isPrintable, Bool.and_eq_true, List.isEmpty_iff, Option.isNone_iff_eq_none] at h
  obtain ⟨⟨⟨hname, htype⟩, rfl⟩, rfl⟩ := h
  obtain ⟨t, u, q, hhead, ht, hu⟩ := spells_head hname p (type.text.toList ++ '\n' :: rest)
  have hstop : ('\n' :: rest).head?.any continuesWord = false := by
    rw [List.head?_cons]
    decide
  obtain ⟨ts, r, hts, hspelled⟩ := TypeExpr.spells_of_isPrintable htype q hstop
  have hall := hhead.append hts rfl
  obtain ⟨v, hv, hend⟩ := TypeExpr.ends_of_spelled hspelled
  have hcomments : ∀ w ∈ [t, u] ++ ts, w.kind.isComment = false := by
    simp only [List.cons_append, List.nil_append, List.mem_cons]
    rintro w (rfl | rfl | hw)
    · rw [ht]; rfl
    · rw [hu]; rfl
    · exact TypeExpr.isComment_of_spelled hspelled w hw
  have hwrites := Mark.writes_of_spells hall hcomments (hv.trans (List.suffix_append _ _))
  rw [if_pos hend] at hwrites
  have htext : (unlines (Decl.alias ⟨name, line, type, [], none⟩).lines).toList =
      "type ".toList ++ (name.toList ++ [' ']) ++ type.text.toList ++ ['\n'] := by
    rw [lines, toList_unlines_cons]
    simp [unlines]
  rw [← htext] at hwrites
  refine ⟨_, _, _, ⟨hwrites, ?_, ?_⟩⟩
  · simp [ht, Token.Kind.isComment]
  · intro more nodes hmore hnodes
    have hfirst := head_of_spelled hspelled (lineEnd (r.shift 1) :: more)
    have hdot : nextIs .dot (lineEnd (r.shift 1) :: more) = false := rfl
    have hbody : ReadsBody name p.line (dropAssign (ts ++ lineEnd (r.shift 1) :: more))
        (.alias ⟨name, p.line, type, [], none⟩) ⟨q.line, lineEnd (r.shift 1) :: more⟩ := by
      rw [hfirst.1]
      exact .type hfirst.2 (TypeExpr.reads_of_spelled hspelled hts.lines hdot)
    have hreads := reads_of_body hu hbody (hasParameters_of_spelled hspelled _) hmore
    have hline' : t.line = p.line := hhead.lines t (by simp)
    rw [← hline'] at hreads ⊢
    rw [List.append_assoc]
    exact .type ht hreads (.semicolon rfl hnodes)

theorem writes_opening {name : String} (h : isName name = true) (p : Position)
    (rest : List Char) :
    ∃ marks t u v w q, Writes p ("type " ++ name ++ " struct \x7b\n").toList rest marks
        [t, u, v, w] q ∧
      t.kind = .keyword .type ∧ u.kind = .identifier name ∧ v.kind = .keyword .struct ∧
      w.kind = .opening .curly ∧ t.line = p.line := by
  have hstop : (' ' :: '{' :: '\n' :: rest).head?.any continuesWord = false := by
    rw [List.head?_cons]
    decide
  obtain ⟨t, u, q, hhead, ht, hu⟩ :=
    spells_head h p (Keyword.struct.spelling.toList ++ ' ' :: '{' :: '\n' :: rest)
  obtain ⟨v, r, hv, hkind⟩ := Mark.spells_keyword .struct q hstop
  obtain ⟨w, s, hw, hkind'⟩ := Mark.spells_opening .curly ('\n' :: rest) (r.shift 1)
  have hbrace := (Mark.spells_blank r ('{' :: '\n' :: rest)).append hw rfl
  have hall := hhead.append (hv.append hbrace rfl) (by simp [Mark.openingChar])
  have hcomments : ∀ x ∈ [t, u] ++ ([v] ++ ([] ++ [w])), x.kind.isComment = false := by
    simp [ht, hu, hkind, hkind', Token.Kind.isComment]
  have hwrites := Mark.writes_of_spells (t := w) hall hcomments ⟨[t, u, v], by simp⟩
  rw [hkind', if_neg (by decide)] at hwrites
  have htext : ("type " ++ name ++ " struct \x7b\n").toList =
      "type ".toList ++ (name.toList ++ [' ']) ++ (Keyword.struct.spelling.toList ++
        ([' '] ++ [Mark.openingChar .curly])) ++ ['\n'] := by
    simp [Keyword.spelling, Mark.openingChar]
  rw [← htext] at hwrites
  exact ⟨_, t, u, v, w, _, hwrites, ht, hu, hkind, hkind', hhead.lines t (by simp)⟩

theorem writes_closing (p : Position) (rest : List Char) :
    ∃ marks t b q, Writes p "\x7d\n".toList rest marks [t, lineEnd b] q ∧
      t.kind = .closing .curly := by
  obtain ⟨t, q, ht, hkind⟩ := Mark.spells_closing .curly ('\n' :: rest) p
  have hwrites := Mark.writes_of_spells (t := t) ht
    (by simp [hkind, Token.Kind.isComment]) List.suffix_rfl
  rw [hkind, if_pos (by decide)] at hwrites
  exact ⟨_, t, _, _, hwrites, hkind⟩

theorem spellsLines_record {r : Record} (h : (record r).isPrintable = true) (p : Position)
    (rest : List Char) : ∃ marks ts q, SpellsLines (record r) p rest marks ts q := by
  rcases r with ⟨name, line, fields, comments, trailing⟩
  simp only [isPrintable, Bool.and_eq_true, List.isEmpty_iff, Option.isNone_iff_eq_none] at h
  obtain ⟨⟨⟨hname, hfields⟩, rfl⟩, rfl⟩ := h
  obtain ⟨marks, t, u, v, w, q, hopening, ht, hu, hv, hw, hline⟩ := writes_opening hname p
    ((unlines (fields.map Field.text)).toList ++ ("\x7d\n".toList ++ rest))
  obtain ⟨marks', ts, r, hlines, hreads⟩ :=
    Field.writes_fields hfields q ("\x7d\n".toList ++ rest)
  obtain ⟨marks'', x, b, s, hclosing, hx⟩ := writes_closing r rest
  have hwrites := (hopening.append hlines).append hclosing
  have htext : (unlines (record ⟨name, line, fields, [], none⟩).lines).toList =
      ("type " ++ name ++ " struct \x7b\n").toList ++
        (unlines (fields.map Field.text)).toList ++ "\x7d\n".toList := by
    simp [lines, unlines]
  rw [← htext] at hwrites
  refine ⟨_, _, _, ⟨hwrites, ?_, ?_⟩⟩
  · simp [ht, Token.Kind.isComment]
  · intro more nodes hmore hnodes
    have hfields := hreads 0 x (lineEnd b :: more) hx
    have hbody : ReadsBody name t.line (dropAssign ([v, w] ++ ts ++ [x] ++ lineEnd b :: more))
        (record ⟨name, t.line, fields, [], none⟩) ⟨x.line, lineEnd b :: more⟩ := by
      have hassign : dropAssign ([v, w] ++ ts ++ [x] ++ lineEnd b :: more) =
          v :: w :: (ts ++ x :: lineEnd b :: more) := by
        simp [dropAssign, hv]
      rw [hassign]
      exact .record hv hw hfields
    have hreads := reads_of_body hu hbody (by simp [hv]) hmore
    have hnode : Node.ReadsAll _ (.decl (onLine t.line (record ⟨name, line, fields, [], none⟩)) ::
        nodes) := .type ht hreads (.semicolon rfl hnodes)
    rw [← hline]
    simpa using hnode

theorem spellsLines_of_isPrintable (h : d.isPrintable = true) (p : Position) (rest : List Char) :
    ∃ marks ts q, SpellsLines d p rest marks ts q := by
  rcases d with r | a
  · exact spellsLines_record h p rest
  · exact spellsLines_alias h p rest

/-- The lines of declarations are scanned as tokens that are read as the declarations. -/
theorem writes_of_isPrintable {ds : List Decl} (h : ∀ d ∈ ds, d.isPrintable = true) (p : Position) :
    ∃ marks ts q, Writes p (unlines (ds.flatMap lines)).toList [] marks ts q ∧
      ts.head?.all (!·.kind.isComment) = true ∧ Node.ReadsAll ts (nodesFrom p.line ds) := by
  induction ds generalizing p with
  | nil => exact ⟨[], [], p, Mark.writes_nil p [], rfl, .nil⟩
  | cons d ds ih =>
      have htext : (unlines ((d :: ds).flatMap lines)).toList =
          (unlines d.lines).toList ++ (unlines (ds.flatMap lines)).toList := by
        rw [List.flatMap_cons, unlines_append, String.toList_append]
      obtain ⟨marks, ts, q, hd⟩ := spellsLines_of_isPrintable (h d (by simp)) p
        ((unlines (ds.flatMap lines)).toList ++ [])
      obtain ⟨marks', us, r, hds, hcomment, hnodes⟩ := ih (fun e he => h e (by simp [he])) q
      refine ⟨marks ++ marks', ts ++ us, r, ?_, ?_, ?_⟩
      · rw [htext]
        exact hd.writes.append hds
      · rw [List.head?_append]
        cases hhead : ts.head? with
        | none => exact hcomment
        | some t => simpa [hhead] using hd.comments
      · rw [nodesFrom, ← hd.writes.line]
        exact hd.reads us _ hcomment hnodes

end Decl

namespace Node

/-- Parsing undoes printing: the text of declarations is read as these declarations, in their order,
each on the line of its keyword, and as nothing else. -/
theorem ofSource_unlines (ds : List Decl) (h : ∀ d ∈ ds, d.isPrintable = true) :
    ofSource (unlines (ds.flatMap Decl.lines)) = .ok (Decl.nodesFrom 1 ds) := by
  obtain ⟨marks, ts, q, hwrites, -, hnodes⟩ := Decl.writes_of_isPrintable h .start
  have hscan := hwrites.scans
  have hends := hwrites.statements q []
  rw [List.append_nil] at hscan hends
  have hsource : Scanned.ofSource (unlines (ds.flatMap Decl.lines)) = .ok ⟨ts, q⟩ := by
    refine Scanned.ofSource_eq_ok.mpr ⟨marks, hscan, ?_⟩
    simpa [Token.endStatements] using hends.symm
  exact bind_eq_ok.mpr ⟨_, hsource, readAll_eq_ok.mpr hnodes⟩

/-- A struct whose last tag goes over two lines, and a map of arrays behind it. -/
def pairAndIndex : List Decl :=
  [.record ⟨"Pair", 1,
      [⟨[], .pointer (.named "Base"), none, []⟩, ⟨[], .qualified "b" "Meta", none, []⟩,
        ⟨["First", "Second"], .slice (.named "T"), some "\"json\"", []⟩,
        ⟨["Rest"], .array (.qualified "b" "Item") (.named "2"), some "`one\ntwo`", []⟩], [], none⟩,
    .alias ⟨"Index", 8, .map (.named "string") (.array .dynamic (.named "N")), [], none⟩]

theorem ofSource_unlines_pairAndIndex :
    ofSource (unlines ["type Pair struct \x7b", "*Base", "b.Meta", "First, Second []T \"json\"",
        "Rest [2]b.Item `one", "two`", "\x7d", "type Index map[string][N]interface\x7b\x7d"]) =
      .ok (pairAndIndex.map .decl) := by
  have htext : unlines (pairAndIndex.flatMap Decl.lines) =
      unlines ["type Pair struct \x7b", "*Base", "b.Meta", "First, Second []T \"json\"",
        "Rest [2]b.Item `one", "two`", "\x7d", "type Index map[string][N]interface\x7b\x7d"] := by
    decide +kernel
  have hnodes : Decl.nodesFrom 1 pairAndIndex = pairAndIndex.map .decl := by decide +kernel
  rw [← htext, ← hnodes]
  exact ofSource_unlines pairAndIndex (by decide +kernel)

end Node

end DeclBridge
