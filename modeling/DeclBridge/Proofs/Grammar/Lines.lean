import DeclBridge.Proofs.Documentation
import DeclBridge.Proofs.Grammar.Span
import DeclBridge.Proofs.Scan.Whole

/-!
Texts that hold no line break. Names, integers and line comments are such texts in every source, and
so is what type expressions, fields and declarations take from them.
-/

namespace DeclBridge

/-- Whether a text holds no line break. -/
def IsLine (text : String) : Prop :=
  '\n' ∉ text.toList

instance (text : String) : Decidable (IsLine text) := by
  unfold IsLine
  infer_instance

/-- Whether the comment is on one line if it is a line comment. -/
def Comment.StaysOnLine (c : Comment) : Prop :=
  ['/', '/'] <+: c.text.toList → IsLine c.text

/-- Whether the names, integers and line comments among tokens are on one line. -/
structure StayOnLine (ts : List Token) : Prop where
  name : ∀ t ∈ ts, ∀ name, t.kind = .identifier name → IsLine name
  integer : ∀ t ∈ ts, ∀ text, t.kind = .int text → IsLine text
  comment : ∀ t ∈ ts, ∀ text, t.kind = .comment text → (Comment.mk text t.line).StaysOnLine

theorem StayOnLine.suffix {ts us : List Token} (h : StayOnLine ts) (hus : us <:+ ts) :
    StayOnLine us :=
  ⟨fun t ht => h.name t (hus.mem ht), fun t ht => h.integer t (hus.mem ht),
    fun t ht => h.comment t (hus.mem ht)⟩

namespace Token

theorem isLine_of_isName {name : String} (h : isName name = true) : IsLine name := by
  simp only [isName, Bool.and_eq_true] at h
  obtain ⟨c, cs, htext, hn⟩ := isWhole_iff.mp h.1
  rw [IsLine, htext]
  exact not_mem_of_word hn

theorem isLine_of_isInteger {text : String} (h : isInteger text = true) : IsLine text := by
  obtain ⟨c, cs, htext, hn⟩ := isWhole_iff.mp h
  rw [IsLine, htext]
  exact not_mem_of_integer hn

theorem not_mem_of_lineComment {cs : List Char}
    (h : isWhole .comment ('/' :: '/' :: cs) = true) : '\n' ∉ cs := by
  obtain ⟨_, _, ⟨rfl, rfl⟩, hn⟩ := isWhole_iff.mp h
  cases extent_eq_ok.mp hn with
  | lineComment hreach =>
      rw [Reach.lineComment, Reach.whileTrue_eq, List.length_cons, Nat.add_comm,
        Nat.add_right_cancel_iff] at hreach
      rw [← (List.takeWhile_prefix _).eq_of_length hreach]
      intro hmem
      simpa using List.mem_takeWhile_imp hmem

theorem staysOnLine_of_isGenuine {t : Token} {text : String} (h : t.IsGenuine)
    (hkind : t.kind = .comment text) : (Comment.mk text t.line).StaysOnLine := by
  obtain ⟨hwhole, hshape⟩ := h
  simp only [hkind, Kind.shape, Shape.kind, Kind.comment.injEq] at hwhole hshape
  rw [Comment.StaysOnLine, IsLine, ← hshape, String.toList_ofList]
  intro hslashes
  obtain ⟨cs, hcs⟩ := hslashes.trans (Shape.dropReturns_prefix _)
  rw [← hcs] at hwhole
  have hline := not_mem_of_lineComment hwhole
  refine fun hmem => hline ?_
  have hall := (Shape.dropReturns_sublist _).subset hmem
  rw [← hcs] at hall
  simpa using hall

end Token

theorem stayOnLine_of_ofSource {source : String} {s : Scanned}
    (h : Scanned.ofSource source = .ok s) : StayOnLine s.tokens := by
  have hgenuine := Scanned.isGenuine_of_ofSource h
  constructor
  · intro t ht name hkind
    exact Token.isLine_of_isName
      (Token.isName_of_isGenuine (hgenuine t ht (by simp [Token.isLineEnd, hkind])) hkind)
  · intro t ht text hkind
    exact Token.isLine_of_isInteger
      (Token.isInteger_of_isGenuine (hgenuine t ht (by simp [Token.isLineEnd, hkind])) hkind)
  · intro t ht text hkind
    exact Token.staysOnLine_of_isGenuine (hgenuine t ht (by simp [Token.isLineEnd, hkind])) hkind

namespace TypeExpr

open Cursor

/-- Whether the names and the lengths in a type expression are on one line. -/
def StaysOnLine : TypeExpr → Prop
  | named name => IsLine name
  | pointer target => target.StaysOnLine
  | slice elem => elem.StaysOnLine
  | array elem length => elem.StaysOnLine ∧ length.StaysOnLine
  | map key value => key.StaysOnLine ∧ value.StaysOnLine
  | qualified qualifier name => IsLine qualifier ∧ IsLine name
  | dynamic | unsupported _ => True

variable {ts : List Token} {type length simple : TypeExpr} {c d : Cursor}

theorem staysOnLine_of_readsMember {name : String} {t : Token} (hts : StayOnLine (t :: ts))
    (ht : t.kind = .identifier name) (h : ReadsMember name ⟨t.line, ts⟩ type c) :
    type.StaysOnLine := by
  have hname := hts.name t (by simp) name ht
  cases h with
  | alone => exact hname
  | @member _ u v us member _ hv => exact ⟨hname, hts.name v (by simp) member hv⟩

theorem staysOnLine_of_endsLength (h : EndsLength simple ts length c)
    (hsimple : simple.StaysOnLine) : length.StaysOnLine := by
  rw [h.2]
  split
  · exact hsimple
  · trivial

theorem staysOnLine_of_readsLength (hts : StayOnLine ts) (h : ReadsLength ts length c) :
    length.StaysOnLine := by
  cases h with
  | int ht he => exact staysOnLine_of_endsLength he (hts.integer _ (by simp) _ ht)
  | counted _ he => exact staysOnLine_of_endsLength he trivial
  | name ht hm he => exact staysOnLine_of_endsLength he (staysOnLine_of_readsMember hts ht hm)
  | computed _ he => exact staysOnLine_of_endsLength he trivial

theorem staysOnLine_of_reads (hts : StayOnLine ts) (h : Reads ts type c) : type.StaysOnLine := by
  induction h with
  | name ht hm => exact staysOnLine_of_readsMember hts ht hm
  | pointer _ _ ih | parens _ _ _ ih => exact ih (hts.suffix (List.suffix_cons _ _))
  | slice _ _ _ ih => exact ih (hts.suffix (List.suffix_append [_, _] _))
  | array _ _ hl _ ih =>
      have hts := hts.suffix (List.suffix_cons _ _)
      have hlength := staysOnLine_of_readsLength hts hl
      exact ⟨ih (hts.suffix (behind_of_readsLength hl).suffix), hlength⟩
  | @map t u v ts us key value line c _ _ hk _ _ ihKey ihValue =>
      have hts := hts.suffix (List.suffix_append [t, u] ts)
      have hbehind : v :: us <:+ ts := (behind_of_reads hk).suffix
      exact ⟨ihKey hts, ihValue (hts.suffix ((List.suffix_cons v us).trans hbehind))⟩
  | _ => trivial

end TypeExpr

namespace Field

open Cursor

/-- Whether what a field takes from its tokens is on one line, as far as it has to be. -/
structure StaysOnLine (f : Field) : Prop where
  names : ∀ name ∈ f.names, IsLine name
  type : f.type.StaysOnLine
  doc : ∀ c ∈ f.doc, c.StaysOnLine

variable {ts : List Token} {f : Field} {c d : Cursor}

theorem staysOnLine_of_readsEnd {names : List String} {type : TypeExpr}
    (h : ReadsEnd names type c f d) (hnames : ∀ name ∈ names, IsLine name)
    (htype : type.StaysOnLine) : f.StaysOnLine := by
  cases h <;> exact ⟨hnames, htype, by simp⟩

theorem isLine_of_readsNames {names : List String} (hc : StayOnLine c.rest)
    (h : ReadsNames c names d) : ∀ name ∈ names, IsLine name := by
  induction h with
  | nil => simp
  | @cons _ t u us name names _ _ hu _ ih =>
      have hus := ih (hc.suffix (List.suffix_append [t, u] us))
      intro other hother
      rcases List.mem_cons.mp hother with rfl | hmem
      · exact hc.name u (by simp) _ hu
      · exact hus other hmem

theorem staysOnLine_of_reads (hts : StayOnLine ts) (h : Reads ts f c) : f.StaysOnLine := by
  cases h with
  | pointer _ hr he =>
      exact staysOnLine_of_readsEnd he (by simp) (TypeExpr.staysOnLine_of_reads hts hr)
  | qualified ht _ hm he =>
      exact staysOnLine_of_readsEnd he (by simp) (TypeExpr.staysOnLine_of_readsMember hts ht hm)
  | embedded ht _ _ he =>
      exact staysOnLine_of_readsEnd he (by simp) (hts.name _ (by simp) _ ht)
  | @named t ts first names type _ d _ _ ht _ _ hn hr he =>
      have hrest := hts.suffix (List.suffix_cons t ts)
      have hnames := isLine_of_readsNames hrest hn
      have hd := (behind_of_readsNames (Behind.first (t := t) (by rw [ht]; rfl)) hn).suffix
      refine staysOnLine_of_readsEnd he ?_ (TypeExpr.staysOnLine_of_reads (hts.suffix hd) hr)
      intro name hmem
      rcases List.mem_cons.mp hmem with rfl | hmem
      · exact hts.name t (by simp) _ ht
      · exact hnames name hmem

theorem staysOnLine_of_readsAll {lastLine : Nat} {doc : List Comment} {fields : List Field}
    (hts : StayOnLine ts) (hdoc : ∀ c ∈ doc, c.StaysOnLine)
    (h : ReadsAll lastLine doc ts fields c) : ∀ f ∈ fields, f.StaysOnLine := by
  induction h with
  | semicolon _ _ ih => exact ih (hts.suffix (List.suffix_cons _ _)) hdoc
  | @comment _ doc t ts text _ _ ht _ ih =>
      refine ih (hts.suffix (List.suffix_cons t ts)) ?_
      split
      · exact hdoc
      · intro c hc
        rcases List.mem_append.mp hc with hold | hnew
        · exact hdoc c hold
        · rw [List.mem_singleton.mp hnew]
          exact hts.comment t (by simp) text ht
  | close => simp
  | @field _ doc ts f fields _ _ hf _ ih =>
      have hfield := staysOnLine_of_reads hts hf
      have hfields := ih (hts.suffix (behind_of_reads hf).suffix) (by simp)
      intro g hg
      rcases List.mem_cons.mp hg with rfl | hmem
      · exact ⟨hfield.names, hfield.type, hdoc⟩
      · exact hfields g hmem

end Field

namespace Decl

open Cursor

/-- Whether what a declaration takes from its tokens is on one line, as far as it has to be. The
comments in front of the declaration are not taken from its tokens. -/
def StaysOnLine : Decl → Prop
  | .record r =>
      IsLine r.name ∧ (∀ f ∈ r.fields, f.StaysOnLine) ∧ ∀ c ∈ r.trailing, c.StaysOnLine
  | .alias a => IsLine a.name ∧ a.type.StaysOnLine ∧ ∀ c ∈ a.trailing, c.StaysOnLine

variable {ts : List Token} {d : Decl} {c : Cursor}

theorem staysOnLine_withComments_iff {comments : List Comment} :
    (d.withComments comments).StaysOnLine ↔ d.StaysOnLine := by
  cases d <;> rfl

theorem staysOnLine_of_readsBody {name : String} {line : Nat} (hname : IsLine name)
    (hts : StayOnLine ts) (h : ReadsBody name line ts d c) : d.StaysOnLine := by
  cases h with
  | @record t u ts _ _ _ _ hf =>
      have hrest := hts.suffix (List.suffix_append [t, u] ts)
      exact ⟨hname, Field.staysOnLine_of_readsAll hrest (by simp) hf, by simp⟩
  | type _ hr => exact ⟨hname, TypeExpr.staysOnLine_of_reads hts hr, by simp⟩

theorem staysOnLine_trailing (hc : StayOnLine c.rest) :
    ∀ comment ∈ (trailing c).1, comment.StaysOnLine := by
  unfold trailing
  split
  · next comment e h =>
    obtain ⟨t, us, text, hts, ht, -, rfl, -⟩ := commentOn?_eq_some.mp h
    have hmem : t ∈ c.rest := (suffix_dropLineEnd c.rest).mem (by simp [hts])
    rintro _ ⟨⟩
    exact hc.comment t hmem text ht
  · simp

theorem staysOnLine_withTrailing {comment : Option Comment} (hd : d.StaysOnLine)
    (hcomment : ∀ c ∈ comment, c.StaysOnLine) : (d.withTrailing comment).StaysOnLine := by
  cases d <;> exact ⟨hd.1, hd.2.1, hcomment⟩

end Decl

namespace Node

/-- Whether what a node takes from its tokens is on one line, as far as it has to be. -/
def StaysOnLine : Node → Prop
  | .comment c => c.StaysOnLine
  | .decl d => d.StaysOnLine
  | .other _ => True

end Node

namespace Decl

open Cursor

variable {ts : List Token} {c : Cursor}

theorem staysOnLine_of_readsSpec {line : Nat} {node : Node} (hts : StayOnLine ts)
    (h : ReadsSpec line ts node c) : node.StaysOnLine := by
  cases h with
  | generic => trivial
  | @decl t ts name d e ht _ hb _ =>
      have hbody := hts.suffix ((suffix_dropAssign ts).trans (List.suffix_cons t ts))
      have hdecl := staysOnLine_of_readsBody (hts.name t (by simp) name ht) hbody hb
      exact staysOnLine_withTrailing hdecl
        (staysOnLine_trailing (hbody.suffix (behind_of_readsBody hb).suffix))

theorem staysOnLine_of_readsGroup {line : Option Nat} {nodes : List Node} (hts : StayOnLine ts)
    (h : ReadsGroup line ts nodes c) : ∀ node ∈ nodes, node.StaysOnLine := by
  induction h with
  | semicolon _ _ ih => exact ih (hts.suffix (List.suffix_cons _ _))
  | @comment _ t ts text _ _ ht _ ih =>
      have hrest := ih (hts.suffix (List.suffix_cons t ts))
      simpa using ⟨hts.comment t (by simp) text ht, hrest⟩
  | close => simp
  | spec hs _ ih =>
      have hrest := ih (hts.suffix (suffix_of_readsSpec hs))
      simpa using ⟨staysOnLine_of_readsSpec hts hs, hrest⟩

theorem staysOnLine_of_reads {line : Nat} {nodes : List Node} (hts : StayOnLine ts)
    (h : Reads line ts nodes c) : ∀ node ∈ nodes, node.StaysOnLine := by
  cases h with
  | group _ hg => exact staysOnLine_of_readsGroup (hts.suffix (List.suffix_cons _ _)) hg
  | single hs => simpa using staysOnLine_of_readsSpec hts hs

end Decl

namespace Node

variable {ts : List Token} {nodes : List Node}

theorem staysOnLine_of_readsAll (hts : StayOnLine ts) (h : ReadsAll ts nodes) :
    ∀ node ∈ nodes, node.StaysOnLine := by
  induction h with
  | nil => simp
  | semicolon _ _ ih => exact ih (hts.suffix (List.suffix_cons _ _))
  | @comment t ts text _ ht _ ih =>
      have hrest := ih (hts.suffix (List.suffix_cons t ts))
      simpa using ⟨hts.comment t (by simp) text ht, hrest⟩
  | @package t u ts _ _ _ _ _ ih =>
      have hrest := ih (hts.suffix (List.suffix_append [t, u] ts))
      simpa using ⟨trivial, hrest⟩
  | @type t ts nodes more _ _ hd _ ih =>
      have hts := hts.suffix (List.suffix_cons t ts)
      have hrest := ih (hts.suffix (Decl.suffix_of_reads hd))
      intro node hnode
      exact (List.mem_append.mp hnode).elim (Decl.staysOnLine_of_reads hts hd node) (hrest node)
  | @skipped t ts _ _ _ ih =>
      have hrest := ih (hts.suffix
        ((Cursor.suffix_afterDeclaration t.line 0 ts).trans (List.suffix_cons t ts)))
      simpa using ⟨trivial, hrest⟩

theorem staysOnLine_of_ofSource {source : String} (h : ofSource source = .ok nodes) :
    ∀ node ∈ nodes, node.StaysOnLine := by
  obtain ⟨s, hs, hread⟩ := bind_eq_ok.mp h
  exact staysOnLine_of_readsAll (stayOnLine_of_ofSource hs) (readAll_eq_ok.mp hread)

/-- The declarations of a source and the comments in front of them are on one line as far as they
have to be. -/
theorem staysOnLine_documented (h : ∀ node ∈ nodes, node.StaysOnLine) {d : Decl}
    (hd : d ∈ documented nodes) : d.StaysOnLine ∧ ∀ c ∈ d.comments, c.StaysOnLine := by
  constructor
  · have hmem := List.mem_map_of_mem (f := Decl.withComments []) hd
    rw [documented, withComments_documentedFrom] at hmem
    obtain ⟨other, hother, hsame⟩ := List.mem_map.mp hmem
    obtain ⟨node, hnode, hdecl⟩ := List.mem_filterMap.mp hother
    rw [← Decl.staysOnLine_withComments_iff, ← hsame, Decl.staysOnLine_withComments_iff]
    cases node with
    | decl =>
        cases hdecl
        exact h _ hnode
    | comment | other => cases hdecl
  · intro c hc
    have hmem := (comments_documentedFrom .idle nodes).subset (List.mem_flatMap.mpr ⟨d, hd, hc⟩)
    obtain ⟨node, hnode, hcomment⟩ := List.mem_filterMap.mp hmem
    cases node with
    | comment =>
        cases hcomment
        exact h _ hnode
    | decl | other => cases hcomment

end Node

end DeclBridge
