import DeclBridge.Proofs.Grammar.Span
import DeclBridge.Proofs.Printing.Lines
import DeclBridge.Proofs.Scan.Whole

/-!
Type expressions and their texts. A type expression that is read and keeps nothing by shape only is
read from its own text.
-/

namespace DeclBridge

namespace Scanned

open Token (Shape isWhole isName isInteger lineEnd endStatements)

/-- The scanner reads the text as one token of the kind, and ends the statement behind it. -/
def IsSingle (kind : Token.Kind) (text : String) : Prop :=
  ∃ last, ofSource text = .ok ⟨[⟨kind, text, .start⟩, lineEnd last], last⟩

variable {shape : Shape} {text : String}

theorem isSingle_of_isWhole (h : isWhole shape text.toList = true)
    (hends : (shape.kind text.toList).endsStatement = true) :
    IsSingle (shape.kind text.toList) text := by
  obtain ⟨c, cs, htext, hn⟩ := Token.isWhole_iff.mp h
  have hscan := @Mark.scans_of_extent [] _ _ _ .start (Token.isSpace_of_extent hn)
    (by rwa [List.append_nil])
  rw [List.append_nil, ← htext] at hscan
  have hcomment : (shape.kind text.toList).isComment = false := by
    cases hkind : shape.kind text.toList <;>
      simp_all [Token.Kind.endsStatement, Token.Kind.isComment]
  refine ⟨Mark.behind .start shape text.toList, ?_⟩
  refine ofSource_eq_ok.mpr ⟨_, hscan, ?_⟩
  rw [Token.endStatements_token (by exact hcomment)]
  simp [Mark.tokenAt, hends, endStatements, Token.lineEndBefore]

theorem isGenuine_of_isSingle {kind : Token.Kind} (h : IsSingle kind text)
    (hwritten : kind ≠ .semicolon) : Token.IsGenuine ⟨kind, text, .start⟩ := by
  obtain ⟨last, hscan⟩ := h
  exact isGenuine_of_ofSource hscan _ (by simp) (by simp [Token.isLineEnd, hwritten])

theorem isName_iff {name : String} : isName name = true ↔ IsSingle (.identifier name) name := by
  constructor
  · intro h
    simp only [isName, Bool.and_eq_true, Option.isNone_iff_eq_none] at h
    have hkind : Shape.word.kind name.toList = .identifier name := by
      rw [Shape.kind, String.ofList_toList, h.2]
    rw [← hkind]
    exact isSingle_of_isWhole h.1 (by rw [hkind]; rfl)
  · intro h
    exact Token.isName_of_isGenuine (isGenuine_of_isSingle h (by simp)) rfl

theorem isInteger_iff : isInteger text = true ↔ IsSingle (.int text) text := by
  constructor
  · intro h
    have hkind : Shape.int.kind text.toList = .int text := by
      rw [Shape.kind, String.ofList_toList]
    rw [← hkind]
    exact isSingle_of_isWhole h (by rw [hkind]; rfl)
  · intro h
    exact Token.isInteger_of_isGenuine (isGenuine_of_isSingle h (by simp)) rfl

end Scanned

namespace TypeExpr

open Cursor
open Token (isName isInteger lineEnd)

/-- Whether no part of a type expression is kept by shape only. -/
def isSupported : TypeExpr → Bool
  | pointer target => target.isSupported
  | slice elem => elem.isSupported
  | array elem length => elem.isSupported && length.isSupported
  | map key value => key.isSupported && value.isSupported
  | unsupported _ => false
  | _ => true

/-- The names and the integer literals among the tokens are what the scanner reads as such. -/
structure Texts (ts : List Token) : Prop where
  name : ∀ t ∈ ts, ∀ name, t.kind = .identifier name → isName name = true
  integer : ∀ t ∈ ts, ∀ text, t.kind = .int text → isInteger text = true

variable {ts us : List Token} {type length : TypeExpr} {c d : Cursor}

theorem Texts.suffix (h : Texts ts) (hus : us <:+ ts) : Texts us :=
  ⟨fun t ht => h.name t (hus.mem ht), fun t ht => h.integer t (hus.mem ht)⟩

theorem texts_of_ofSource {source : String} {s : Scanned} (h : Scanned.ofSource source = .ok s) :
    Texts s.tokens := by
  have hgenuine := Scanned.isGenuine_of_ofSource h
  constructor
  · intro t ht name hkind
    exact Token.isName_of_isGenuine (hgenuine t ht (by simp [Token.isLineEnd, hkind])) hkind
  · intro t ht text hkind
    exact Token.isInteger_of_isGenuine (hgenuine t ht (by simp [Token.isLineEnd, hkind])) hkind

theorem isName_of_readsMember {name : String} {t : Token} (hts : Texts (t :: ts))
    (ht : t.kind = .identifier name) (h : ReadsMember name ⟨t.line, ts⟩ type c) :
    type = .named name ∧ isName name = true ∨
      ∃ member, type = .qualified name member ∧ isName name = true ∧ isName member = true := by
  have hname := hts.name t (by simp) name ht
  cases h with
  | alone => exact .inl ⟨rfl, hname⟩
  | @member _ u v us member _ hv => exact .inr ⟨member, rfl, hname, hts.name v (by simp) member hv⟩

theorem eq_of_endsLength {simple : TypeExpr} (h : EndsLength simple ts length c)
    (hlength : length.isSupported = true) : length = simple := by
  obtain ⟨-, hsimple⟩ := h
  split at hsimple
  · exact hsimple
  · rw [hsimple] at hlength
    cases hlength

theorem isLength_of_readsLength (hts : Texts ts) (h : ReadsLength ts length c)
    (hlength : length.isSupported = true) : length.isLength = true := by
  cases h with
  | int ht he =>
      rw [eq_of_endsLength he hlength]
      simp [isLength, hts.integer _ (by simp) _ ht]
  | counted _ he =>
      rw [eq_of_endsLength he hlength] at hlength
      cases hlength
  | name ht hm he =>
      rw [eq_of_endsLength he hlength]
      obtain ⟨hsimple, hname⟩ | ⟨member, hsimple, hname, hmember⟩ := isName_of_readsMember hts ht hm
      · simp [hsimple, isLength, hname]
      · simp [hsimple, isLength, hname, hmember]
  | computed _ he =>
      rw [eq_of_endsLength he hlength] at hlength
      cases hlength

/-- A type expression that is read has a text, unless a part of it is kept by shape only. -/
theorem isPrintable_of_reads (hts : Texts ts) (h : Reads ts type c)
    (htype : type.isSupported = true) : type.isPrintable = true := by
  induction h with
  | name ht hm =>
      obtain ⟨hsimple, hname⟩ | ⟨member, hsimple, hname, hmember⟩ := isName_of_readsMember hts ht hm
      · simp [hsimple, isPrintable, hname]
      · simp [hsimple, isPrintable, hname, hmember]
  | pointer _ _ ih => exact ih (hts.suffix (List.suffix_cons _ _)) htype
  | slice _ _ _ ih => exact ih (hts.suffix (List.suffix_append [_, _] _)) htype
  | array _ _ hl _ ih =>
      simp only [isSupported, Bool.and_eq_true] at htype
      have hts := hts.suffix (List.suffix_cons _ _)
      have hlength := isLength_of_readsLength hts hl htype.2
      have helem := ih (hts.suffix (behind_of_readsLength hl).suffix) htype.1
      simp [isPrintable, hlength, helem]
  | parens _ _ _ ih => exact ih (hts.suffix (List.suffix_cons _ _)) htype
  | @map t u v ts us key value line c _ _ hk _ _ ihKey ihValue =>
      simp only [isSupported, Bool.and_eq_true] at htype
      have hts := hts.suffix (List.suffix_append [t, u] ts)
      have hkey := ihKey hts htype.1
      have hbehind : v :: us <:+ ts := (behind_of_reads hk).suffix
      have hvalue := ihValue (hts.suffix ((List.suffix_cons v us).trans hbehind)) htype.2
      simp [isPrintable, hkey, hvalue]
  | dynamic => rfl
  | _ => cases htype

/-- The text of a type expression is read as that type expression, up to the end of the text. -/
theorem read_of_isPrintable (h : type.isPrintable = true) :
    ∃ s c, Scanned.ofSource type.text = .ok s ∧ read s.tokens = .ok (type, c) ∧
      c.1.rest = [lineEnd s.last] := by
  obtain ⟨ts, q, hspells, hspelled⟩ := @spells_of_isPrintable [] type h .start rfl
  have hscan := hspells.scans
  rw [List.append_nil] at hscan
  have hcomments := isComment_of_spelled hspelled
  obtain ⟨t, ⟨us, rfl⟩, hends⟩ := ends_of_spelled hspelled
  have hus : ∀ u ∈ us, u.kind.isComment = false := fun u hu => hcomments u (by simp [hu])
  have htokens := Mark.endStatements_tokens hus (hcomments t (by simp)) q []
  rw [List.append_nil, if_pos hends] at htokens
  have hreads : Reads (us ++ [t] ++ [lineEnd q]) type ⟨Position.start.line, [lineEnd q]⟩ :=
    reads_of_spelled hspelled hspells.lines rfl
  obtain ⟨hlt, hread⟩ := read_of_reads hreads
  refine ⟨⟨us ++ [t] ++ [lineEnd q], q⟩, ⟨_, hlt⟩, ?_, hread, rfl⟩
  refine Scanned.ofSource_eq_ok.mpr ⟨_, hscan, ?_⟩
  rw [htokens, List.append_assoc]
  rfl

/-- Type expressions without parts kept by shape only are read exactly if they are read from their
own texts, which say what they are by identifiers and integer literals of the scanner. -/
theorem read_text :
    (∀ name, isName name = true ↔ Scanned.IsSingle (.identifier name) name) ∧
    (∀ text, isInteger text = true ↔ Scanned.IsSingle (.int text) text) ∧
    (∀ type : TypeExpr, type.isPrintable = true →
      ∃ s c, Scanned.ofSource type.text = .ok s ∧ read s.tokens = .ok (type, c) ∧
        c.1.rest = [lineEnd s.last]) ∧
    (∀ source s ts type c, Scanned.ofSource source = .ok s → ts <:+ s.tokens →
      read ts = .ok (type, c) → type.isSupported = true → type.isPrintable = true) := by
  refine ⟨fun _ => Scanned.isName_iff, fun _ => Scanned.isInteger_iff,
    fun _ => read_of_isPrintable, ?_⟩
  intro source s ts type c hs hts hread htype
  exact isPrintable_of_reads ((texts_of_ofSource hs).suffix hts) (reads_of_read hread) htype

/-- A type expression of every form but those kept by shape only. -/
theorem read_text_map :
    ∃ s c, Scanned.ofSource "map[[0x1F]a.B]*[][n]interface\x7b\x7d" = .ok s ∧
      read s.tokens = .ok (.map (.array (.qualified "a" "B") (.named "0x1F"))
        (.pointer (.slice (.array .dynamic (.named "n")))), c) ∧
      c.1.rest = [lineEnd s.last] :=
  read_text.2.2.1 (.map (.array (.qualified "a" "B") (.named "0x1F"))
    (.pointer (.slice (.array .dynamic (.named "n"))))) (by decide)

end TypeExpr

end DeclBridge
