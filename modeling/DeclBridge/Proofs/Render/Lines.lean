import DeclBridge.Proofs.Accounting
import DeclBridge.Proofs.Grammar.Lines
import DeclBridge.Proofs.Naming
import DeclBridge.Proofs.Render.Field
import DeclBridge.Proofs.Text.Split

/-!
The lines that declarations are rendered to. Each part of a rendered declaration is on one line, and
so the lines have one of a few forms.
-/

namespace DeclBridge

variable {s t name text wire : String}

theorem isLine_append_iff : IsLine (s ++ t) ↔ IsLine s ∧ IsLine t := by
  simp [IsLine, not_or]

def IsDocLine (line : String) : Prop :=
  IsLine line ∧ ∃ text, line = "///" ++ text

namespace Comment

theorem isDocLine_cons {cs : List Char} (h : '\n' ∉ cs) :
    IsDocLine (String.ofList ('/' :: '/' :: '/' :: cs)) := by
  constructor
  · rw [IsLine, String.toList_ofList]
    simpa using h
  · refine ⟨String.ofList cs, String.toList_inj.mp ?_⟩
    simp

theorem dropEnds_subset {α : Type} (p : α → Bool) (xs : List α) :
    ((xs.dropWhile p).reverse.dropWhile p).reverse ⊆ xs := by
  intro x h
  have hinner := (List.dropWhile_suffix p).mem (List.mem_reverse.mp h)
  exact (List.dropWhile_suffix p).mem (List.mem_reverse.mp hinner)

theorem isDocLine_of_mem_docLines {c : Comment} (hc : c.StaysOnLine) {line : String}
    (h : line ∈ c.docLines) : IsDocLine line := by
  rw [docLines] at h
  split at h
  · next rest hrest =>
    have hline := hc (by rw [hrest]; exact List.prefix_append ['/', '/'] rest)
    rw [IsLine, hrest] at hline
    rw [List.mem_singleton.mp h]
    exact isDocLine_cons (by simpa using hline)
  · obtain ⟨cs, hcs, rfl⟩ := List.mem_map.mp h
    obtain ⟨piece, hpiece, rfl⟩ := List.mem_map.mp (dropEnds_subset List.isEmpty _ hcs)
    obtain ⟨first, pieces, hsplit, -, hpieces⟩ := Text.exists_split '\n' (body c.text.toList)
    rw [hsplit] at hpiece
    have htrimmed : '\n' ∉ Text.trim piece :=
      fun hmem => hpieces piece hpiece (dropEnds_subset Text.isBlank piece hmem)
    split
    · exact @isDocLine_cons [] (by simp)
    · exact isDocLine_cons (by simpa using htrimmed)

end Comment

theorem isDocLine_of_mem_docLines {comments : List Comment} {trailing : Option Comment}
    (hcomments : ∀ c ∈ comments, c.StaysOnLine) (htrailing : ∀ c ∈ trailing, c.StaysOnLine) :
    ∀ line ∈ docLines comments trailing, IsDocLine line := by
  intro line h
  obtain ⟨c, hc, hline⟩ := List.mem_flatMap.mp h
  refine Comment.isDocLine_of_mem_docLines ?_ hline
  rcases List.mem_append.mp hc with hmem | hmem
  · exact hcomments c hmem
  · exact htrailing c (by simpa using hmem)

namespace Text.Quoted

theorem not_mem_toDigits (n : Nat) : '\n' ∉ Nat.toDigits 16 n := by
  have hdigit : ∀ d < 16, '\n' ≠ d.digitChar := by decide
  induction n using Nat.strongRecOn with
  | ind n ih =>
      rw [Nat.toDigits_eq_if (by decide)]
      split
      · next hn =>
        rw [List.mem_singleton]
        exact hdigit n hn
      · next hn =>
        rw [List.mem_append, List.mem_singleton, not_or]
        exact ⟨ih (n / 16) (by omega), hdigit (n % 16) (Nat.mod_lt n (by decide))⟩

theorem not_mem_escape (c : Char) : '\n' ∉ escape c := by
  unfold escape
  split_ifs with _ _ _ hnewline
  all_goals try decide
  · simpa using Ne.symm hnewline
  · simp [codeEscape, not_mem_toDigits]

theorem isLine_encode (text : String) : IsLine (encode text) := by
  rw [IsLine, encode, String.toList_ofList]
  simp [not_mem_escape]

end Text.Quoted

theorem isLine_typeName (h : IsLine name) : IsLine (typeName name) := by
  rw [IsLine, typeName, String.toList_ofList]
  rw [IsLine] at h
  cases hname : name.toList with
  | nil => simp [Naming.capitalize]
  | cons c cs =>
      rw [hname, List.mem_cons, not_or] at h
      rw [Naming.capitalize, List.mem_append, not_or]
      exact ⟨fun hmem => h.1 (Text.eq_of_mem_upper (by decide) hmem), h.2⟩

theorem isLine_renameAttr (wire : String) : IsLine (renameAttr wire) := by
  unfold renameAttr
  rw [isLine_append_iff, isLine_append_iff]
  exact ⟨⟨by decide +kernel, Text.Quoted.isLine_encode wire⟩, by decide⟩

/-- Whether a text is the attribute of a field, with its name on the wire or without. -/
def IsAttr (attr : String) : Prop :=
  IsLine attr ∧
    (attr = "#[serde(default)]" ∨ ∃ wire, attr = "#[serde(default, rename = \"" ++ wire ++ "\")]")

theorem isAttr_renameAttr (wire : String) : IsAttr (renameAttr wire) := by
  have hopening : "#[serde(default, rename = \"" = "#[serde(default, rename = " ++ "\"" := rfl
  have hclosing : "\")]" = "\"" ++ ")]" := rfl
  refine ⟨isLine_renameAttr wire, .inr ⟨String.ofList (wire.toList.flatMap Text.Quoted.escape), ?_⟩⟩
  have hencode : Text.Quoted.encode wire =
      "\"" ++ String.ofList (wire.toList.flatMap Text.Quoted.escape) ++ "\"" := by
    rw [← String.toList_inj]
    simp [Text.Quoted.encode]
  unfold renameAttr
  rw [hencode, hopening, hclosing]
  simp only [String.append_assoc]

theorem isLine_avoidBarred (h : IsLine name) (wire : Option String) :
    IsLine (avoidBarred name wire).1 := by
  rw [avoidBarred]
  split
  · exact isLine_append_iff.mpr ⟨h, by decide⟩
  · exact h

/-- Whether what a field of a struct is made of is on one line each. -/
structure FieldItem.IsClean (item : FieldItem) : Prop where
  doc : ∀ line ∈ item.doc, IsDocLine line
  attr : ∀ attr ∈ item.attr, IsAttr attr
  ident : IsLine item.ident
  type : IsLine item.type

/-- Whether what becomes of a name is made of texts on one line each. -/
def FieldOutput.IsClean : FieldOutput → Prop
  | active item => item.IsClean
  | omitted ident => IsLine ident

theorem TypeExpr.isLine_of_embeddedName {type : TypeExpr} (htype : type.StaysOnLine)
    (h : type.embeddedName = .ok name) : IsLine name := by
  unfold embeddedName at h
  split at h <;> cases h
  · exact htype
  · exact htype.2
  · exact htype
  · exact htype.2

namespace Ruleset

/-- Whether the texts that a ruleset puts into names and types are on one line each. -/
structure StaysOnLine (r : Ruleset) : Prop where
  acronyms : ∀ a ∈ r.acronyms, IsLine a
  replacements : ∀ e ∈ r.overrides.entries, IsLine e.2
  dynamicType : ∀ type ∈ r.dynamicType, IsLine type

theorem staysOnLine_ofPreset (p : Preset) : (ofPreset p).StaysOnLine := by
  have hkeywords : ∀ word ∈ keywords, IsLine ("r#" ++ word) := by decide
  have hacronyms : ∀ a ∈ current.acronyms, IsLine a := by decide
  refine ⟨fun a ha => hacronyms a (acronyms_subset ha), ?_, by cases p <;> decide⟩
  intro e he
  obtain ⟨word, hword, hreplacement, -⟩ := mem_overrides he
  rw [hreplacement]
  exact hkeywords word hword

variable {r : Ruleset} {f : Field}

theorem isLine_snakeName (hr : r.StaysOnLine) (h : IsLine name) : IsLine (r.snakeName name) := by
  have hnewline : '\n'.toNat < 'A'.toNat := by decide
  intro hmem
  rw [snakeName, String.toList_ofList] at hmem
  rcases Naming.mem_of_mem_normalizeAcronyms hnewline (Naming.mem_of_mem_snakeCase hnewline hmem)
    with hname | ⟨a, ha, hacronym⟩
  · exact h (List.mem_filter.mp hname).1
  · exact hr.acronyms a ha hacronym

theorem isLine_fieldName (hr : r.StaysOnLine) (h : IsLine name) : IsLine (r.fieldName name) := by
  have hreplaced {name replacement : String} (hget : r.overrides.get? name = some replacement) :
      IsLine replacement :=
    hr.replacements _ (Overrides.mem_of_get? hget)
  cases hget : r.overrides.get? name with
  | some replacement =>
      rw [fieldName_of_get? hget]
      exact hreplaced hget
  | none =>
      rw [fieldName_of_get?_none hget]
      cases hsnake : r.overrides.get? (r.snakeName name) with
      | some replacement => exact hreplaced hsnake
      | none => exact isLine_snakeName hr h

theorem isLine_rustName (hr : r.StaysOnLine) (h : IsLine name) : IsLine (r.rustName name) := by
  rw [rustName]
  split
  · next primitive _ hprimitive =>
    unfold TypeExpr.primitive? at hprimitive
    split at hprimitive <;> cases hprimitive <;> decide
  · next dynamic _ hdynamic =>
    split
    · exact hr.dynamicType dynamic hdynamic
    · exact isLine_typeName h
  · exact isLine_typeName h

/-- The Rust type of a type expression is on one line. -/
theorem isLine_rustType (hr : r.StaysOnLine) {type : TypeExpr} {rust : String}
    (htype : type.StaysOnLine) (h : r.rustType type = .ok rust) : IsLine rust := by
  induction type generalizing rust with
  | named name =>
      cases h
      exact isLine_rustName hr htype
  | pointer target ih =>
      obtain ⟨inner, hinner, h⟩ := bind_eq_ok.mp h
      have hline := ih htype hinner
      split at h <;> cases h
      · simp only [isLine_append_iff, hline]
        decide
      · exact hline
  | slice elem ih =>
      obtain ⟨inner, hinner, ⟨⟩⟩ := bind_eq_ok.mp h
      simp only [isLine_append_iff, ih htype hinner]
      decide
  | array elem length ihElem ihLength =>
      obtain ⟨e, he, h⟩ := bind_eq_ok.mp h
      obtain ⟨l, hl, ⟨⟩⟩ := bind_eq_ok.mp h
      simp only [isLine_append_iff, ihElem htype.1 he, ihLength htype.2 hl]
      decide
  | map key value ihKey ihValue =>
      obtain ⟨k, hk, h⟩ := bind_eq_ok.mp h
      obtain ⟨v, hv, ⟨⟩⟩ := bind_eq_ok.mp h
      simp only [isLine_append_iff, ihKey htype.1 hk, ihValue htype.2 hv]
      decide
  | qualified qualifier name =>
      rw [rustType] at h
      split at h <;> cases h
      decide
  | dynamic =>
      cases h
      cases hdynamic : r.dynamicType with
      | none => decide
      | some type => exact hr.dynamicType type hdynamic
  | unsupported shape => cases h

theorem isClean_of_embeddedField (hr : r.StaysOnLine) (hf : f.StaysOnLine) {item : FieldItem}
    (h : r.embeddedField f = .ok item) : item.IsClean := by
  obtain ⟨name, hname, rust, hrust, rfl⟩ := embeddedField_eq_ok.mp h
  have hline := TypeExpr.isLine_of_embeddedName hf.type hname
  constructor
  · exact isDocLine_of_mem_docLines hf.doc (by simp)
  · intro attr hattr
    obtain ⟨wire, -, rfl⟩ := Option.mem_map.mp hattr
    exact isAttr_renameAttr wire
  · exact isLine_avoidBarred (isLine_fieldName hr hline) none
  · exact isLine_rustType hr hf.type hrust

theorem isClean_namedField (hr : r.StaysOnLine) {doc : List String} {type name : String}
    (hdoc : ∀ line ∈ doc, IsDocLine line) (htype : IsLine type) (hname : IsLine name)
    (wire : Option String) : (r.namedField doc type wire name).IsClean := by
  constructor
  · exact hdoc
  · intro attr hattr
    have hform (wire : Option String) (h : attr = (wire.map renameAttr).getD "#[serde(default)]") :
        IsAttr attr := by
      rw [h]
      cases wire with
      | none => exact ⟨by decide +kernel, .inl rfl⟩
      | some wire => exact isAttr_renameAttr wire
    exact hform _ (Option.some.inj hattr).symm
  · exact isLine_avoidBarred (isLine_fieldName hr hname) wire
  · exact htype

/-- What becomes of the names of a field is made of texts on one line each. -/
theorem isClean_of_fieldOutputs (hr : r.StaysOnLine) (hf : f.StaysOnLine)
    {outputs : List FieldOutput} (h : r.fieldOutputs f = .ok outputs) :
    ∀ output ∈ outputs, output.IsClean := by
  cases hembedded : f.isEmbedded with
  | true =>
      obtain ⟨item, hitem, rfl⟩ := (fieldOutputs_eq_ok_of_embedded hembedded).mp h
      intro output houtput
      rw [List.mem_singleton.mp houtput]
      exact isClean_of_embeddedField hr hf hitem
  | false =>
      obtain ⟨entry, -, ⟨-, rfl⟩ | ⟨-, rust, hrust, rfl⟩⟩ :=
        (fieldOutputs_eq_ok_of_named hembedded).mp h
      · intro output houtput
        obtain ⟨name, hname, rfl⟩ := List.mem_map.mp houtput
        exact isLine_fieldName hr (hf.names name hname)
      · have hline := isLine_rustType hr hf.type hrust
        have htype : IsLine (optionalType entry rust) := by
          rw [optionalType]
          split
          · simp only [isLine_append_iff, hline]
            decide
          · exact hline
        intro output houtput
        obtain ⟨name, hname, rfl⟩ := List.mem_map.mp houtput
        exact isClean_namedField hr (isDocLine_of_mem_docLines hf.doc (by simp)) htype
          (hf.names name hname) _

/-- Whether what a declaration is rendered from is on one line each. -/
def RendersClean (r : Ruleset) : Decl → Prop
  | .record record =>
      (∀ line ∈ docLines record.comments record.trailing, IsDocLine line) ∧
      IsLine (typeName record.name) ∧
      ∀ f ∈ record.fields, ∀ outputs, r.fieldOutputs f = .ok outputs →
        ∀ output ∈ outputs, output.IsClean
  | .alias a =>
      (∀ line ∈ docLines a.comments a.trailing, IsDocLine line) ∧ IsLine (typeName a.name) ∧
      ∀ type, r.rustType a.type = .ok type → IsLine type

theorem rendersClean_of_staysOnLine (hr : r.StaysOnLine) {d : Decl} (hd : d.StaysOnLine)
    (hcomments : ∀ c ∈ d.comments, c.StaysOnLine) : r.RendersClean d := by
  cases d with
  | record record =>
      refine ⟨isDocLine_of_mem_docLines hcomments hd.2.2, isLine_typeName hd.1, ?_⟩
      intro f hf outputs houtputs
      exact isClean_of_fieldOutputs hr (hd.2.1 f hf) houtputs
  | «alias» a =>
      refine ⟨isDocLine_of_mem_docLines hcomments hd.2.2, isLine_typeName hd.1, ?_⟩
      intro type htype
      exact isLine_rustType hr hd.2.1 htype

end Ruleset

/-! ### The lines of items -/

/-- The lines inside a struct, without their indentation. -/
inductive IsFieldLine : String → Prop where
  | doc (text : String) : IsFieldLine ("///" ++ text)
  | defaulted : IsFieldLine "#[serde(default)]"
  | renamed (wire : String) : IsFieldLine ("#[serde(default, rename = \"" ++ wire ++ "\")]")
  | field (ident type : String) : IsFieldLine ("pub " ++ ident ++ ": " ++ type ++ ",")
  | omitted (ident : String) : IsFieldLine ("// field " ++ ident ++ " is omitted")

/-- The lines of an output. -/
inductive IsOutputLine : String → Prop where
  | empty : IsOutputLine ""
  | doc (text : String) : IsOutputLine ("///" ++ text)
  | derives : IsOutputLine structDerives
  | opening (name : String) : IsOutputLine ("pub struct " ++ name ++ " \x7b")
  | closing : IsOutputLine "\x7d"
  | type (name type : String) : IsOutputLine ("pub type " ++ name ++ " = " ++ type ++ ";")
  | inner {line : String} : IsFieldLine line → IsOutputLine ("    " ++ line)

theorem isOutputLine_of_isDocLine {line : String} (h : IsDocLine line) :
    IsLine line ∧ IsOutputLine line := by
  obtain ⟨hline, text, rfl⟩ := h
  exact ⟨hline, .doc text⟩

theorem FieldOutput.isOutputLine_of_mem_lines {output : FieldOutput} (h : output.IsClean) :
    ∀ line ∈ output.lines, IsLine line ∧ IsOutputLine line := by
  have hindented {line : String} (hline : IsLine line) (hform : IsFieldLine line) :
      IsLine ("    " ++ line) ∧ IsOutputLine ("    " ++ line) :=
    ⟨isLine_append_iff.mpr ⟨by decide, hline⟩, .inner hform⟩
  intro line hline
  cases output with
  | active item =>
      obtain ⟨part, hpart, rfl⟩ := List.mem_map.mp hline
      rcases List.mem_append.mp hpart with hpart | hfield
      · rcases List.mem_append.mp hpart with hdoc | hattr
        · obtain ⟨hdoc, text, rfl⟩ := h.doc part hdoc
          exact hindented hdoc (.doc text)
        · obtain ⟨hattr, rfl | ⟨wire, rfl⟩⟩ := h.attr part (Option.mem_toList.mp hattr)
          · exact hindented hattr .defaulted
          · exact hindented hattr (.renamed wire)
      · rw [List.mem_singleton.mp hfield]
        refine hindented ?_ (.field item.ident item.type)
        simp only [isLine_append_iff, h.ident, h.type]
        decide
  | omitted ident =>
      have hform : "    // field " ++ ident ++ " is omitted" =
          "    " ++ ("// field " ++ ident ++ " is omitted") := by
        have hopening : "    // field " = "    " ++ "// field " := rfl
        rw [hopening]
        simp only [String.append_assoc]
      rw [List.mem_singleton.mp hline, hform]
      refine hindented ?_ (.omitted ident)
      have hident : IsLine ident := h
      simp only [isLine_append_iff, hident]
      decide

namespace Ruleset

variable {r : Ruleset}

theorem isOutputLine_of_mem_fieldLines {record : String} {fields : List Field}
    (h : ∀ f ∈ fields, ∀ outputs, r.fieldOutputs f = .ok outputs →
      ∀ output ∈ outputs, output.IsClean) :
    ∀ line ∈ (r.fieldLines record fields).1, IsLine line ∧ IsOutputLine line := by
  induction fields with
  | nil => simp [fieldLines]
  | cons f fields ih =>
      have hothers := ih fun g hg => h g (List.mem_cons_of_mem f hg)
      rw [fieldLines]
      cases houtputs : r.fieldOutputs f with
      | error e => exact hothers
      | ok outputs =>
          intro line hline
          rcases List.mem_append.mp hline with hfirst | hother
          · obtain ⟨output, houtput, hmem⟩ := List.mem_flatMap.mp hfirst
            have hclean := h f (by simp) outputs houtputs output houtput
            exact FieldOutput.isOutputLine_of_mem_lines hclean line hmem
          · exact hothers line hother

/-- The lines of the item of a declaration, if it has one. -/
def itemLines (r : Ruleset) : Decl → Option (List String)
  | .record record =>
      some (docLines record.comments record.trailing ++
        [structDerives, "pub struct " ++ typeName record.name ++ " \x7b"] ++
        (r.fieldLines record.name record.fields).1 ++ ["\x7d"])
  | .alias a =>
      (r.rustType a.type).toOption.map fun type =>
        docLines a.comments a.trailing ++ ["pub type " ++ typeName a.name ++ " = " ++ type ++ ";"]

theorem item_fst (d : Decl) : (r.item d).1 = (r.itemLines d).map unlines := by
  cases d with
  | record => rfl
  | «alias» a =>
      rw [item, aliasItem, itemLines]
      cases r.rustType a.type <;> rfl

theorem isOutputLine_of_mem_itemLines {d : Decl} (h : r.RendersClean d) {lines : List String}
    (hlines : r.itemLines d = some lines) : ∀ line ∈ lines, IsLine line ∧ IsOutputLine line := by
  cases d with
  | record record =>
      obtain ⟨hdoc, hname, hfields⟩ := h
      cases hlines
      intro line hline
      simp only [List.mem_append, List.mem_cons, List.not_mem_nil, or_false] at hline
      rcases hline with ((hline | rfl | rfl) | hline) | rfl
      · exact isOutputLine_of_isDocLine (hdoc line hline)
      · exact ⟨by decide +kernel, .derives⟩
      · refine ⟨?_, .opening _⟩
        simp only [isLine_append_iff, hname]
        decide
      · exact isOutputLine_of_mem_fieldLines hfields line hline
      · exact ⟨by decide, .closing⟩
  | «alias» a =>
      obtain ⟨hdoc, hname, htype⟩ := h
      cases hrust : r.rustType a.type with
      | error e => simp [itemLines, hrust, Except.toOption] at hlines
      | ok rust =>
          simp only [itemLines, hrust, Except.toOption, Option.map_some,
            Option.some.injEq] at hlines
          rw [← hlines]
          intro line hline
          rcases List.mem_append.mp hline with hline | hline
          · exact isOutputLine_of_isDocLine (hdoc line hline)
          · rw [List.mem_singleton.mp hline]
            refine ⟨?_, .type _ _⟩
            simp only [isLine_append_iff, hname, htype rust hrust]
            decide

end Ruleset

end DeclBridge
