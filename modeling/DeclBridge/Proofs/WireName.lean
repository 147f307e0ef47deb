import Mathlib.Data.List.Forall2
import DeclBridge.Proofs.Naming
import DeclBridge.Proofs.Render.Field
import DeclBridge.Proofs.Text.Quoted
import DeclBridge.Token.Reach

/-!
Names on the wire. Whatever becomes of the name of a field in Rust, serialization reads back the
name that its tag gives, or the Go name in snake case.
-/

namespace DeclBridge

/-- The text of a serialization attribute in front of the literal of the name. -/
def renameFront : String :=
  "#[serde(default, rename = "

/-- The text behind the literal. -/
def renameEnd : String :=
  ")]"

/-- The literal of the name in a serialization attribute. -/
def renameLiteral? (attr : String) : Option (List Char) :=
  (attr.toList.dropPrefix? renameFront.toList).bind fun rest => rest.dropSuffix? renameEnd.toList

/-- The name that an identifier stands for: a raw identifier is marked in front. -/
def withoutRaw (ident : String) : String :=
  match ident.toList with
  | 'r' :: '#' :: rest => String.ofList rest
  | _ => ident

/-- The name of a field on the wire: the value of the literal in its attribute, or the identifier if
there is no literal. -/
def FieldItem.wireName? (item : FieldItem) : Option String :=
  match item.attr.bind renameLiteral? with
  | some literal => (Text.Quoted.decode? literal).map String.ofList
  | none => some (withoutRaw item.ident)

namespace Field

/-- The names that a field declares; one that embeds a type is named after it. -/
def declaredNames (f : Field) : List String :=
  if f.isEmbedded then f.type.embeddedName.toOption.toList else f.names

/-- What the tag of a field says, if the field has a name and the tag an entry. -/
def entry? (f : Field) (r : Ruleset) : Option TagEntry :=
  if f.isEmbedded then none else (TagEntry.ofTag? f.tag r.tagKey).toOption.join

/-- The name that the tag of a field gives. -/
def givenName? (f : Field) (r : Ruleset) : Option String :=
  ((f.entry? r).bind TagEntry.name).filter (· ≠ "")

/-- Whether the tag of a field says that it is left out when empty. -/
def OmitsEmpty (f : Field) (r : Ruleset) : Prop :=
  (f.entry? r).any TagEntry.omitEmpty = true

end Field

/-- What a field of a struct keeps: the name that it has on the wire, if it is declared by a name of
letters, digits and underscores, and whether it may be left out. -/
structure FieldItem.Keeps (r : Ruleset) (f : Field) (name : String) (item : FieldItem) : Prop where
  wire : (∀ c ∈ name.toList, Token.Reach.continuesWord c = true) →
    item.wireName? = some ((f.givenName? r).getD (r.snakeName name))
  type : ∃ rust, r.rustType f.type = .ok rust ∧
    (item.type = "Option<" ++ rust ++ ">" ↔ f.OmitsEmpty r) ∧
    (¬ f.OmitsEmpty r → item.type = rust)

theorem renameLiteral?_renameAttr (wire : String) :
    renameLiteral? (renameAttr wire) = some (Text.Quoted.encode wire).toList := by
  have hattr : renameAttr wire = renameFront ++ Text.Quoted.encode wire ++ renameEnd := rfl
  have hfront : (renameAttr wire).toList.dropPrefix? renameFront.toList =
      some ((Text.Quoted.encode wire).toList ++ renameEnd.toList) := by
    rw [List.dropPrefix?_eq_some_iff]
    exact ⟨_, by rw [hattr, String.toList_append, String.toList_append, List.append_assoc], BEq.rfl⟩
  rw [renameLiteral?, hfront, Option.bind_some, List.dropSuffix?_eq_some_iff]
  exact ⟨_, rfl, BEq.rfl⟩

theorem bind_renameAttr (wire : Option String) :
    (wire.map renameAttr).bind renameLiteral? =
      wire.map fun wire => (Text.Quoted.encode wire).toList := by
  cases wire with
  | none => rfl
  | some wire => rw [Option.map_some, Option.bind_some, renameLiteral?_renameAttr, Option.map_some]

theorem renameLiteral?_default : renameLiteral? "#[serde(default)]" = none := by
  rfl

theorem renameLiteral?_getD (wire : Option String) :
    renameLiteral? ((wire.map renameAttr).getD "#[serde(default)]") =
      wire.map fun wire => (Text.Quoted.encode wire).toList := by
  cases wire with
  | none => rw [Option.map_none, Option.getD_none, renameLiteral?_default, Option.map_none]
  | some wire => rw [Option.map_some, Option.getD_some, renameLiteral?_renameAttr, Option.map_some]

theorem withoutRaw_raw (name : String) : withoutRaw ("r#" ++ name) = name := by
  simp [withoutRaw]

theorem withoutRaw_of_not_mem {name : String} (h : '#' ∉ name.toList) : withoutRaw name = name := by
  unfold withoutRaw
  split
  · next rest hname => exact absurd (by simp [hname]) h
  · rfl

theorem withoutRaw_fieldName (p : Preset) {name : String} (hname : '#' ∉ name.toList) :
    withoutRaw ((Ruleset.ofPreset p).fieldName name) = (Ruleset.ofPreset p).snakeName name := by
  rcases Ruleset.fieldName_cases p name with h | h
  · rw [h]
    apply withoutRaw_of_not_mem
    intro hmem
    exact hname (Ruleset.mem_of_mem_snakeName (by decide) hmem)
  · rw [h, withoutRaw_raw]

theorem fieldName_of_barred {p : Preset} {name : String}
    (h : barredNames.contains ((Ruleset.ofPreset p).fieldName name) = true) :
    (Ruleset.ofPreset p).fieldName name = (Ruleset.ofPreset p).snakeName name := by
  apply (Ruleset.fieldName_cases p name).resolve_right
  intro hraw
  rw [hraw, not_barred_raw] at h
  cases h

/-- A field that is named by the rules of a preset, and whose attribute gives the name on the wire
that it is given, has that name on the wire, or else the Go name in snake case. -/
theorem FieldItem.wireName?_eq {p : Preset} {name : String} {wire : Option String}
    {item : FieldItem} (hname : '#' ∉ name.toList)
    (hident : item.ident = (avoidBarred ((Ruleset.ofPreset p).fieldName name) wire).1)
    (hattr : item.attr.bind renameLiteral? =
      (avoidBarred ((Ruleset.ofPreset p).fieldName name) wire).2.map
        fun wire => (Text.Quoted.encode wire).toList) :
    item.wireName? = some (wire.getD ((Ruleset.ofPreset p).snakeName name)) := by
  rcases avoidBarred_cases ((Ruleset.ofPreset p).fieldName name) wire with hkept | ⟨hbarred, hgiven⟩
  · rw [hkept] at hident hattr
    cases wire with
    | none => simp [wireName?, hattr, hident, withoutRaw_fieldName p hname]
    | some wire => simp [wireName?, hattr, Text.Quoted.decode?_encode]
  · -- The literal is there, and the identifier says nothing.
    rw [hgiven, fieldName_of_barred hbarred] at hattr
    simp [wireName?, hattr, Text.Quoted.decode?_encode]

theorem hash_not_mem_word {name : String}
    (h : ∀ c ∈ name.toList, Token.Reach.continuesWord c = true) : '#' ∉ name.toList := by
  intro hmem
  exact absurd (h '#' hmem) (by decide)

theorem TagEntry.name_ne_empty {value wire : String} (h : (ofValue value).name = some wire) :
    wire ≠ "" := by
  unfold ofValue at h
  split at h
  · cases h
  · simpa using (Option.filter_eq_some_iff.mp h).2

theorem TagEntry.ofTag?_name_ne_empty {literal : Option String} {key wire : String}
    {entry : TagEntry} (h : ofTag? literal key = .ok (some entry)) (hname : entry.name = some wire) :
    wire ≠ "" := by
  unfold ofTag? at h
  split at h
  · cases h
  split at h
  · rw [← Option.some.inj (Except.ok.inj h)] at hname
    exact name_ne_empty hname
  · cases h
  · cases h

namespace Ruleset

variable {p : Preset} {f : Field} {name : String}

theorem embeddedField_keeps {item : FieldItem} (hf : f.isEmbedded = true)
    (hname : f.type.embeddedName = .ok name) (h : (ofPreset p).embeddedField f = .ok item) :
    item.Keeps (ofPreset p) f name := by
  obtain ⟨name', hname', rust, hrust, rfl⟩ := embeddedField_eq_ok.mp h
  obtain rfl : name = name' := Except.ok.inj (hname.symm.trans hname')
  have hentry : f.entry? (ofPreset p) = none := by
    rw [Field.entry?, hf]
    rfl
  have hgiven : f.givenName? (ofPreset p) = none := by
    rw [Field.givenName?, hentry]
    rfl
  have homits : ¬ f.OmitsEmpty (ofPreset p) := by
    rw [Field.OmitsEmpty, hentry]
    decide
  constructor
  · intro hword
    rw [hgiven]
    exact FieldItem.wireName?_eq (hash_not_mem_word hword) rfl (bind_renameAttr _)
  · refine ⟨rust, hrust, ?_, fun _ => rfl⟩
    simpa [homits, optionalType] using @optionalType_eq_iff none rust

theorem namedField_keeps {entry : Option TagEntry} {rust : String} (hf : f.isEmbedded = false)
    (hentry : TagEntry.ofTag? f.tag (ofPreset p).tagKey = .ok entry)
    (hrust : (ofPreset p).rustType f.type = .ok rust) (doc : List String) (name : String) :
    ((ofPreset p).namedField doc (optionalType entry rust) (entry.bind TagEntry.name) name).Keeps
      (ofPreset p) f name := by
  have hfield : f.entry? (ofPreset p) = entry := by
    rw [Field.entry?, hf, hentry]
    cases entry <;> rfl
  have hgiven : f.givenName? (ofPreset p) = entry.bind TagEntry.name := by
    rw [Field.givenName?, hfield]
    cases hname : entry.bind TagEntry.name with
    | none => rfl
    | some wire =>
        obtain ⟨entry, rfl, hwire⟩ := Option.bind_eq_some_iff.mp hname
        simp [TagEntry.ofTag?_name_ne_empty hentry hwire]
  constructor
  · intro hword
    rw [hgiven]
    exact FieldItem.wireName?_eq (hash_not_mem_word hword) rfl (renameLiteral?_getD _)
  · rw [Field.OmitsEmpty, hfield]
    exact ⟨rust, hrust, optionalType_eq_iff, fun h => if_neg h⟩

/-- Every field that a preset renders keeps the name that it has on the wire. -/
theorem fieldOutputs_keeps {outputs : List FieldOutput}
    (h : (ofPreset p).fieldOutputs f = .ok outputs) :
    List.Forall₂ (fun name output => ∀ item, output = .active item → item.Keeps (ofPreset p) f name)
      f.declaredNames outputs := by
  cases hf : f.isEmbedded with
  | true =>
      obtain ⟨item, hitem, rfl⟩ := (fieldOutputs_eq_ok_of_embedded hf).mp h
      obtain ⟨name, hname, -⟩ := embeddedField_eq_ok.mp hitem
      have hnames : f.declaredNames = [name] := by
        rw [Field.declaredNames, hf, hname]
        rfl
      rw [hnames]
      refine .cons ?_ .nil
      rintro _ ⟨⟩
      exact embeddedField_keeps hf hname hitem
  | false =>
      obtain ⟨entry, hentry, houtputs⟩ := (fieldOutputs_eq_ok_of_named hf).mp h
      have hnames : f.declaredNames = f.names := by
        rw [Field.declaredNames, hf]
        rfl
      rw [hnames]
      -- A field that is skipped leaves notes, which name nothing on the wire.
      rcases houtputs with ⟨-, rfl⟩ | ⟨-, rust, hrust, rfl⟩
      · rw [List.forall₂_map_right_iff, List.forall₂_same]
        rintro name - _ ⟨⟩
      · rw [List.forall₂_map_right_iff, List.forall₂_same]
        rintro name - _ ⟨⟩
        exact namedField_keeps hf hentry hrust _ name

/-- Neither the words that are reserved in Rust nor characters that are written as escapes change
what is on the wire. -/
theorem fieldOutputs_keeps_reserved :
    let plain : Field := ⟨["Self", "Type_", "UserID"], .pointer (.named "string"),
      some "`json:\",omitempty\"`", []⟩
    let quoted : Field := ⟨["Crate"], .named "bool", some "`json:\"q\\\"\\u200b\"`", []⟩
    let self : FieldItem :=
      ⟨[], some "#[serde(default, rename = \"self\")]", "self_", "Option<String>"⟩
    let kind : FieldItem := ⟨[], some "#[serde(default)]", "r#type", "Option<String>"⟩
    let user : FieldItem := ⟨[], some "#[serde(default)]", "user_id", "Option<String>"⟩
    let crate : FieldItem :=
      ⟨[], some "#[serde(default, rename = \"q\\\"\\u\x7b200b\x7d\")]", "crate_", "bool"⟩
    legacy.fieldOutputs plain = .ok [.active self, .active kind, .active user] ∧
      legacy.fieldOutputs quoted = .ok [.active crate] ∧
      (self.Keeps legacy plain "Self" ∧ self.wireName? = some "self") ∧
      (kind.Keeps legacy plain "Type_" ∧ kind.wireName? = some "type") ∧
      user.Keeps legacy plain "UserID" ∧
      crate.Keeps legacy quoted "Crate" ∧ crate.wireName? = some "q\"\u200b" := by
  intro plain quoted self kind user crate
  have hplain : legacy.fieldOutputs plain = .ok [.active self, .active kind, .active user] :=
    eq_ok_of_toOption (by decide +kernel)
  have hquoted : legacy.fieldOutputs quoted = .ok [.active crate] :=
    eq_ok_of_toOption (by decide +kernel)
  have hplainKeeps : List.Forall₂ _ ["Self", "Type_", "UserID"] _ :=
    fieldOutputs_keeps (p := .legacy) hplain
  have hquotedKeeps : List.Forall₂ _ ["Crate"] _ := fieldOutputs_keeps (p := .legacy) hquoted
  simp only [List.forall₂_cons] at hplainKeeps hquotedKeeps
  obtain ⟨hself, hkind, huser, -⟩ := hplainKeeps
  have hcrate := hquotedKeeps.1 crate rfl
  have hselfWire : (plain.givenName? legacy).getD (legacy.snakeName "Self") = "self" := by
    decide +kernel
  have hkindWire : (plain.givenName? legacy).getD (legacy.snakeName "Type_") = "type" := by
    decide +kernel
  have hcrateWire : (quoted.givenName? legacy).getD (legacy.snakeName "Crate") = "q\"\u200b" := by
    decide +kernel
  refine ⟨hplain, hquoted, ⟨hself self rfl, ?_⟩, ⟨hkind kind rfl, ?_⟩, huser user rfl, hcrate, ?_⟩
  · rw [← hselfWire]
    exact (hself self rfl).wire (List.all_eq_true.mp (by decide))
  · rw [← hkindWire]
    exact (hkind kind rfl).wire (List.all_eq_true.mp (by decide))
  · rw [← hcrateWire]
    exact hcrate.wire (List.all_eq_true.mp (by decide))

end Ruleset

end DeclBridge
