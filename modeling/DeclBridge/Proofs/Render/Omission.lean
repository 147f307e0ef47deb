import DeclBridge.Proofs.Render.Field
import DeclBridge.Proofs.Tag.Writing
import DeclBridge.Render.Decl

/-!
Fields that their tags leave out. Each of their names becomes a comment, whatever their type is, and
no other field becomes comments only. A tag on an embedded type says nothing, a dash neither.
-/

namespace DeclBridge

namespace TagEntry

/-- A field is skipped for the value `-` only, not for one that begins so. -/
theorem ofTag?_skip_iff {literal : Option String} {key : String} :
    (∃ entry, ofTag? literal key = .ok (some entry) ∧ entry.skip = true) ↔
      ∃ text, literal = some text ∧ Tag.valueOf text key = .ok "-" := by
  constructor
  · rintro ⟨entry, hentry, hskip⟩
    unfold ofTag? at hentry
    split at hentry
    · cases hentry
    · rename_i text
      split at hentry
      · rename_i value hvalue
        cases hentry
        rw [(spells_ofValue value).skip.mp hskip] at hvalue
        exact ⟨text, rfl, hvalue⟩
      · cases hentry
      · cases hentry
  · rintro ⟨text, rfl, hvalue⟩
    refine ⟨ofValue "-", ?_, (spells_ofValue "-").skip.mpr rfl⟩
    rw [ofTag?, hvalue]

end TagEntry

namespace Ruleset

variable {r : Ruleset} {f : Field}

/-- Whether the tag of a field says that the field is skipped. -/
def Skips (r : Ruleset) (f : Field) : Prop :=
  ∃ entry, TagEntry.ofTag? f.tag r.tagKey = .ok (some entry) ∧ entry.skip = true

theorem isEmbedded_iff : f.isEmbedded = true ↔ f.names = [] :=
  List.isEmpty_iff

theorem isEmbedded_eq_false_iff : f.isEmbedded = false ↔ f.names ≠ [] := by
  rw [← Bool.not_eq_true, isEmbedded_iff]

theorem fieldOutputs_of_skips (hnames : f.names ≠ []) (h : r.Skips f) :
    r.fieldOutputs f = .ok (f.names.map (.omitted ∘ r.fieldName)) := by
  obtain ⟨entry, hentry, hskip⟩ := h
  exact (fieldOutputs_eq_ok_of_named (isEmbedded_eq_false_iff.mpr hnames)).mpr
    ⟨some entry, hentry, .inl ⟨hskip, rfl⟩⟩

theorem skips_of_omitted {outputs : List FieldOutput} {ident : String}
    (h : r.fieldOutputs f = .ok outputs) (hident : .omitted ident ∈ outputs) :
    f.names ≠ [] ∧ r.Skips f := by
  cases hf : f.isEmbedded with
  | true =>
      obtain ⟨item, -, rfl⟩ := (fieldOutputs_eq_ok_of_embedded hf).mp h
      cases List.mem_singleton.mp hident
  | false =>
      refine ⟨isEmbedded_eq_false_iff.mp hf, ?_⟩
      obtain ⟨entry, hentry, houtputs⟩ := (fieldOutputs_eq_ok_of_named hf).mp h
      rcases houtputs with ⟨hskip, -⟩ | ⟨-, rust, -, rfl⟩
      · cases entry with
        | none => cases hskip
        | some entry => exact ⟨entry, hentry, hskip⟩
      · obtain ⟨name, -, hname⟩ := List.mem_map.mp hident
        cases hname

theorem fieldOutputs_with_tag (hnames : f.names = []) (tag : Option String) :
    r.fieldOutputs { f with tag := tag } = r.fieldOutputs f := by
  have hf : f.isEmbedded = true := isEmbedded_iff.mpr hnames
  have hf' : Field.isEmbedded { f with tag := tag } = true := hf
  rw [fieldOutputs, hf', fieldOutputs, hf]
  rfl

/-- A field that is skipped gives notes and nothing else, one for each of its names, whatever its
type is. No other field gives a note, and for one that embeds a type it does not matter what its
tag is. -/
theorem fieldOutputs_omitted (r : Ruleset) (f : Field) :
    (f.names ≠ [] → r.Skips f →
      r.fieldOutputs f = .ok (f.names.map fun name => .omitted (r.fieldName name)) ∧
        ∀ record fields, r.fieldLines record (f :: fields) =
          (f.names.map (fun name => "    // field " ++ r.fieldName name ++ " is omitted") ++
            (r.fieldLines record fields).1, (r.fieldLines record fields).2)) ∧
      (∀ outputs ident, r.fieldOutputs f = .ok outputs → .omitted ident ∈ outputs →
        f.names ≠ [] ∧ r.Skips f) ∧
      (f.names = [] → ∀ tag, r.fieldOutputs { f with tag := tag } = r.fieldOutputs f) := by
  refine ⟨fun hnames h => ⟨fieldOutputs_of_skips hnames h, fun record fields => ?_⟩,
    fun outputs ident => skips_of_omitted, fieldOutputs_with_tag⟩
  have hlines (names : List String) :
      (names.map (FieldOutput.omitted ∘ r.fieldName)).flatMap FieldOutput.lines =
        names.map fun name => "    // field " ++ r.fieldName name ++ " is omitted" := by
    rw [List.flatMap_map, List.map_eq_flatMap]
    rfl
  rw [fieldLines, fieldOutputs_of_skips hnames h, ← hlines]

/-- Two names and a type that has no rendering. -/
theorem fieldOutputs_omitted_chan :
    let f : Field := ⟨["ID", "Type"], .unsupported "chan", some "`xml:\"-\" json:\"-\"`", []⟩
    current.Skips f ∧
      current.fieldOutputs f = .ok [.omitted "id", .omitted "r#type"] ∧
      current.fieldLines "S" [f] =
        (["    // field id is omitted", "    // field r#type is omitted"], []) := by
  intro f
  have hskips : current.Skips f :=
    TagEntry.ofTag?_skip_iff.mpr ⟨_, rfl, eq_ok_of_toOption (by decide +kernel)⟩
  obtain ⟨houtputs, hlines⟩ := (fieldOutputs_omitted current f).1 (by decide) hskips
  have hnames : ["ID", "Type"].map current.fieldName = ["id", "r#type"] := by
    decide +kernel
  have hmap {α : Type} (g : String → α) :
      (f.names.map fun name => g (current.fieldName name)) = ["id", "r#type"].map g := by
    rw [← hnames, List.map_map]
    rfl
  refine ⟨hskips, houtputs.trans (congrArg _ (hmap _)), (hlines "S" []).trans ?_⟩
  rw [hmap fun ident => "    // field " ++ ident ++ " is omitted"]
  rfl

/-- A field that embeds a type is rendered though its tag says that it is skipped. -/
theorem not_omitted_of_skips :
    let f : Field := ⟨[], .named "Base", some "`json:\"-\"`", []⟩
    current.Skips f ∧ current.fieldOutputs f = .ok [.active ⟨[], none, "base", "Base"⟩] := by
  intro f
  exact ⟨TagEntry.ofTag?_skip_iff.mpr ⟨_, rfl, eq_ok_of_toOption (by decide +kernel)⟩,
    eq_ok_of_toOption (by decide +kernel)⟩

end Ruleset

end DeclBridge
