import DeclBridge.Render.Field

/-!
What the rendering of a field gives when it succeeds.
-/

namespace DeclBridge

theorem mapError_eq_ok {ε ε' α : Type} {x : Except ε α} {f : ε → ε'} {a : α} :
    x.mapError f = .ok a ↔ x = .ok a := by
  cases x with
  | error e => exact ⟨nofun, nofun⟩
  | ok b =>
      constructor
      · rintro ⟨⟩
        rfl
      · rintro ⟨⟩
        rfl

theorem not_barred_raw (name : String) : barredNames.contains ("r#" ++ name) = false := by
  have hmark : ∀ barred ∈ barredNames, '#' ∉ barred.toList := by decide
  rw [Bool.eq_false_iff]
  intro hmem
  exact hmark _ (List.contains_iff_mem.mp hmem) (by simp)

theorem avoidBarred_cases (ident : String) (wire : Option String) :
    avoidBarred ident wire = (ident, wire) ∨
      barredNames.contains ident = true ∧ (avoidBarred ident wire).2 = some (wire.getD ident) := by
  unfold avoidBarred
  split
  · next hbarred => exact .inr ⟨hbarred, rfl⟩
  · exact .inl rfl

namespace Ruleset

variable {r : Ruleset} {f : Field}

/-- The type of a field that may be left out when empty. -/
def optionalType (entry : Option TagEntry) (rust : String) : String :=
  if entry.any TagEntry.omitEmpty then "Option<" ++ rust ++ ">" else rust

theorem embeddedField_eq_ok {item : FieldItem} :
    r.embeddedField f = .ok item ↔
      ∃ name, f.type.embeddedName = .ok name ∧ ∃ rust, r.rustType f.type = .ok rust ∧
        item = ⟨docLines f.doc none, (avoidBarred (r.fieldName name) none).2.map renameAttr,
          (avoidBarred (r.fieldName name) none).1, rust⟩ := by
  simp only [embeddedField, bind_eq_ok, pure, Except.pure, Except.ok.injEq, eq_comm (a := item)]

theorem fieldOutputs_eq_ok_of_embedded (hf : f.isEmbedded = true) {outputs : List FieldOutput} :
    r.fieldOutputs f = .ok outputs ↔
      ∃ item, r.embeddedField f = .ok item ∧ outputs = [.active item] := by
  simp only [fieldOutputs, hf, if_true, bind_eq_ok, pure, Except.pure, Except.ok.injEq,
    eq_comm (a := outputs)]

theorem fieldOutputs_eq_ok_of_named (hf : f.isEmbedded = false) {outputs : List FieldOutput} :
    r.fieldOutputs f = .ok outputs ↔
      ∃ entry, TagEntry.ofTag? f.tag r.tagKey = .ok entry ∧
        (entry.any TagEntry.skip = true ∧ outputs = f.names.map (.omitted ∘ r.fieldName) ∨
          entry.any TagEntry.skip = false ∧ ∃ rust, r.rustType f.type = .ok rust ∧
            outputs = f.names.map (.active ∘ r.namedField (docLines f.doc none)
              (optionalType entry rust) (entry.bind TagEntry.name))) := by
  simp only [fieldOutputs, hf, Bool.false_eq_true, if_false, bind_eq_ok, mapError_eq_ok]
  refine exists_congr fun entry => and_congr_right fun _ => ?_
  cases entry.any TagEntry.skip with
  | true => simp [pure, Except.pure, eq_comm (a := outputs)]
  | false => simp [bind_eq_ok, pure, Except.pure, optionalType, eq_comm (a := outputs)]

theorem optionalType_eq_iff {entry : Option TagEntry} {rust : String} :
    optionalType entry rust = "Option<" ++ rust ++ ">" ↔ entry.any TagEntry.omitEmpty = true := by
  unfold optionalType
  split
  · next h => exact ⟨fun _ => h, fun _ => rfl⟩
  · next h =>
      refine ⟨fun heq => ?_, fun hany => absurd hany h⟩
      have hlength : rust.length = ("Option<" ++ rust ++ ">").length := congrArg String.length heq
      simp only [String.length_append] at hlength
      have hfront : "Option<".length = 7 := by decide
      omega

end Ruleset

end DeclBridge
