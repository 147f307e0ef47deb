import DeclBridge.Proofs.Accounting

/-!
What of a Rust type the ruleset decides. Whether there is one it does not: that depends on the
leaves of the type expression alone. The pointer policy only decides about the text, and to strip
pointers is to write the type without them.
-/

namespace DeclBridge

theorem exists_ok_iff {α : Type} {x : Except Error α} {refusal : Option Error}
    (h : ∀ e, x = .error e ↔ refusal = some e) : (∃ a, x = .ok a) ↔ refusal = none := by
  cases x with
  | ok a =>
      have hnone : refusal = none :=
        Option.eq_none_iff_forall_ne_some.mpr fun e he => nomatch (h e).mpr he
      exact ⟨fun _ => hnone, fun _ => ⟨a, rfl⟩⟩
  | error e =>
      rw [(h e).mp rfl]
      exact ⟨nofun, nofun⟩

/-- Of two parts the first one tells the error, unless it has none. -/
theorem bind_pair_eq_error {x y : Except Error String} {f : String → String → String}
    {first second : Option Error} (hx : ∀ e, x = .error e ↔ first = some e)
    (hy : ∀ e, y = .error e ↔ second = some e) (e : Error) :
    (x >>= fun a => y >>= fun b => pure (f a b)) = .error e ↔ first.or second = some e := by
  rw [bind_eq_error, Option.or_eq_some_iff, hx, ← exists_ok_iff hx]
  simp only [bind_pure_eq_error, hy, exists_and_right]

namespace TypeExpr

/-- The parts of a type expression: itself, then those of an element before those of its length, and
those of a key before those of its value. -/
def parts : TypeExpr → List TypeExpr
  | pointer target => pointer target :: target.parts
  | slice elem => slice elem :: elem.parts
  | array elem length => array elem length :: (elem.parts ++ length.parts)
  | map key value => map key value :: (key.parts ++ value.parts)
  | leaf => [leaf]

/-- Whether a type expression names a shape without a data form, or a type of another package that
is no point in time. -/
def IsForeign (t : TypeExpr) : Prop :=
  (∃ shape, t = unsupported shape) ∨
    ∃ qualifier name, t = qualified qualifier name ∧ ¬(qualifier = "time" ∧ name = "Time")

/-- The error that tells of a foreign type expression. -/
def refusal? : TypeExpr → Option Error
  | qualified qualifier name =>
      if qualifier = "time" ∧ name = "Time" then none else some (.unknownSelector qualifier name)
  | unsupported shape => some (.unsupportedType shape)
  | _ => none

/-- The type expression with what its pointers lead to in place of the pointers, at any depth. -/
def withoutPointers : TypeExpr → TypeExpr
  | pointer target => target.withoutPointers
  | slice elem => slice elem.withoutPointers
  | array elem length => array elem.withoutPointers length.withoutPointers
  | map key value => map key.withoutPointers value.withoutPointers
  | leaf => leaf

theorem isForeign_iff (t : TypeExpr) : t.IsForeign ↔ ∃ e, t.refusal? = some e := by
  cases t with
  | qualified qualifier name =>
      by_cases h : qualifier = "time" ∧ name = "Time"
      · simp [IsForeign, refusal?, h]
      · simpa [IsForeign, refusal?, if_neg h] using h
  | named | pointer | slice | array | map | dynamic | unsupported => simp [IsForeign, refusal?]

end TypeExpr

namespace Ruleset

open TypeExpr (refusal?)

/-- The ruleset with another pointer policy. -/
def withPolicy (r : Ruleset) (policy : PointerPolicy) : Ruleset :=
  { r with pointerPolicy := policy }

/-- A type expression has no Rust type because of the first foreign part of it, if it has one. -/
theorem rustType_eq_error (r : Ruleset) (t : TypeExpr) (e : Error) :
    r.rustType t = .error e ↔ t.parts.findSome? refusal? = some e := by
  induction t generalizing e with
  | named | dynamic => simp [rustType, TypeExpr.parts, refusal?, pure, Except.pure]
  | unsupported shape =>
      simp [rustType, TypeExpr.parts, refusal?, throw, throwThe, MonadExceptOf.throw]
  | qualified qualifier name =>
      by_cases h : qualifier = "time" ∧ name = "Time"
      · simp [rustType, TypeExpr.parts, refusal?, h, pure, Except.pure]
      · simp [rustType, TypeExpr.parts, refusal?, if_neg h, throw, throwThe, MonadExceptOf.throw]
  | pointer target ih =>
      rw [rustType, TypeExpr.parts, List.findSome?_cons_of_isNone rfl, ← ih]
      cases r.pointerPolicy with
      | box => exact bind_pure_eq_error
      | strip => exact bind_pure_eq_error
  | slice elem ih =>
      rw [rustType, TypeExpr.parts, List.findSome?_cons_of_isNone rfl, ← ih]
      exact bind_pure_eq_error
  | array elem length ihElem ihLength =>
      rw [rustType, TypeExpr.parts, List.findSome?_cons_of_isNone rfl, List.findSome?_append]
      exact bind_pair_eq_error ihElem ihLength e
  | map key value ihKey ihValue =>
      rw [rustType, TypeExpr.parts, List.findSome?_cons_of_isNone rfl, List.findSome?_append]
      exact bind_pair_eq_error ihKey ihValue e

/-- Whether there is a Rust type is one question for all rulesets: there is none exactly if a part
is foreign, and then the first such part is what the error is about. -/
theorem rustType_agrees (r s : Ruleset) (t : TypeExpr) :
    (((∃ text, r.rustType t = .ok text) ∧ ∃ text, s.rustType t = .ok text) ∨
      ∃ e, r.rustType t = .error e ∧ s.rustType t = .error e) ∧
    ((∃ e, r.rustType t = .error e) ↔ ∃ part ∈ t.parts, part.IsForeign) ∧
    ∀ e, r.rustType t = .error e ↔ ∃ before part after, t.parts = before ++ part :: after ∧
      (∀ other ∈ before, ¬ other.IsForeign) ∧ part.refusal? = some e := by
  have hpart (part : TypeExpr) : ¬ part.IsForeign ↔ part.refusal? = none := by
    rw [TypeExpr.isForeign_iff, Option.eq_none_iff_forall_ne_some, not_exists]
  refine ⟨?_, ?_, fun e => ?_⟩
  · cases h : t.parts.findSome? refusal? with
    | none => exact .inl ⟨(exists_ok_iff (r.rustType_eq_error t)).mpr h,
        (exists_ok_iff (s.rustType_eq_error t)).mpr h⟩
    | some e => exact .inr ⟨e, (r.rustType_eq_error t e).mpr h, (s.rustType_eq_error t e).mpr h⟩
  · simp only [rustType_eq_error, ← Option.isSome_iff_exists, List.findSome?_isSome_iff,
      TypeExpr.isForeign_iff]
  · rw [rustType_eq_error, List.findSome?_eq_some_iff]
    simp only [hpart]
    tauto

example : current.rustType
    (.map (.array (.named "int") (.unsupported "chan")) (.qualified "a" "B")) =
      .error (.unsupportedType "chan") := rfl

theorem rustType_strip (r : Ruleset) (t : TypeExpr) :
    (r.withPolicy .strip).rustType t = (r.withPolicy .box).rustType t.withoutPointers := by
  induction t with
  | named | qualified | dynamic | unsupported => rfl
  | pointer target ih =>
      rw [TypeExpr.withoutPointers, ← ih, rustType]
      exact bind_pure _
  | slice elem ih => rw [TypeExpr.withoutPointers, rustType, rustType, ih]
  | array elem length ihElem ihLength =>
      rw [TypeExpr.withoutPointers, rustType, rustType, ihElem, ihLength]
  | map key value ihKey ihValue =>
      rw [TypeExpr.withoutPointers, rustType, rustType, ihKey, ihValue]

/-- To strip pointers is to box none: types and fields are rendered as if no pointer had been
written. -/
theorem strip_eq_box_withoutPointers (r : Ruleset) :
    (∀ t : TypeExpr,
      (r.withPolicy .strip).rustType t = (r.withPolicy .box).rustType t.withoutPointers) ∧
    ∀ f : Field, f.names ≠ [] → (r.withPolicy .strip).fieldOutputs f =
      (r.withPolicy .box).fieldOutputs { f with type := f.type.withoutPointers } := by
  refine ⟨r.rustType_strip, fun f hnames => ?_⟩
  have hembedded : f.isEmbedded = false := by rwa [Field.isEmbedded, List.isEmpty_eq_false_iff]
  have hother : ({ f with type := f.type.withoutPointers } : Field).isEmbedded = false := hembedded
  rw [fieldOutputs, fieldOutputs, hembedded, hother, rustType_strip]
  rfl

/-- Pointers to pointers, and pointers in keys and lengths, are no exception. -/
theorem strip_eq_box_withoutPointers_nested :
    let type : TypeExpr := .map (.array (.pointer (.named "key")) (.pointer (.named "n")))
      (.slice (.pointer (.pointer .dynamic)))
    let f : Field := ⟨["Self", "All"], type, some "`json:\",omitempty\"`", []⟩
    f.names ≠ [] ∧ (current.withPolicy .strip).fieldOutputs f =
        (current.withPolicy .box).fieldOutputs { f with type := type.withoutPointers } ∧
      (current.withPolicy .box).rustType type.withoutPointers =
        .ok "HashMap<[Key; N], Vec<serde_json::Value>>" := by
  intro type f
  have hnames : f.names ≠ [] := by decide
  exact ⟨hnames, (strip_eq_box_withoutPointers current).2 f hnames,
    eq_ok_of_toOption (by decide +kernel)⟩

end Ruleset

end DeclBridge
