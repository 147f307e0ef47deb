import Mathlib
import DeclBridge.Proofs.Grammar.Rejection
import DeclBridge.Render.Nodes

/-!
What becomes of the parts of a source text that cannot be rendered. A field is left out of its
struct and an alias out of the output, and one diagnostic tells of each; nothing else changes.
-/

namespace DeclBridge

theorem bind_eq_error {α β : Type} {x : Except Error α} {f : α → Except Error β} {e : Error} :
    (x >>= f) = .error e ↔ x = .error e ∨ ∃ a, x = .ok a ∧ f a = .error e := by
  cases x <;> simp [bind, Except.bind]

theorem bind_pure_eq_error {α β : Type} {x : Except Error α} {f : α → β} {e : Error} :
    (x >>= fun a => pure (f a)) = .error e ↔ x = .error e := by
  cases x <;> simp [bind, Except.bind, pure, Except.pure]

namespace Node

def decl? : Node → Option Decl
  | .decl d => some d
  | _ => none

/-- The declarations among nodes behind comments that wait, with the comments that they take. -/
def documentedFrom (b : PendingDoc) : List Node → List Decl
  | [] => []
  | .comment c :: nodes => documentedFrom (b.push c) nodes
  | .decl d :: nodes =>
      d.withComments (b.takeFor d.line).1 :: documentedFrom (b.takeFor d.line).2 nodes
  | .other _ :: nodes => documentedFrom .idle nodes

/-- The declarations among nodes, with the comments that they take. -/
def documented (nodes : List Node) : List Decl :=
  documentedFrom .idle nodes

theorem withComments_documentedFrom (b : PendingDoc) (nodes : List Node) :
    (documentedFrom b nodes).map (Decl.withComments []) =
      (nodes.filterMap decl?).map (Decl.withComments []) := by
  induction b, nodes using documentedFrom.induct with
  | case1 => rfl
  | case2 _ _ _ ih => exact ih
  | case3 _ d _ ih =>
      refine congrArg₂ List.cons ?_ ih
      cases d <;> rfl
  | case4 _ _ _ ih => exact ih

end Node

namespace Tag

theorem failure_of_valueOf {literal key : String} {failure : Failure}
    (h : valueOf literal key = .error failure) :
    failure = .notFound literal ∨ ∃ fault, failure = .malformed literal fault := by
  unfold valueOf at h
  split at h
  · next fault _ => exact .inr ⟨.literal fault, (Except.error.inj h).symm⟩
  · split at h
    · cases h
    · exact .inl (Except.error.inj h).symm
    · next fault _ => exact .inr ⟨fault, (Except.error.inj h).symm⟩

end Tag

theorem TagEntry.ofTag?_eq_error {tag : Option String} {key : String} {failure : Tag.Failure} :
    ofTag? tag key = .error failure ↔ ∃ literal fault, tag = some literal ∧
      failure = .malformed literal fault ∧
      Tag.valueOf literal key = .error (.malformed literal fault) := by
  constructor
  · intro h
    cases tag with
    | none => cases h
    | some literal =>
        rw [ofTag?] at h
        cases hvalue : Tag.valueOf literal key with
        | ok value =>
            rw [hvalue] at h
            cases h
        | error =>
            rw [hvalue] at h
            rcases Tag.failure_of_valueOf hvalue with rfl | ⟨fault, rfl⟩
            · cases h
            · exact ⟨literal, fault, rfl, (Except.error.inj h).symm, hvalue⟩
  · rintro ⟨literal, fault, rfl, rfl, hvalue⟩
    rw [ofTag?, hvalue]

namespace Ruleset

variable {r : Ruleset} {f : Field} {e : Error}

/-- A field cannot be rendered: it embeds a type that gives it no name or has no Rust type, or its
tag is malformed, or its type has no Rust type and the tag does not leave it out. -/
inductive Fails (r : Ruleset) (f : Field) : Prop where
  | embeddedName {e : Error} : f.isEmbedded = true → f.type.embeddedName = .error e → Fails r f
  | embeddedType {e : Error} : f.isEmbedded = true → r.rustType f.type = .error e → Fails r f
  | tag {literal : String} {fault : TagFault} : f.isEmbedded = false → f.tag = some literal →
      Tag.valueOf literal r.tagKey = .error (.malformed literal fault) → Fails r f
  | type {e : Error} : f.isEmbedded = false →
      (∀ entry, TagEntry.ofTag? f.tag r.tagKey = .ok (some entry) → entry.skip = false) →
      r.rustType f.type = .error e → Fails r f

theorem embeddedField_eq_error :
    r.embeddedField f = .error e ↔ f.type.embeddedName = .error e ∨
      ∃ name, f.type.embeddedName = .ok name ∧ r.rustType f.type = .error e := by
  rw [embeddedField, bind_eq_error]
  refine or_congr Iff.rfl (exists_congr fun name => and_congr_right fun _ => ?_)
  exact bind_pure_eq_error

theorem fieldOutputs_of_embedded (h : f.isEmbedded = true) :
    r.fieldOutputs f = .error e ↔ r.embeddedField f = .error e := by
  rw [fieldOutputs, if_pos h]
  exact bind_pure_eq_error

theorem fieldOutputs_of_named (h : f.isEmbedded = false) :
    r.fieldOutputs f = .error e ↔
      (∃ failure, TagEntry.ofTag? f.tag r.tagKey = .error failure ∧ failure.toError = e) ∨
      ∃ entry, TagEntry.ofTag? f.tag r.tagKey = .ok entry ∧ entry.any TagEntry.skip = false ∧
        r.rustType f.type = .error e := by
  rw [fieldOutputs, if_neg (by rw [h]; decide)]
  cases TagEntry.ofTag? f.tag r.tagKey with
  | error failure => simp [Except.mapError, bind, Except.bind]
  | ok entry =>
      cases hskip : entry.any TagEntry.skip with
      | true => simp [Except.mapError, bind, Except.bind, pure, Except.pure, hskip]
      | false =>
          have htail : (r.rustType f.type >>= fun type => pure (f.names.map (FieldOutput.active ∘
              r.namedField (docLines f.doc none)
                (if entry.any TagEntry.omitEmpty then "Option<" ++ type ++ ">" else type)
                (entry.bind TagEntry.name)))) = .error e ↔ r.rustType f.type = .error e :=
            bind_pure_eq_error
          simpa [Except.mapError, bind, Except.bind, hskip] using htail

/-- Exactly those fields are left out that cannot be rendered. -/
theorem fieldOutputs_fails : (∃ e, r.fieldOutputs f = .error e) ↔ r.Fails f := by
  constructor
  · rintro ⟨e, he⟩
    cases h : f.isEmbedded with
    | true =>
        rcases embeddedField_eq_error.mp ((fieldOutputs_of_embedded h).mp he) with hname | hrest
        · exact .embeddedName h hname
        · obtain ⟨name, -, htype⟩ := hrest
          exact .embeddedType h htype
    | false =>
        rcases (fieldOutputs_of_named h).mp he with ⟨failure, htag, -⟩ | ⟨entry, htag, hskip, htype⟩
        · obtain ⟨literal, fault, hliteral, -, hvalue⟩ := TagEntry.ofTag?_eq_error.mp htag
          exact .tag h hliteral hvalue
        · refine .type h (fun entry' hentry' => ?_) htype
          cases htag.symm.trans hentry'
          exact hskip
  · intro hf
    cases hf with
    | embeddedName h hname =>
        exact ⟨_, (fieldOutputs_of_embedded h).mpr (embeddedField_eq_error.mpr (.inl hname))⟩
    | @embeddedType e h htype =>
        -- If there is no name either, that is the error.
        have herror : ∃ e, r.embeddedField f = .error e := by
          cases hname : f.type.embeddedName with
          | error e => exact ⟨e, embeddedField_eq_error.mpr (.inl hname)⟩
          | ok name => exact ⟨e, embeddedField_eq_error.mpr (.inr ⟨name, hname, htype⟩)⟩
        obtain ⟨e, he⟩ := herror
        exact ⟨e, (fieldOutputs_of_embedded h).mpr he⟩
    | tag h htag hvalue =>
        have hentry := TagEntry.ofTag?_eq_error.mpr ⟨_, _, htag, rfl, hvalue⟩
        exact ⟨_, (fieldOutputs_of_named h).mpr (.inl ⟨_, hentry, rfl⟩)⟩
    | @type e h hskip htype =>
        cases hentry : TagEntry.ofTag? f.tag r.tagKey with
        | error failure => exact ⟨_, (fieldOutputs_of_named h).mpr (.inl ⟨failure, hentry, rfl⟩)⟩
        | ok entry =>
            have hany : entry.any TagEntry.skip = false := by
              cases entry with
              | none => rfl
              | some entry => exact hskip entry hentry
            exact ⟨e, (fieldOutputs_of_named h).mpr (.inr ⟨entry, hentry, hany, htype⟩)⟩

theorem errs_embeddedName (type : TypeExpr) : Errs false type.embeddedName := by
  rw [Errs]
  intro e he
  unfold TypeExpr.embeddedName at he
  split at he <;> cases he <;> rfl

theorem errs_rustType (type : TypeExpr) : Errs false (r.rustType type) := by
  induction type with
  | named => exact errs_ok _
  | pointer _ ih =>
      refine ih.bind fun _ => ?_
      split <;> exact errs_ok _
  | slice _ ih => exact ih.bind fun _ => errs_ok _
  | array _ _ ihelem ihlength => exact ihelem.bind fun _ => ihlength.bind fun _ => errs_ok _
  | map _ _ ihkey ihvalue => exact ihkey.bind fun _ => ihvalue.bind fun _ => errs_ok _
  | qualified =>
      rw [rustType]
      split
      · exact errs_ok _
      · exact errs_error rfl
  | dynamic => exact errs_ok _
  | unsupported => exact errs_error rfl

/-- What keeps a field from being rendered does not lie in the source text. -/
theorem errs_fieldOutputs (f : Field) : Errs false (r.fieldOutputs f) := by
  intro e he
  cases h : f.isEmbedded with
  | true =>
      rcases embeddedField_eq_error.mp ((fieldOutputs_of_embedded h).mp he) with hname | hrest
      · exact errs_embeddedName _ _ hname
      · obtain ⟨name, -, htype⟩ := hrest
        exact errs_rustType _ _ htype
  | false =>
      rcases (fieldOutputs_of_named h).mp he with ⟨failure, -, rfl⟩ | ⟨entry, -, -, htype⟩
      · cases failure <;> rfl
      · exact errs_rustType _ _ htype

/-- The diagnostic of a field that cannot be rendered. -/
def fieldFault? (r : Ruleset) (record : String) (f : Field) : Option Diagnostic :=
  match r.fieldOutputs f with
  | .ok _ => none
  | .error e => some ⟨.field, record ++ "." ++ f.label, e⟩

/-- The diagnostic of an alias that cannot be rendered. -/
def aliasFault? (r : Ruleset) (a : Alias) : Option Diagnostic :=
  match r.rustType a.type with
  | .ok _ => none
  | .error e => some ⟨.type, a.name, e⟩

/-- The diagnostics of a declaration, one for each part that cannot be rendered. -/
def faults (r : Ruleset) : Decl → List Diagnostic
  | .record record => record.fields.filterMap (r.fieldFault? record.name)
  | .alias a => (r.aliasFault? a).toList

/-- Whether the declaration has an item. -/
def renders (r : Ruleset) : Decl → Bool
  | .record _ => true
  | .alias a => (r.rustType a.type).isOk

/-- The declaration without the fields that cannot be rendered. -/
def rendered (r : Ruleset) : Decl → Decl
  | .record record =>
      .record { record with fields := record.fields.filter fun f => (r.fieldOutputs f).isOk }
  | .alias a => .alias a

theorem fieldLines_snd (record : String) (fields : List Field) :
    (r.fieldLines record fields).2 = fields.filterMap (r.fieldFault? record) := by
  induction fields with
  | nil => rfl
  | cons f fields ih =>
      rw [fieldLines, List.filterMap_cons, fieldFault?]
      cases r.fieldOutputs f with
      | ok => exact ih
      | error => exact congrArg _ ih

theorem fieldLines_filter (record : String) (fields : List Field) :
    r.fieldLines record (fields.filter fun f => (r.fieldOutputs f).isOk) =
      ((r.fieldLines record fields).1, []) := by
  induction fields with
  | nil => rfl
  | cons f fields ih =>
      rw [List.filter_cons, fieldLines]
      cases h : r.fieldOutputs f with
      | ok outputs =>
          change r.fieldLines record (f :: _) = _
          rw [fieldLines, h, ih]
      | error e => exact ih

theorem structItem_snd (record : Record) :
    (r.structItem record).2 = record.fields.filterMap (r.fieldFault? record.name) :=
  fieldLines_snd record.name record.fields

theorem structItem_filter (record : Record) :
    r.structItem { record with fields := record.fields.filter fun f => (r.fieldOutputs f).isOk } =
      ((r.structItem record).1, []) := by
  rw [structItem, fieldLines_filter]
  rfl

theorem item_of_renders {d : Decl} (h : r.renders d = true) :
    ∃ text, r.item d = (some text, r.faults d) ∧ r.item (r.rendered d) = (some text, []) := by
  rcases d with record | a
  · refine ⟨(r.structItem record).1, ?_, ?_⟩
    · rw [faults, ← structItem_snd]
      rfl
    · rw [rendered, item, structItem_filter]
  · obtain ⟨type, htype⟩ : ∃ type, r.rustType a.type = .ok type := by
      rw [renders] at h
      cases htype : r.rustType a.type with
      | ok type => exact ⟨type, rfl⟩
      | error => rw [htype] at h; cases h
    simp [item, aliasItem, faults, aliasFault?, rendered, htype]

theorem item_of_not_renders {d : Decl} (h : r.renders d = false) :
    r.item d = (none, r.faults d) := by
  rcases d with record | a
  · cases h
  · rw [renders] at h
    cases htype : r.rustType a.type with
    | ok => rw [htype] at h; cases h
    | error => simp [item, aliasItem, faults, aliasFault?, htype]

theorem item_snd (d : Decl) : (r.item d).2 = r.faults d := by
  cases h : r.renders d with
  | true =>
      obtain ⟨text, hitem, -⟩ := item_of_renders h
      rw [hitem]
  | false => rw [item_of_not_renders h]

/-- Nothing that cannot be rendered is the fault of the source text. -/
theorem inSource_of_mem_faults {d : Decl} {diagnostic : Diagnostic} (h : diagnostic ∈ r.faults d) :
    diagnostic.error.inSource = false := by
  rcases d with record | a
  · obtain ⟨f, -, hf⟩ := List.mem_filterMap.mp h
    rw [fieldFault?] at hf
    cases he : r.fieldOutputs f with
    | ok => rw [he] at hf; cases hf
    | error e =>
        rw [he] at hf
        cases hf
        exact errs_fieldOutputs f e he
  · rw [faults, Option.mem_toList, aliasFault?] at h
    cases he : r.rustType a.type with
    | ok => rw [he] at h; cases h
    | error e =>
        rw [he] at h
        cases h
        exact errs_rustType a.type e he

/-- The item of a declaration: its text, which the parts that cannot be rendered do not count for,
and a diagnostic for each of them. -/
structure IsItem (r : Ruleset) (text : String) (d : Decl) : Prop where
  item_eq : r.item d = (some text, r.faults d)
  item_rendered : r.item (r.rendered d) = (some text, [])

theorem itemsFrom_fst (b : PendingDoc) (nodes : List Node) :
    List.Forall₂ r.IsItem (r.itemsFrom b nodes).1
      ((Node.documentedFrom b nodes).filter r.renders) := by
  induction b, nodes using Node.documentedFrom.induct with
  | case1 => exact .nil
  | case2 _ _ _ ih => exact ih
  | case3 b d nodes ih =>
      rw [Node.documentedFrom]
      change List.Forall₂ r.IsItem ((r.item (d.withComments (b.takeFor d.line).1)).1.toList ++ _) _
      cases h : r.renders (d.withComments (b.takeFor d.line).1) with
      | true =>
          obtain ⟨text, hitem, hrendered⟩ := item_of_renders h
          rw [List.filter_cons_of_pos h, hitem]
          exact .cons ⟨hitem, hrendered⟩ ih
      | false =>
          rw [List.filter_cons_of_neg (by rw [h]; decide), item_of_not_renders h]
          exact ih
  | case4 _ _ _ ih => exact ih

theorem itemsFrom_snd (b : PendingDoc) (nodes : List Node) :
    (r.itemsFrom b nodes).2 = (Node.documentedFrom b nodes).flatMap r.faults := by
  induction b, nodes using Node.documentedFrom.induct with
  | case1 => rfl
  | case2 _ _ _ ih => exact ih
  | case3 b d nodes ih =>
      rw [Node.documentedFrom, List.flatMap_cons, ← ih, ← item_snd]
      rfl
  | case4 _ _ _ ih => exact ih

theorem outputOfSource_eq (source : String) :
    r.outputOfSource source = (fun nodes => (unlines (r.items nodes).1, (r.items nodes).2)) <$>
      Node.ofSource source := by
  rw [outputOfSource, itemsOfSource]
  cases Node.ofSource source <;> rfl

theorem outputOfSource_eq_error {source : String} :
    r.outputOfSource source = .error e ↔ Node.ofSource source = .error e := by
  rw [outputOfSource_eq]
  cases Node.ofSource source <;> simp

/-- A source text has an output unless it cannot be read. The output holds the items of the
declarations that can be rendered, in their order, and the diagnostics tell of each declaration and
of each field that cannot, in their order. -/
theorem outputOfSource_accounted (r : Ruleset) :
    (∀ source e, r.outputOfSource source = .error e ↔ Node.ofSource source = .error e) ∧
    (∀ source, Errs true (r.outputOfSource source)) ∧
    (∀ source, r.outputOfSource source =
      (fun nodes => (unlines (r.items nodes).1, (r.items nodes).2)) <$> Node.ofSource source) ∧
    (∀ nodes, (Node.documented nodes).map (Decl.withComments []) =
      (nodes.filterMap Node.decl?).map (Decl.withComments [])) ∧
    (∀ nodes, List.Forall₂ r.IsItem (r.items nodes).1 ((Node.documented nodes).filter r.renders)) ∧
    (∀ nodes, (r.items nodes).2 = (Node.documented nodes).flatMap r.faults) ∧
    (∀ nodes, ∀ diagnostic ∈ (r.items nodes).2, diagnostic.error.inSource = false) ∧
    ∀ f, (∃ e, r.fieldOutputs f = .error e) ↔ r.Fails f := by
  refine ⟨fun _ _ => outputOfSource_eq_error, fun source e he => ?_, outputOfSource_eq,
    Node.withComments_documentedFrom .idle, itemsFrom_fst .idle, itemsFrom_snd .idle,
    fun nodes diagnostic hdiagnostic => ?_, fun _ => fieldOutputs_fails⟩
  · exact Node.errs_ofSource source e (outputOfSource_eq_error.mp he)
  · rw [items, itemsFrom_snd] at hdiagnostic
    obtain ⟨d, -, hd⟩ := List.mem_flatMap.mp hdiagnostic
    exact inSource_of_mem_faults hd

/-- Three fields and an alias are left out, and each is told of once. -/
theorem outputOfSource_accounted_mixed :
    ∃ nodes, Node.ofSource ("type T struct \x7b\nA chan int\nB int\nC int `json:\"c`\n" ++
        "*[]int\n\x7d\n// f\ntype F func()\ntype G int\n") = .ok nodes ∧
      (Node.documented nodes).map legacy.renders = [true, false, true] ∧
      (legacy.items nodes).2.map Diagnostic.context = ["T.A", "T.C", "T.*[]int", "F"] ∧
      ∀ diagnostic ∈ (legacy.items nodes).2, diagnostic.error.inSource = false := by
  obtain ⟨-, -, -, -, -, hdiagnostics, hinSource, -⟩ := outputOfSource_accounted legacy
  refine ⟨_, by cbv, by cbv, ?_, hinSource _⟩
  rw [hdiagnostics]
  cbv

end Ruleset

end DeclBridge
