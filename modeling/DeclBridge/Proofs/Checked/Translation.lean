import DeclBridge.Proofs.Checked.Decl
import DeclBridge.Proofs.Checked.Scanner
import DeclBridge.Proofs.Checked.Tag
import DeclBridge.Proofs.Scan.Whole
import DeclBridge.Render.Nodes

/-!
The translation of a source text with every check in it, from the scanner to the items. It does what
the translation without the checks does, so none of the checks fails on any source text.
-/

namespace DeclBridge.Checked

open Exec (slice)

/-- The place of the last element that satisfies `p`. -/
def lastIdx? {α : Type} (p : α → Bool) (xs : List α) : Option Nat :=
  (xs.reverse.findIdx? p).map fun i => xs.length - 1 - i

/-- The lines from the first to the last one that is not empty. -/
def withoutEmptyEnds (lines : List (List Char)) : Exec Error (List (List Char)) :=
  match lines.findIdx? (!·.isEmpty), lastIdx? (!·.isEmpty) lines with
  | some first, some last => slice lines first (last + 1)
  | _, _ => return []

def commentLines (c : Comment) : Exec Error (List String) := do
  match c.text.toList with
  | '/' :: '/' :: rest => return [String.ofList ('/' :: '/' :: '/' :: rest)]
  | text =>
      let lines ← withoutEmptyEnds ((Text.split '\n' (Comment.body text)).map Text.trim)
      return lines.map fun line =>
        if line = [] then "///" else String.ofList ('/' :: '/' :: '/' :: ' ' :: line)

/-- The doc lines of comments, the trailing one last. -/
def docLines (comments : List Comment) (trailing : Option Comment) : Exec Error (List String) := do
  return (← (comments ++ trailing.toList).mapM commentLines).flatten

/-- The entry for a key in the tag of a field. -/
def fieldTag (literal : Option String) (key : String) : Exec Error (Option TagEntry) := do
  match literal with
  | none => return none
  | some literal =>
      match ← Exec.attempt (extract literal key) with
      | .ok value => return some (.ofValue value)
      | .error (.notFound _) => return none
      | .error failure => throw failure.toError

/-- What becomes of the names of a field, or of the type that it embeds. -/
def renderField (r : Ruleset) (f : Field) : Exec Error (List FieldOutput) := do
  let doc ← docLines f.doc none
  if f.isEmbedded then
    let name ← Exec.ofExcept f.type.embeddedName
    let (ident, wire) := avoidBarred (r.fieldName name) none
    let type ← Exec.ofExcept (r.rustType f.type)
    return [.active ⟨doc, wire.map renameAttr, ident, type⟩]
  else
    let entry ← fieldTag f.tag r.tagKey
    if entry.any TagEntry.skip then return f.names.map (.omitted ∘ r.fieldName)
    else
      let type ← Exec.ofExcept (r.rustType f.type)
      let type := if entry.any TagEntry.omitEmpty then "Option<" ++ type ++ ">" else type
      return f.names.map (.active ∘ r.namedField doc type (entry.bind TagEntry.name))

/-- The lines of the fields that can be rendered, and the diagnostics of the others. -/
def renderFields (r : Ruleset) (record : String) :
    List Field → Exec Error (List String × List Diagnostic)
  | [] => return ([], [])
  | f :: fields => do
      let result ← Exec.attempt (renderField r f)
      let (lines, diagnostics) ← renderFields r record fields
      match result with
      | .ok outputs => return (outputs.flatMap FieldOutput.lines ++ lines, diagnostics)
      | .error e => return (lines, ⟨.field, record ++ "." ++ f.label, e⟩ :: diagnostics)

def renderRecord (r : Ruleset) (record : Record) : Exec Error (String × List Diagnostic) := do
  let doc ← docLines record.comments record.trailing
  let (lines, diagnostics) ← renderFields r record.name record.fields
  let opening := "pub struct " ++ typeName record.name ++ " \x7b"
  return (unlines (doc ++ [structDerives, opening] ++ lines ++ ["\x7d"]), diagnostics)

def renderAlias (r : Ruleset) (a : Alias) : Exec Error (Option String × List Diagnostic) := do
  match r.rustType a.type with
  | .ok type =>
      let doc ← docLines a.comments a.trailing
      let line := "pub type " ++ typeName a.name ++ " = " ++ type ++ ";"
      return (some (unlines (doc ++ [line])), [])
  | .error e => return (none, [⟨.type, a.name, e⟩])

def renderDecl (r : Ruleset) : Decl → Exec Error (Option String × List Diagnostic)
  | .record record => do
      let (text, diagnostics) ← renderRecord r record
      return (some text, diagnostics)
  | .alias a => renderAlias r a

/-- The items of nodes behind comments that wait for a declaration, and the diagnostics. -/
def renderNodes (r : Ruleset) (b : PendingDoc) :
    List Node → Exec Error (List String × List Diagnostic)
  | [] => return ([], [])
  | .comment c :: nodes => renderNodes r (b.push c) nodes
  | .decl d :: nodes => do
      let (comments, b) := b.takeFor d.line
      let (text, diagnostics) ← renderDecl r (d.withComments comments)
      let (texts, others) ← renderNodes r b nodes
      return (text.toList ++ texts, diagnostics ++ others)
  | .other _ :: nodes => renderNodes r .idle nodes

/-- The output for a source text and the diagnostics. -/
def translate (r : Ruleset) (source : String) : Exec Error (String × List Diagnostic) := do
  let tokens ← scan source
  let nodes ← Parser.parse tokens 0
  let (texts, diagnostics) ← renderNodes r .idle nodes
  return (unlines texts, diagnostics)

theorem findIdx?_append_cons {α : Type} {p : α → Bool} {xs : List α} {y : α} (zs : List α)
    (hxs : ∀ x ∈ xs, p x = false) (hy : p y = true) :
    (xs ++ y :: zs).findIdx? p = some xs.length := by
  simp [List.findIdx?_append, List.findIdx?_eq_none_iff.mpr hxs, List.findIdx?_cons, hy]

theorem lastIdx?_append_concat {α : Type} {p : α → Bool} (xs : List α) {y : α} {zs : List α}
    (hzs : ∀ z ∈ zs, p z = false) (hy : p y = true) :
    lastIdx? p (xs ++ [y] ++ zs) = some xs.length := by
  have hreverse : (xs ++ [y] ++ zs).reverse = zs.reverse ++ y :: xs.reverse := by simp
  rw [lastIdx?, hreverse, findIdx?_append_cons _ (by simpa using hzs) hy]
  simp

theorem withoutEmptyEnds_append {before kept after : List (List Char)}
    (hbefore : ∀ line ∈ before, line.isEmpty) (hafter : ∀ line ∈ after, line.isEmpty)
    (hhead : ∀ h, ¬(kept.head h).isEmpty) (hlast : ∀ h, ¬(kept.getLast h).isEmpty) :
    withoutEmptyEnds (before ++ kept ++ after) = pure kept := by
  by_cases hkept : kept = []
  · have hnone : (before ++ kept ++ after).findIdx? (!·.isEmpty) = none := by
      rw [List.findIdx?_eq_none_iff, hkept]
      grind
    rw [withoutEmptyEnds, hnone, hkept]
  · have hfirst : (before ++ kept ++ after).findIdx? (!·.isEmpty) = some before.length := by
      rw [List.append_assoc, ← List.cons_head_tail hkept]
      exact findIdx?_append_cons _ (by simpa using hbefore) (by simpa using hhead hkept)
    have hend : lastIdx? (!·.isEmpty) (before ++ kept ++ after) =
        some (before ++ kept.dropLast).length := by
      conv_lhs => rw [← List.dropLast_append_getLast hkept, ← List.append_assoc]
      exact lastIdx?_append_concat _ (by simpa using hafter) (by simpa using hlast hkept)
    have hlength := List.length_pos_of_ne_nil hkept
    rw [withoutEmptyEnds, hfirst, hend]
    exact Exec.slice_append rfl (by rw [List.length_append, List.length_dropLast]; omega)

/-- The lines that are kept are those between the empty lines at both ends. -/
theorem withoutEmptyEnds_eq (lines : List (List Char)) :
    withoutEmptyEnds lines = pure (Comment.dropEmptyEnds lines) := by
  let rest := lines.dropWhile List.isEmpty
  have hlines : lines.takeWhile List.isEmpty ++ rest.rdropWhile List.isEmpty ++
      rest.rtakeWhile List.isEmpty = lines := by
    rw [List.append_assoc, List.rdropWhile_append_rtakeWhile, List.takeWhile_append_dropWhile]
  have hhead (h : rest.rdropWhile List.isEmpty ≠ []) :
      ¬((rest.rdropWhile List.isEmpty).head h).isEmpty := by
    rw [(rest.rdropWhile_prefix List.isEmpty).head h]
    exact Bool.eq_false_iff.mp (List.head_dropWhile_not _ _)
  conv_lhs => rw [← hlines]
  exact withoutEmptyEnds_append (fun _ => List.mem_takeWhile_imp) (fun _ => List.mem_rtakeWhile_imp)
    hhead (List.rdropWhile_last_not _ _)

theorem commentLines_eq (c : Comment) : commentLines c = pure c.docLines := by
  unfold commentLines Comment.docLines
  generalize c.text.toList = text
  split
  · rfl
  · simp only [withoutEmptyEnds_eq, pure_bind]

theorem docLines_eq (comments : List Comment) (trailing : Option Comment) :
    docLines comments trailing = pure (DeclBridge.docLines comments trailing) := by
  rw [docLines, DeclBridge.docLines]
  generalize comments ++ trailing.toList = cs
  have hlines : cs.mapM commentLines = pure (cs.map Comment.docLines) := by
    induction cs with
    | nil => rfl
    | cons c cs ih => rw [List.mapM_cons, commentLines_eq, ih, pure_bind, pure_bind, List.map_cons]
  rw [hlines, pure_bind, List.flatMap_def]

theorem fieldTag_eq (literal : Option String) (key : String) :
    fieldTag literal key =
      Exec.ofExcept ((TagEntry.ofTag? literal key).mapError Tag.Failure.toError) := by
  cases literal with
  | none => rfl
  | some literal =>
      simp only [fieldTag, extract_eq, Exec.attempt_ofExcept, pure_bind, TagEntry.ofTag?]
      cases Tag.valueOf literal key with
      | ok value => rfl
      | error failure => cases failure <;> rfl

theorem renderField_eq (r : Ruleset) (f : Field) :
    renderField r f = Exec.ofExcept (r.fieldOutputs f) := by
  rw [renderField, docLines_eq, pure_bind, fieldTag_eq, Ruleset.fieldOutputs]
  cases f.isEmbedded with
  | true =>
      simp only [if_true, Ruleset.embeddedField]
      cases f.type.embeddedName with
      | error e => rfl
      | ok name => cases r.rustType f.type <;> rfl
  | false =>
      simp only [Bool.false_eq_true, if_false]
      refine (congrArg _ (funext fun entry => ?_)).trans (Exec.ofExcept_bind _ _).symm
      cases entry.any TagEntry.skip with
      | true => rfl
      | false => cases r.rustType f.type <;> rfl

theorem renderFields_eq (r : Ruleset) (record : String) (fields : List Field) :
    renderFields r record fields = pure (r.fieldLines record fields) := by
  induction fields with
  | nil => rfl
  | cons f fields ih =>
      rw [renderFields, renderField_eq, Exec.attempt_ofExcept, pure_bind, ih, pure_bind,
        Ruleset.fieldLines]
      cases r.fieldOutputs f <;> rfl

theorem renderDecl_eq (r : Ruleset) (d : Decl) : renderDecl r d = pure (r.item d) := by
  match d with
  | .record record =>
      rw [renderDecl, renderRecord, docLines_eq, renderFields_eq]
      rfl
  | .alias a =>
      rw [renderDecl, renderAlias, docLines_eq, Ruleset.item, Ruleset.aliasItem]
      cases r.rustType a.type <;> rfl

theorem renderNodes_eq (r : Ruleset) (b : PendingDoc) (nodes : List Node) :
    renderNodes r b nodes = pure (r.itemsFrom b nodes) := by
  induction nodes generalizing b with
  | nil => rfl
  | cons node nodes ih =>
      cases node with
      | comment c => exact ih _
      | decl d =>
          rw [renderNodes, Ruleset.itemsFrom]
          simp only [renderDecl_eq, ih, pure_bind]
      | other => exact ih _

theorem kind_ne_of_ofSource {source : String} {s : Scanned} (h : Scanned.ofSource source = .ok s) :
    ∀ t ∈ s.tokens, t.kind ≠ .eof := by
  intro t ht heof
  have hgenuine := Scanned.isGenuine_of_ofSource h t ht (by simp [Token.isLineEnd, heof])
  have hwhole := hgenuine.isWhole
  rw [heof] at hwhole
  obtain ⟨c, cs, -, hextent⟩ := Token.isWhole_iff.mp hwhole
  exact absurd (Token.mem_exactKinds_of_extent hextent) (by decide)

theorem translate_eq (r : Ruleset) (source : String) :
    translate r source = Exec.ofExcept (r.outputOfSource source) := by
  rw [translate, scan_eq, Ruleset.outputOfSource, Ruleset.itemsOfSource, Node.ofSource]
  cases hs : Scanned.ofSource source with
  | error e => rfl
  | ok s =>
      have hrest : Parser.Rest s.toList 0 s.tokens :=
        ⟨[], ⟨.eof, "", s.last⟩, rfl, rfl, rfl, kind_ne_of_ofSource hs⟩
      have hparse := (Parser.parse_agrees hrest).eq_ofExcept
      change Parser.parse s.toList 0 >>= _ =
        Exec.ofExcept ((r.items <$> Node.readAll s.tokens) >>= _)
      rw [hparse]
      cases Node.readAll s.tokens with
      | error e => rfl
      | ok nodes =>
          rw [Exec.ofExcept_ok, pure_bind, renderNodes_eq]
          rfl

/-- No source text breaks the translation under any ruleset, no two texts break the search for a key
in a tag, and no text breaks the decoding of a literal: all of them end, with what they give when
nothing is checked. -/
theorem never_panics :
    (∀ (r : Ruleset) (source : String),
      translate r source = Exec.ofExcept (r.outputOfSource source) ∧
        ∀ p, translate r source ≠ Exec.panic p) ∧
    (∀ literal key : String,
      extract literal key = Exec.ofExcept (Tag.valueOf literal key) ∧
        ∀ p, extract literal key ≠ Exec.panic p) ∧
    ∀ literal : String,
      unquote literal.toList = Exec.ofExcept (Tag.Literal.decode literal.toList) ∧
        ∀ p, unquote literal.toList ≠ Exec.panic p := by
  refine ⟨fun r source => ?translate, fun literal key => ?extract, fun literal => ?unquote⟩
  case translate =>
    rw [translate_eq]
    exact ⟨rfl, Exec.ofExcept_ne_panic _⟩
  case extract =>
    rw [extract_eq]
    exact ⟨rfl, Exec.ofExcept_ne_panic _⟩
  case unquote =>
    rw [unquote_eq]
    exact ⟨rfl, Exec.ofExcept_ne_panic _⟩

end DeclBridge.Checked
