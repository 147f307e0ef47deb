import DeclBridge.Proofs.Composition
import DeclBridge.Proofs.Grammar.Plain

/-!
Line endings. A source text whose lines end with a carriage return and a line break is translated as
it is without the carriage returns: they are white space between tokens and around doc lines, and a
tag in a raw string loses them.
-/

namespace DeclBridge

open Token (plainComment plainLiteral)
open Text (withoutReturns withReturns ReturnsEndLines withoutReturns_cons)

namespace Comment

theorem docLines_block {c : Comment} {rest : List Char} (h : c.text.toList = '/' :: '*' :: rest) :
    c.docLines = (dropEmptyEnds ((Text.split '\n' (body c.text.toList)).map Text.trim)).map
      fun line =>
        if line = [] then "///" else String.ofList ('/' :: '/' :: '/' :: ' ' :: line) := by
  rw [docLines, h]
  rfl

theorem body_closed (inner : List Char) :
    body ('/' :: '*' :: (inner ++ ['*', '/'])) = inner := by
  have hclosed : ['*', '/'].isSuffixOf (inner ++ ['*', '/']) = true := by
    rw [List.isSuffixOf_iff_suffix]
    exact List.suffix_append _ _
  simp [body, hclosed]

theorem body_open {rest : List Char} (h : ¬ ∃ inner, rest = inner ++ ['*', '/']) :
    body ('/' :: '*' :: rest) = '/' :: '*' :: rest := by
  have hopen : ['*', '/'].isSuffixOf rest = false := by
    refine eq_false_of_ne_true fun hclosed => h ?_
    obtain ⟨inner, hrest⟩ := List.isSuffixOf_iff_suffix.mp hclosed
    exact ⟨inner, hrest.symm⟩
  simp [body, hopen]

/-- A block comment without carriage returns is closed where it was closed. -/
theorem body_withoutReturns {rest : List Char} (h : ReturnsEndLines ('/' :: '*' :: rest)) :
    body ('/' :: '*' :: withoutReturns rest) = withoutReturns (body ('/' :: '*' :: rest)) ∧
      ReturnsEndLines (body ('/' :: '*' :: rest)) := by
  have hrest : ReturnsEndLines rest := h.2.2
  by_cases hclosed : ∃ inner, rest = inner ++ ['*', '/']
  · obtain ⟨inner, rfl⟩ := hclosed
    rw [Text.withoutReturns_append, body_closed]
    exact ⟨body_closed _, hrest.of_append (hrest.getLast?_ne (by decide))⟩
  · rw [body_open hclosed, body_open]
    · rw [withoutReturns_cons (by decide), withoutReturns_cons (by decide)]
      exact ⟨rfl, h⟩
    · rintro ⟨inner, hinner⟩
      have hempty : ReturnsEndLines (rest ++ []) := by rwa [List.append_nil]
      rw [List.append_cons] at hinner
      obtain ⟨front, rfl, hfront⟩ :=
        Text.exists_of_withoutReturns_eq (hempty.getLast?_ne (by decide)) hinner
      obtain ⟨front, rfl, -⟩ :=
        Text.exists_of_withoutReturns_eq (hrest.getLast?_ne (by decide)) hfront
      exact hclosed ⟨front, by rw [List.append_assoc]; rfl⟩

/-- The doc lines of a comment do not tell the carriage returns at the ends of its lines. -/
theorem docLines_plain (c : Comment) : c.plain.docLines = c.docLines := by
  by_cases h : ['/', '*'].isPrefixOf c.text.toList ∧ ReturnsEndLines c.text.toList
  · obtain ⟨rest, hrest⟩ := List.isPrefixOf_iff_prefix.mp h.1
    have hlines := h.2
    have htext : c.text.toList = '/' :: '*' :: rest := hrest.symm
    have hplain : c.plain.text.toList = withoutReturns ('/' :: '*' :: rest) := by
      rw [plain, String.toList_ofList, plainComment, if_pos h, htext]
    rw [htext] at hlines
    obtain ⟨hbody, hreturns⟩ := body_withoutReturns hlines
    rw [withoutReturns_cons (by decide), withoutReturns_cons (by decide)] at hplain
    rw [docLines_block htext, docLines_block hplain, htext, hplain, hbody,
      Text.map_trim_split hreturns]
  · rw [plain, plainComment, if_neg h, String.ofList_toList]

theorem lastLine_plain (c : Comment) : c.plain.lastLine = c.lastLine := by
  rw [lastLine, lastLine, plain, String.toList_ofList, plainComment]
  split
  · rw [Text.count_withoutReturns]
  · rfl

end Comment

namespace Tag

theorem Literal.decode_plainLiteral (text : List Char) :
    decode (plainLiteral text) = decode text := by
  rw [plainLiteral]
  split
  · rename_i h
    obtain ⟨hhead, hlast⟩ := h
    obtain ⟨rest, rfl⟩ := List.head?_eq_some_iff.mp hhead
    obtain ⟨body, rfl⟩ := List.getLast?_eq_some_iff.mp hlast
    have hcontains : (withoutReturns body).contains '`' = body.contains '`' := by
      simp [Text.mem_withoutReturns]
    have hfilter : ∀ cs : List Char, cs.filter (· != '\r') = withoutReturns cs := fun _ => rfl
    rw [withoutReturns_cons (by decide), Text.withoutReturns_append,
      withoutReturns_cons (by decide)]
    simp only [decode, Text.withoutReturns_of_not_mem (List.not_mem_nil), List.getLast?_concat,
      List.dropLast_concat, if_true, hcontains, hfilter,
      Text.withoutReturns_of_not_mem (Text.not_mem_withoutReturns body)]
  · rfl

end Tag

theorem toOption_cases {ε α : Type} {x y : Except ε α} (h : x.toOption = y.toOption) :
    (∃ a, x = .ok a ∧ y = .ok a) ∨ ∃ e e', x = .error e ∧ y = .error e' := by
  cases x <;> cases y <;> simp_all [Except.toOption]

/-- The entry of a tag does not tell them either. Where the tag has none, the fault quotes it. -/
theorem TagEntry.toOption_ofTag?_plain (tag : Option String) (key : String) :
    (ofTag? (tag.map fun tag => String.ofList (plainLiteral tag.toList)) key).toOption =
      (ofTag? tag key).toOption := by
  cases tag with
  | none => rfl
  | some tag =>
      simp only [Option.map_some, ofTag?, Tag.valueOf, String.toList_ofList,
        Tag.Literal.decode_plainLiteral]
      cases Tag.Literal.decode tag.toList with
      | error fault => rfl
      | ok text =>
          dsimp only
          obtain fault | _ | value := Tag.find? key.toList text <;> rfl

theorem docLines_plain (comments : List Comment) (trailing : Option Comment) :
    docLines (comments.map Comment.plain) (trailing.map Comment.plain) =
      docLines comments trailing := by
  have hmap : comments.map Comment.plain ++ (trailing.map Comment.plain).toList =
      (comments ++ trailing.toList).map Comment.plain := by
    cases trailing <;> simp
  rw [docLines, docLines, hmap, List.flatMap_map]
  exact congrArg (List.flatMap · _) (funext Comment.docLines_plain)

/-- What a diagnostic is about, without the reason that it gives. -/
def Diagnostic.about (d : Diagnostic) : Subject × String :=
  (d.subject, d.context)

namespace Ruleset

variable (r : Ruleset)

theorem toOption_fieldOutputs_plain (f : Field) :
    (r.fieldOutputs f.plain).toOption = (r.fieldOutputs f).toOption := by
  have hdoc : docLines f.plain.doc none = docLines f.doc none := docLines_plain f.doc none
  have hembedded : r.embeddedField f.plain = r.embeddedField f := by
    simp only [embeddedField, hdoc]
    rfl
  have htag : (TagEntry.ofTag? f.plain.tag r.tagKey).toOption =
      (TagEntry.ofTag? f.tag r.tagKey).toOption :=
    TagEntry.toOption_ofTag?_plain f.tag r.tagKey
  simp only [fieldOutputs, hdoc, hembedded, show f.plain.isEmbedded = f.isEmbedded from rfl]
  split
  · rfl
  · rcases toOption_cases htag with ⟨entry, hplain, hentry⟩ | ⟨_, _, hplain, hentry⟩
    · rw [hplain, hentry]
      rfl
    · rw [hplain, hentry]
      rfl

theorem fieldLines_plain (record : String) (fields : List Field) :
    (r.fieldLines record (fields.map Field.plain)).1 = (r.fieldLines record fields).1 ∧
      (r.fieldLines record (fields.map Field.plain)).2.map Diagnostic.about =
        (r.fieldLines record fields).2.map Diagnostic.about := by
  induction fields with
  | nil => exact ⟨rfl, rfl⟩
  | cons f fields ih =>
      simp only [List.map_cons, fieldLines]
      rcases toOption_cases (r.toOption_fieldOutputs_plain f) with
        ⟨outputs, hplain, houtputs⟩ | ⟨e, e', hplain, houtputs⟩
      · rw [hplain, houtputs]
        exact ⟨by rw [ih.1], ih.2⟩
      · rw [hplain, houtputs]
        exact ⟨ih.1, congrArg (_ :: ·) ih.2⟩

theorem item_plain (d : Decl) :
    (r.item d.plain).1 = (r.item d).1 ∧
      (r.item d.plain).2.map Diagnostic.about = (r.item d).2.map Diagnostic.about := by
  rcases d with record | a
  · obtain ⟨hlines, hdiagnostics⟩ := r.fieldLines_plain record.name record.fields
    refine ⟨?_, hdiagnostics⟩
    simp only [item, Decl.plain, structItem, hlines, docLines_plain]
  · simp only [item, Decl.plain, aliasItem, docLines_plain, and_self]

end Ruleset

namespace PendingDoc

/-- The waiting comments without carriage returns at the ends of their lines. -/
def plain : PendingDoc → PendingDoc
  | idle => idle
  | collecting pending => collecting (pending.map Comment.plain)

theorem pending_plain (b : PendingDoc) : b.plain.pending = b.pending.map Comment.plain := by
  cases b <;> rfl

theorem reaching_plain (line : Nat) (b : PendingDoc) :
    b.plain.reaching line = (b.reaching line).plain := by
  have hends : b.plain.endsBefore line = b.endsBefore line := by
    rw [endsBefore, endsBefore, pending_plain, List.getLast?_map]
    cases b.pending.getLast? with
    | none => rfl
    | some last => simp only [Option.map_some, Option.any_some, Comment.lastLine_plain]
  rw [reaching, reaching, hends]
  split <;> rfl

theorem push_plain (b : PendingDoc) (c : Comment) : b.plain.push c.plain = (b.push c).plain := by
  rw [push, push, show c.plain.line = c.line from rfl, reaching_plain, pending_plain]
  simp [plain]

end PendingDoc

namespace Ruleset

variable (r : Ruleset)

/-- Items do not tell the carriage returns in tags and comments, and neither do the subjects and
contexts of diagnostics. -/
theorem itemsFrom_plain (b : PendingDoc) (nodes : List Node) :
    (r.itemsFrom b.plain (nodes.map Node.plain)).1 = (r.itemsFrom b nodes).1 ∧
      (r.itemsFrom b.plain (nodes.map Node.plain)).2.map Diagnostic.about =
        (r.itemsFrom b nodes).2.map Diagnostic.about := by
  induction nodes generalizing b with
  | nil => exact ⟨rfl, rfl⟩
  | cons node nodes ih =>
      cases node with
      | comment c =>
          rw [List.map_cons, Node.plain, itemsFrom, PendingDoc.push_plain]
          exact ih _
      | decl d =>
          have hline : d.plain.line = d.line := by cases d <;> rfl
          have hcomments : ∀ comments : List Comment,
              d.plain.withComments (comments.map Comment.plain) =
                (d.withComments comments).plain := by
            intro comments
            cases d <;> rfl
          obtain ⟨hitem, habout⟩ := r.item_plain (d.withComments (b.reaching d.line).pending)
          obtain ⟨hitems, habouts⟩ := ih .idle
          simp only [List.map_cons, Node.plain, itemsFrom, PendingDoc.takeFor, PendingDoc.take,
            hline, PendingDoc.reaching_plain, PendingDoc.pending_plain, hcomments, List.map_append]
          exact ⟨congrArg₂ (fun text texts => Option.toList text ++ texts) hitem hitems,
            congrArg₂ (· ++ ·) habout habouts⟩
      | other what => exact ih .idle

end Ruleset

/-- Where a line break follows on every carriage return, the same is read without them. -/
theorem Node.ofSource_withoutReturns {source : String} {nodes : List Node}
    (h : Node.ofSource source = .ok nodes) (hsource : ReturnsEndLines source.toList) :
    Node.ofSource (String.ofList (withoutReturns source.toList)) = .ok (nodes.map Node.plain) := by
  obtain ⟨s, hs, hread⟩ := bind_eq_ok.mp h
  obtain ⟨plain, hplain, htokens⟩ := Scanned.ofSource_withoutReturns hs hsource
  have hnumbered : ∀ t ∈ s.tokens.map Token.plain, 0 < t.line := by
    intro t ht
    obtain ⟨u, hu, rfl⟩ := List.mem_map.mp ht
    exact (Scanned.within_ofSource hs u hu).first
  have hall := Node.readsAll_relocates (Node.readsAll_plain (Node.readAll_eq_ok.mp hread)) htokens
    hnumbered (.inl rfl) .nil
  rw [Node.down_zero, List.map_id, List.append_nil] at hall
  exact bind_eq_ok.mpr ⟨plain, hplain, Node.readAll_eq_ok.mpr hall⟩

namespace Ruleset

/-- If a source text is translated with a carriage return before every line break, it is translated
without them to the same text, with diagnostics that are about the same in the same order. -/
theorem outputOfSource_of_withReturns (r : Ruleset) {source text : String}
    {diagnostics : List Diagnostic} (hsource : '\r' ∉ source.toList)
    (h : r.outputOfSource (String.ofList (withReturns source.toList)) = .ok (text, diagnostics)) :
    ∃ others, r.outputOfSource source = .ok (text, others) ∧
      others.map Diagnostic.about = diagnostics.map Diagnostic.about := by
  obtain ⟨nodes, hnodes, rfl, rfl⟩ := (outputOfSource_eq_ok r).mp h
  have hplain := Node.ofSource_withoutReturns hnodes
    (by rw [String.toList_ofList]; exact Text.returnsEndLines_withReturns hsource)
  rw [String.toList_ofList, Text.withoutReturns_withReturns hsource, String.ofList_toList] at hplain
  obtain ⟨hitems, habout⟩ := r.itemsFrom_plain .idle nodes
  refine ⟨_, (outputOfSource_eq_ok r).mpr ⟨_, hplain, ?_, rfl⟩, habout⟩
  rw [items, items, ← hitems]
  rfl

set_option maxRecDepth 8192 in
/-- A doc comment and a tag that span lines, and a field that is left out. -/
theorem outputOfSource_of_withReturns_record :
    ∃ others, current.outputOfSource
      "/* a\n b */\ntype R struct \x7b\nA int `json:\"x\"\n`\nB chan int\x7d" =
        .ok ("/// a\n/// b\n" ++ structDerives ++ "\npub struct R \x7b\n" ++
          "    #[serde(default, rename = \"x\")]\n    pub a: i32,\n\x7d\n\n", others) ∧
      others.map Diagnostic.about = [(.field, "R.B")] :=
  @outputOfSource_of_withReturns current _ _ [⟨.field, "R.B", .unsupportedType "chan"⟩] (by decide)
    ((outputOfSource_eq_ok _).mpr ⟨_, by cbv, by decide +kernel, by decide +kernel⟩)

end Ruleset

end DeclBridge
