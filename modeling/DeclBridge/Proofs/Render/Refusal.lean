import DeclBridge.Proofs.OutputLines
import DeclBridge.Proofs.Scan.Tokens

/-!
Outputs are no source texts. What stands behind the doc lines of an item is an attribute, with which
no token begins, or a word that begins no declaration.
-/

namespace DeclBridge

open Mark (Scans isBlank)
open Token (extent endStatements)

/-- The beginnings of what is no doc line: the first line of an item, or a `use` line. -/
def itemHeads : List String :=
  ["pub ", "#[", "use "]

/-- Whether a text begins with doc lines and then with the first other line of an item, or like a
prelude. -/
def BeginsItem (text : String) : Prop :=
  ∃ docs head rest, (∀ line ∈ docs, IsDocLine line) ∧ head ∈ itemHeads ∧
    text = unlines docs ++ head ++ rest

theorem BeginsItem.append {text : String} (h : BeginsItem text) (more : String) :
    BeginsItem (text ++ more) := by
  obtain ⟨docs, head, rest, hdocs, hhead, rfl⟩ := h
  exact ⟨docs, head, rest ++ more, hdocs, hhead, by simp only [String.append_assoc]⟩

theorem beginsItem_unlines {docs lines : List String} {line head rest : String}
    (hdocs : ∀ line ∈ docs, IsDocLine line) (hhead : head ∈ itemHeads)
    (hline : line = head ++ rest) : BeginsItem (unlines (docs ++ line :: lines)) := by
  refine ⟨docs, head, rest ++ "\n" ++ unlines lines, hdocs, hhead, ?_⟩
  rw [unlines_append, unlines_cons, hline]
  simp only [String.append_assoc]

section Reading

variable {p q last : Position} {marks : List Mark} {nodes : List Node} {cs : List Char}

theorem not_readsAll_of_word {c : Char} {n : Nat} {name : String}
    (hc : Token.Reach.isSpace c = false) (hn : extent c cs = .ok (.word, n))
    (hname : Token.Shape.kind .word (c :: cs.take n) = .identifier name)
    (h : Scans p (c :: cs) marks q []) : ¬ Node.ReadsAll (endStatements last none marks) nodes := by
  cases h with
  | blank hblank => simp [Token.Reach.isSpace, hblank] at hc
  | lineBreak => cases hc
  | token _ hn' hmore =>
      obtain ⟨rfl, rfl⟩ := Prod.mk.inj (Except.ok.inj (hn.symm.trans hn'))
      have hkind : (Mark.tokenAt p .word (c :: cs.take n)).kind = .identifier name := hname
      rw [Token.endStatements_token (by rw [hkind]; rfl)]
      rw [Option.getD_none, List.nil_append]
      generalize endStatements last _ _ = ts
      intro hnodes
      cases hnodes <;> simp_all [Node.beginsSkipped]

theorem not_readsAll_of_head {head rest : String} (hhead : head ∈ itemHeads)
    (h : Scans p (head ++ rest).toList marks q []) :
    ¬ Node.ReadsAll (endStatements last none marks) nodes := by
  rw [String.toList_append] at h
  simp only [itemHeads, List.mem_cons, List.not_mem_nil, or_false] at hhead
  rcases hhead with rfl | rfl | rfl
  · have hword : "pub ".toList = ['p', 'u', 'b', ' '] := by decide
    rw [hword] at h
    have hkind : Token.Shape.kind .word ['p', 'u', 'b'] = .identifier "pub" := by decide
    exact not_readsAll_of_word (by decide) rfl hkind h
  · have hattr : "#[".toList = ['#', '['] := by decide
    rw [hattr] at h
    cases h with
    | blank hblank => cases hblank
    | token _ hn => cases hn
  · have hword : "use ".toList = ['u', 's', 'e', ' '] := by decide
    rw [hword] at h
    have hkind : Token.Shape.kind .word ['u', 's', 'e'] = .identifier "use" := by decide
    exact not_readsAll_of_word (by decide) rfl hkind h

theorem lineComment_line {ds : List Char} (hds : '\n' ∉ ds) (n : Nat) (cs : List Char) :
    Token.Reach.lineComment n (ds ++ '\n' :: cs) = n + ds.length := by
  rw [Token.Reach.lineComment, Token.Reach.whileTrue_eq, List.takeWhile_append_of_pos]
  · simp
  · intro d hd
    exact bne_iff_ne.mpr fun h => hds (h ▸ hd)

theorem endStatements_of_isComment {t : Token} (ht : t.kind.isComment = true) (last : Position)
    (marks : List Mark) :
    endStatements last none (.token t :: marks) = t :: endStatements last none marks := by
  rw [endStatements, if_pos ht]

theorem readsAll_of_isComment {t : Token} {ts : List Token} (ht : t.kind.isComment = true)
    (h : Node.ReadsAll (t :: ts) nodes) : ∃ more, Node.ReadsAll ts more := by
  cases h with
  | comment _ h => exact ⟨_, h⟩
  | skipped hkind =>
      rcases Node.beginsSkipped_iff.mp hkind with hkind | hkind | hkind | hkind <;>
        simp [hkind, Token.Kind.isComment] at ht
  | semicolon hkind => simp [hkind, Token.Kind.isComment] at ht
  | package hkind => simp [hkind, Token.Kind.isComment] at ht
  | type hkind => simp [hkind, Token.Kind.isComment] at ht

/-- A doc line is a comment, and what stands on the lines below is read as if it were alone. -/
theorem readsAll_of_docLine {line : String} (hline : IsDocLine line)
    (h : Scans p (line.toList ++ '\n' :: cs) marks q [])
    (hnodes : Node.ReadsAll (endStatements last none marks) nodes) :
    ∃ p' marks' nodes', Scans p' cs marks' q [] ∧
      Node.ReadsAll (endStatements last none marks') nodes' := by
  obtain ⟨hline, text, rfl⟩ := hline
  have hslashes : "///".toList = ['/', '/', '/'] := by decide
  rw [IsLine, String.toList_append, hslashes, List.mem_append, not_or] at hline
  rw [String.toList_append, hslashes] at h
  have hreach := lineComment_line (show '\n' ∉ '/' :: text.toList by simpa using hline.2) 1 cs
  change Scans p ('/' :: '/' :: ('/' :: text.toList ++ '\n' :: cs)) marks q [] at h
  cases h with
  | blank hblank => cases hblank
  | token _ hn hmore =>
      obtain ⟨rfl, rfl⟩ := Prod.mk.inj (Except.ok.inj hn)
      rw [hreach, Nat.add_comm, List.drop_succ_cons, List.drop_left] at hmore
      cases hmore with
      | blank hblank => cases hblank
      | token hspace => cases hspace
      | lineBreak hmore =>
          rw [endStatements_of_isComment rfl, endStatements] at hnodes
          obtain ⟨more, hnodes⟩ := readsAll_of_isComment rfl hnodes
          exact ⟨_, _, more, hmore, hnodes⟩

end Reading

theorem BeginsItem.ofSource_ne_ok {text : String} (h : BeginsItem text) (nodes : List Node) :
    Node.ofSource text ≠ .ok nodes := by
  obtain ⟨docs, head, rest, hdocs, hhead, rfl⟩ := h
  intro h
  obtain ⟨s, hs, hnodes⟩ := bind_eq_ok.mp h
  obtain ⟨marks, hmarks, htokens⟩ := Scanned.ofSource_eq_ok.mp hs
  have hreads := Node.readAll_eq_ok.mp hnodes
  rw [htokens] at hreads
  clear htokens hs hnodes h
  generalize Position.start = p at hmarks
  induction docs generalizing p marks nodes with
  | nil => exact not_readsAll_of_head hhead (by simpa [unlines] using hmarks) hreads
  | cons line docs ih =>
      have htext : (unlines (line :: docs) ++ head ++ rest).toList =
          line.toList ++ '\n' :: (unlines docs ++ head ++ rest).toList := by
        simp [unlines_cons]
      rw [htext] at hmarks
      obtain ⟨p', marks', nodes', hmarks', hreads'⟩ :=
        readsAll_of_docLine (hdocs line (by simp)) hmarks hreads
      exact ih nodes' (fun other hother => hdocs other (List.mem_cons_of_mem _ hother)) marks'
        hreads' p' hmarks'

namespace Ruleset

variable {r : Ruleset}

theorem beginsItem_of_item {d : Decl} (hd : d.StaysOnLine)
    (hcomments : ∀ c ∈ d.comments, c.StaysOnLine) {text : String} (h : (r.item d).1 = some text) :
    BeginsItem text := by
  rw [item_fst, Option.map_eq_some_iff] at h
  obtain ⟨lines, hlines, rfl⟩ := h
  cases d with
  | record record =>
      cases hlines
      have hderives : structDerives = "#[" ++
        "derive(Debug, Clone, PartialEq, Default, serde::Serialize, serde::Deserialize)]" := rfl
      rw [List.append_assoc, List.append_assoc]
      exact beginsItem_unlines (isDocLine_of_mem_docLines hcomments hd.2.2) (by simp [itemHeads])
        hderives
  | «alias» a =>
      obtain ⟨type, -, rfl⟩ := Option.map_eq_some_iff.mp hlines
      have hline : "pub type " ++ typeName a.name ++ " = " ++ type ++ ";" =
          "pub " ++ ("type " ++ typeName a.name ++ " = " ++ type ++ ";") := by
        have hhead : "pub type " = "pub " ++ "type " := rfl
        simp only [hhead, String.append_assoc]
      exact beginsItem_unlines (isDocLine_of_mem_docLines hcomments hd.2.2) (by simp [itemHeads])
        hline

/-- Every item of a source text begins as no source text does. -/
theorem beginsItem_of_mem_items {source : String} {nodes : List Node}
    (h : Node.ofSource source = .ok nodes) : ∀ text ∈ (r.items nodes).1, BeginsItem text := by
  intro text htext
  have hitems : (r.items nodes).1 = (Node.documented nodes).filterMap fun d => (r.item d).1 := by
    rw [items, itemsFrom_eq]
    rfl
  rw [hitems, List.mem_filterMap] at htext
  obtain ⟨d, hd, hitem⟩ := htext
  obtain ⟨hdecl, hcomments⟩ := Node.staysOnLine_documented (Node.staysOnLine_of_ofSource h) hd
  exact beginsItem_of_item hdecl hcomments hitem

end Ruleset

end DeclBridge
