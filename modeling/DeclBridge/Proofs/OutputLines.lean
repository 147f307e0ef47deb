import DeclBridge.Proofs.Render.Lines

/-!
The lines of whole outputs. No text of a source adds a line to the output or changes the form of
one.
-/

namespace DeclBridge

/-- A text made of lines is cut into these lines, and nothing is behind the last one. -/
theorem split_unlines {lines : List String} (h : ∀ line ∈ lines, IsLine line) :
    Text.split '\n' (unlines lines).toList = lines.map String.toList ++ [[]] := by
  induction lines with
  | nil => rfl
  | cons line lines ih =>
      have htext : (unlines (line :: lines)).toList =
          line.toList ++ '\n' :: (unlines lines).toList := by
        simp [unlines_cons]
      rw [htext, Text.split_append, Text.split_of_not_mem (h line (by simp)),
        ih fun other hother => h other (List.mem_cons_of_mem line hother)]
      rfl

namespace Ruleset

/-- The lines of the items of nodes, with an empty line behind each item. -/
def outputLines (r : Ruleset) (nodes : List Node) : List String :=
  (Node.documented nodes).flatMap fun d => ((r.itemLines d).map (· ++ [""])).getD []

variable {r : Ruleset} {nodes : List Node}

theorem unlines_items (r : Ruleset) (nodes : List Node) :
    unlines (r.items nodes).1 = unlines (r.outputLines nodes) := by
  have hitems : (r.items nodes).1 = (Node.documented nodes).filterMap fun d => (r.item d).1 := by
    rw [items, itemsFrom_eq]
    rfl
  rw [hitems, outputLines]
  induction Node.documented nodes with
  | nil => rfl
  | cons d ds ih =>
      rw [List.flatMap_cons, unlines_append, ← ih]
      simp only [List.filterMap_cons, item_fst]
      cases r.itemLines d with
      | none => rfl
      | some lines =>
          have hend : unlines [""] = "\n" := rfl
          simp [unlines_cons, unlines_append, hend]

theorem isOutputLine_of_mem_outputLines
    (h : ∀ d ∈ Node.documented nodes, r.RendersClean d) :
    ∀ line ∈ r.outputLines nodes, IsLine line ∧ IsOutputLine line := by
  intro line hline
  obtain ⟨d, hd, hmem⟩ := List.mem_flatMap.mp hline
  cases hlines : r.itemLines d with
  | none => simp [hlines] at hmem
  | some lines =>
      rw [hlines] at hmem
      rcases List.mem_append.mp hmem with hmem | hmem
      · exact isOutputLine_of_mem_itemLines (h d hd) hlines line hmem
      · rw [List.mem_singleton.mp hmem]
        exact ⟨by decide, .empty⟩

/-- Under a preset the lines of an output are those that its declarations are rendered to, and each
has one of a few forms. What stands in them is made of texts that hold no line break. -/
theorem outputOfSource_lines (p : Preset) {source text : String} {diagnostics : List Diagnostic}
    (h : (ofPreset p).outputOfSource source = .ok (text, diagnostics)) :
    (∀ line ∈ Text.split '\n' text.toList, IsOutputLine (String.ofList line)) ∧
    ∃ nodes, Node.ofSource source = .ok nodes ∧
      Text.split '\n' text.toList = ((ofPreset p).outputLines nodes).map String.toList ++ [[]] ∧
      ∀ d ∈ Node.documented nodes, (ofPreset p).RendersClean d := by
  rw [outputOfSource_eq] at h
  cases hnodes : Node.ofSource source with
  | error e =>
      rw [hnodes] at h
      cases h
  | ok nodes =>
      rw [hnodes] at h
      obtain ⟨rfl, -⟩ := Prod.mk.inj (Except.ok.inj h)
      have hclean : ∀ d ∈ Node.documented nodes, (ofPreset p).RendersClean d := by
        intro d hd
        obtain ⟨hdecl, hcomments⟩ :=
          Node.staysOnLine_documented (Node.staysOnLine_of_ofSource hnodes) hd
        exact rendersClean_of_staysOnLine (staysOnLine_ofPreset p) hdecl hcomments
      have hlines := isOutputLine_of_mem_outputLines hclean
      have hsplit := split_unlines fun line hline => (hlines line hline).1
      rw [← unlines_items] at hsplit
      refine ⟨?_, nodes, rfl, hsplit, hclean⟩
      intro line hline
      rw [hsplit] at hline
      rcases List.mem_append.mp hline with hmem | hmem
      · obtain ⟨other, hother, rfl⟩ := List.mem_map.mp hmem
        rw [String.ofList_toList]
        exact (hlines other hother).2
      · rw [List.mem_singleton.mp hmem]
        exact .empty

/-- A comment and a tag that look like the end of a struct and an alias. -/
theorem outputOfSource_lines_disguised :
    ∃ text, text = "/// \x7d\n/// pub type B = u8;\n" ++ structDerives ++ "\npub struct T \x7b\n" ++
        "    #[serde(default, rename = \"a\\n\x7d\")]\n    pub a: i32,\n\x7d\n\n" ∧
      (ofPreset .legacy).outputOfSource ("/* \x7d\npub type B = u8;\n*/\ntype T struct \x7b\n" ++
        "A int `json:\"a\\n\x7d\"`\n\x7d\n") = .ok (text, []) ∧
      ∀ line ∈ Text.split '\n' text.toList, IsOutputLine (String.ofList line) := by
  refine ⟨_, rfl, ?_⟩
  refine (and_iff_left_of_imp fun h => (outputOfSource_lines .legacy h).1).mpr ?_
  exact eq_ok_of_toOption (by decide +kernel)

end Ruleset

end DeclBridge
