import Mathlib
import DeclBridge.Proofs.Grammar.Joining
import DeclBridge.Proofs.PendingDoc

/-!
The output for two source texts with an empty line between them. No comment of the first one reaches
a declaration of the second one, so that the outputs for both follow one another.
-/

namespace DeclBridge

open Cursor

namespace Node

/-- The comment or declaration is not above line `first`. -/
def StartsFrom (first : Nat) : Node → Prop
  | .comment c => first ≤ c.line
  | .decl d => first ≤ d.line
  | .other _ => True

theorem startsFrom_down {k : Nat} {node : Node} (h : node.StartsFrom 1) :
    (node.down k).StartsFrom (k + 1) := by
  rcases node with c | (r | a) | what
  · exact Nat.add_comm 1 k ▸ Nat.add_le_add_right h k
  · exact Nat.add_comm 1 k ▸ Nat.add_le_add_right h k
  · exact Nat.add_comm 1 k ▸ Nat.add_le_add_right h k
  · exact trivial

end Node

namespace Decl

variable {first : Nat} {ts : List Token} {c : Cursor}

theorem line_of_readsBody {name : String} {line : Nat} {d : Decl}
    (h : ReadsBody name line ts d c) : d.line = line := by
  cases h <;> rfl

theorem line_withTrailing (trailing : Option Comment) (d : Decl) :
    (d.withTrailing trailing).line = d.line := by
  cases d <;> rfl

theorem startsFrom_of_readsSpec {line : Nat} {node : Node} (h : ReadsSpec line ts node c)
    (hline : first ≤ line) : node.StartsFrom first := by
  cases h with
  | generic => exact trivial
  | decl _ _ hb _ =>
      rw [Node.StartsFrom, line_withTrailing, line_of_readsBody hb]
      exact hline

theorem startsFrom_of_readsGroup {line : Option Nat} {nodes : List Node}
    (h : ReadsGroup line ts nodes c) (hline : ∀ l ∈ line, first ≤ l)
    (hts : ∀ t ∈ ts, first ≤ t.line) : ∀ node ∈ nodes, node.StartsFrom first := by
  induction h with
  | semicolon _ _ ih => exact ih hline (fun t ht => hts t (List.mem_cons_of_mem _ ht))
  | comment _ _ ih =>
      intro node hnode
      rcases List.mem_cons.mp hnode with rfl | hnode
      · exact hts _ (by simp)
      · exact ih (by simp) (fun t ht => hts t (List.mem_cons_of_mem _ ht)) node hnode
  | close => simp
  | @spec line t ts _ _ c _ hs _ ih =>
      intro node hnode
      rcases List.mem_cons.mp hnode with rfl | hnode
      · refine startsFrom_of_readsSpec hs ?_
        cases line with
        | none => exact hts t (by simp)
        | some line => exact hline line rfl
      · exact ih (by simp) (fun t ht => hts t ((suffix_of_readsSpec hs).subset ht)) node hnode

theorem startsFrom_of_reads {line : Nat} {nodes : List Node} (h : Reads line ts nodes c)
    (hline : first ≤ line) (hts : ∀ t ∈ ts, first ≤ t.line) :
    ∀ node ∈ nodes, node.StartsFrom first := by
  cases h with
  | group _ hg =>
      refine startsFrom_of_readsGroup hg ?_ (fun t ht => hts t (List.mem_cons_of_mem _ ht))
      rintro _ ⟨⟩
      exact hline
  | single hs =>
      intro node hnode
      cases List.mem_singleton.mp hnode
      exact startsFrom_of_readsSpec hs hline

theorem comment_of_readsGroup {line : Option Nat} {nodes : List Node} {comment : Comment}
    (h : ReadsGroup line ts nodes c) (hc : .comment comment ∈ nodes) :
    ∃ t ∈ ts, t.kind = .comment comment.text ∧ t.line = comment.line := by
  induction h with
  | semicolon _ _ ih =>
      obtain ⟨t, ht, hkind⟩ := ih hc
      exact ⟨t, List.mem_cons_of_mem _ ht, hkind⟩
  | comment ht _ ih =>
      rcases List.mem_cons.mp hc with hc | hc
      · cases hc
        exact ⟨_, List.mem_cons_self, ht, rfl⟩
      · obtain ⟨t, ht, hkind⟩ := ih hc
        exact ⟨t, List.mem_cons_of_mem _ ht, hkind⟩
  | close => simp at hc
  | spec hs _ ih =>
      rcases List.mem_cons.mp hc with rfl | hc
      · cases hs
      · obtain ⟨t, ht, hkind⟩ := ih hc
        exact ⟨t, (suffix_of_readsSpec hs).subset ht, hkind⟩

theorem comment_of_reads {line : Nat} {nodes : List Node} {comment : Comment}
    (h : Reads line ts nodes c) (hc : .comment comment ∈ nodes) :
    ∃ t ∈ ts, t.kind = .comment comment.text ∧ t.line = comment.line := by
  cases h with
  | group _ hg =>
      obtain ⟨t, ht, hkind⟩ := comment_of_readsGroup hg hc
      exact ⟨t, List.mem_cons_of_mem _ ht, hkind⟩
  | single hs =>
      cases List.mem_singleton.mp hc
      cases hs

end Decl

namespace Node

theorem startsFrom_of_readsAll {first : Nat} {ts : List Token} {nodes : List Node}
    (h : ReadsAll ts nodes) (hts : ∀ t ∈ ts, first ≤ t.line) :
    ∀ node ∈ nodes, node.StartsFrom first := by
  induction h with
  | nil => simp
  | semicolon _ _ ih => exact ih (fun t ht => hts t (List.mem_cons_of_mem _ ht))
  | comment _ _ ih =>
      intro node hnode
      rcases List.mem_cons.mp hnode with rfl | hnode
      · exact hts _ (by simp)
      · exact ih (fun t ht => hts t (List.mem_cons_of_mem _ ht)) node hnode
  | package _ _ _ ih =>
      intro node hnode
      rcases List.mem_cons.mp hnode with rfl | hnode
      · exact trivial
      · exact ih (fun t ht => hts t (by simp [ht])) node hnode
  | type _ hd _ ih =>
      intro node hnode
      rcases List.mem_append.mp hnode with hnode | hnode
      · exact Decl.startsFrom_of_reads hd (hts _ (by simp))
          (fun t ht => hts t (List.mem_cons_of_mem _ ht)) node hnode
      · refine ih (fun t ht => hts t (List.mem_cons_of_mem _ ?_)) node hnode
        exact (Decl.suffix_of_reads hd).subset ht
  | skipped _ _ ih =>
      intro node hnode
      rcases List.mem_cons.mp hnode with rfl | hnode
      · exact trivial
      · refine ih (fun t ht => hts t (List.mem_cons_of_mem _ ?_)) node hnode
        exact (suffix_afterDeclaration ..).subset ht

theorem comment_of_readsAll {ts : List Token} {nodes : List Node} {c : Comment}
    (h : ReadsAll ts nodes) (hc : .comment c ∈ nodes) :
    ∃ t ∈ ts, t.kind = .comment c.text ∧ t.line = c.line := by
  induction h with
  | nil => simp at hc
  | semicolon _ _ ih =>
      obtain ⟨t, ht, hkind⟩ := ih hc
      exact ⟨t, List.mem_cons_of_mem _ ht, hkind⟩
  | comment ht _ ih =>
      rcases List.mem_cons.mp hc with hc | hc
      · cases hc
        exact ⟨_, List.mem_cons_self, ht, rfl⟩
      · obtain ⟨t, ht, hkind⟩ := ih hc
        exact ⟨t, List.mem_cons_of_mem _ ht, hkind⟩
  | package _ _ _ ih =>
      rcases List.mem_cons.mp hc with hc | hc
      · cases hc
      · obtain ⟨t, ht, hkind⟩ := ih hc
        exact ⟨t, by simp [ht], hkind⟩
  | type _ hd _ ih =>
      rcases List.mem_append.mp hc with hc | hc
      · obtain ⟨t, ht, hkind⟩ := Decl.comment_of_reads hd hc
        exact ⟨t, List.mem_cons_of_mem _ ht, hkind⟩
      · obtain ⟨t, ht, hkind⟩ := ih hc
        exact ⟨t, List.mem_cons_of_mem _ ((Decl.suffix_of_reads hd).subset ht), hkind⟩
  | skipped _ _ ih =>
      rcases List.mem_cons.mp hc with hc | hc
      · cases hc
      · obtain ⟨t, ht, hkind⟩ := ih hc
        exact ⟨t, List.mem_cons_of_mem _ ((suffix_afterDeclaration ..).subset ht), hkind⟩

end Node

theorem docLines_down (k : Nat) (comments : List Comment) (trailing : Option Comment) :
    docLines (comments.map (Comment.down k)) (trailing.map (Comment.down k)) =
      docLines comments trailing := by
  have hmap : comments.map (Comment.down k) ++ (trailing.map (Comment.down k)).toList =
      (comments ++ trailing.toList).map (Comment.down k) := by
    cases trailing <;> simp
  rw [docLines, docLines, hmap, List.flatMap_map]
  rfl

namespace Ruleset

variable (r : Ruleset)

theorem fieldOutputs_down (k : Nat) (f : Field) : r.fieldOutputs (f.down k) = r.fieldOutputs f := by
  have hdoc : docLines (f.down k).doc none = docLines f.doc none := docLines_down k f.doc none
  have hembedded : r.embeddedField (f.down k) = r.embeddedField f := by
    simp only [embeddedField, hdoc]
    rfl
  simp only [fieldOutputs, hdoc, hembedded]
  rfl

theorem fieldLines_down (k : Nat) (record : String) (fields : List Field) :
    r.fieldLines record (fields.map (Field.down k)) = r.fieldLines record fields := by
  induction fields with
  | nil => rfl
  | cons f fields ih =>
      simp only [List.map_cons, fieldLines, ih, fieldOutputs_down]
      rfl

theorem item_down (k : Nat) (d : Decl) : r.item (d.down k) = r.item d := by
  rcases d with record | a
  · simp only [item, Decl.down, structItem, fieldLines_down, docLines_down]
  · simp only [item, Decl.down, aliasItem, docLines_down]

end Ruleset

namespace PendingDoc

/-- The waiting comments `k` lines below. -/
def down (k : Nat) : PendingDoc → PendingDoc
  | idle => idle
  | collecting pending => collecting (pending.map (Comment.down k))

theorem pending_down (k : Nat) (b : PendingDoc) :
    (b.down k).pending = b.pending.map (Comment.down k) := by
  cases b <;> rfl

theorem lastLine_down (k : Nat) (c : Comment) : (c.down k).lastLine = c.lastLine + k :=
  Nat.add_right_comm c.line k _

theorem reaching_down (k line : Nat) (b : PendingDoc) :
    (b.down k).reaching (line + k) = (b.reaching line).down k := by
  have hends : (b.down k).endsBefore (line + k) = b.endsBefore line := by
    rw [endsBefore, endsBefore, pending_down, List.getLast?_map]
    cases b.pending.getLast? with
    | none => rfl
    | some last =>
        simp only [Option.map_some, Option.any_some, lastLine_down, decide_eq_decide]
        omega
  rw [reaching, reaching, hends]
  split <;> rfl

theorem push_down (k : Nat) (b : PendingDoc) (c : Comment) :
    (b.down k).push (c.down k) = (b.push c).down k := by
  rw [push, push, show (c.down k).line = c.line + k from rfl, reaching_down, pending_down]
  simp [down]

theorem pending_reaching_eq_nil {b : PendingDoc} {line : Nat}
    (h : ∀ c ∈ b.pending, c.lastLine + 1 < line) : (b.reaching line).pending = [] := by
  rw [reaching]
  split
  · rfl
  · rename_i hends
    cases hlast : b.pending.getLast? with
    | none => exact List.getLast?_eq_none_iff.mp hlast
    | some last =>
        have hline := h last (List.mem_of_getLast? hlast)
        simp [endsBefore, hlast, hline] at hends

end PendingDoc

namespace Ruleset

variable (r : Ruleset)

theorem itemsFrom_down (k : Nat) (b : PendingDoc) (nodes : List Node) :
    r.itemsFrom (b.down k) (nodes.map (Node.down k)) = r.itemsFrom b nodes := by
  induction nodes generalizing b with
  | nil => rfl
  | cons node nodes ih =>
      cases node with
      | comment c =>
          rw [List.map_cons, Node.down, itemsFrom, PendingDoc.push_down]
          exact ih _
      | decl d =>
          have hline : (d.down k).line = d.line + k := by cases d <;> rfl
          have hcomments : ∀ comments : List Comment,
              (d.down k).withComments (comments.map (Comment.down k)) =
                (d.withComments comments).down k := by
            intro comments
            cases d <;> rfl
          simp only [List.map_cons, Node.down, itemsFrom, PendingDoc.takeFor, PendingDoc.take,
            hline, PendingDoc.reaching_down, PendingDoc.pending_down, hcomments, item_down]
          rw [← ih .idle]
          rfl
      | other what => exact ih .idle

/-- Comments far above the nodes reach none of them. -/
theorem itemsFrom_of_startsFrom {first : Nat} {b : PendingDoc} {nodes : List Node}
    (hb : ∀ c ∈ b.pending, c.lastLine + 1 < first) (hnodes : ∀ node ∈ nodes, node.StartsFrom first) :
    r.itemsFrom b nodes = r.itemsFrom .idle nodes := by
  cases nodes with
  | nil => rfl
  | cons node nodes =>
      have hnode := hnodes node (by simp)
      have hfar : ∀ line, first ≤ line → (b.reaching line).pending = [] :=
        fun line hline => PendingDoc.pending_reaching_eq_nil
          (fun c hc => Nat.lt_of_lt_of_le (hb c hc) hline)
      cases node with
      | comment c =>
          rw [itemsFrom, itemsFrom, PendingDoc.push, hfar c.line hnode]
          rfl
      | decl d =>
          simp only [itemsFrom, PendingDoc.takeFor, PendingDoc.take, hfar d.line hnode]
          rfl
      | other what => rfl

theorem outputOfSource_eq_ok {source text : String} {diagnostics : List Diagnostic} :
    r.outputOfSource source = .ok (text, diagnostics) ↔
      ∃ nodes, Node.ofSource source = .ok nodes ∧ text = unlines (r.items nodes).1 ∧
        diagnostics = (r.items nodes).2 := by
  cases hnodes : Node.ofSource source with
  | error e => simp [outputOfSource, itemsOfSource, hnodes, bind, Except.bind, Functor.map, Except.map]
  | ok nodes =>
      simp [outputOfSource, itemsOfSource, hnodes, bind, Except.bind, Functor.map, Except.map, pure,
        Except.pure, eq_comm]

end Ruleset

theorem Comment.down_zero : Comment.down 0 = id := rfl

theorem Field.down_zero : Field.down 0 = id := by
  funext f
  simp [Field.down, Comment.down_zero]

theorem Node.down_zero : Node.down 0 = id := by
  funext node
  rcases node with c | (r | a) | what
  · rfl
  · simp [Node.down, Decl.down, Field.down_zero, Comment.down_zero]
  · simp [Node.down, Decl.down, Comment.down_zero]
  · rfl

/-- What stands at the top of two source texts with an empty line between them. -/
theorem Node.ofSource_join {source source' : String} {s : Scanned} {nodes nodes' : List Node}
    (h : Node.ofSource source = .ok nodes) (h' : Node.ofSource source' = .ok nodes')
    (hs : Scanned.ofSource source = .ok s) (hnested : Token.Nested s.tokens)
    (hsettled : Token.Settled s.tokens) :
    Node.ofSource (source ++ "\n\n" ++ source') =
      .ok (nodes ++ nodes'.map (Node.down (s.last.line + 1))) := by
  obtain ⟨_, hs₁, hread⟩ := bind_eq_ok.mp h
  cases hs.symm.trans hs₁
  obtain ⟨s', hs', hread'⟩ := bind_eq_ok.mp h'
  obtain ⟨joined, hjoined, htokens⟩ := Scanned.ofSource_join hs hs'
  have hwithin := Scanned.within_ofSource hs
  have hwithin' := Scanned.within_ofSource hs'
  -- The second text is read with nothing behind it, then the first one with the second behind it.
  have hmoved := Node.readsAll_relocates (Node.readAll_eq_ok.mp hread')
    (Token.relocates_down (s.last.line + 1) s'.tokens) (fun t ht => (hwithin' t ht).first)
    (.inl rfl) .nil
  rw [List.append_nil] at hmoved
  have hseparates : Decl.Separates 0 (s'.tokens.map (Token.down (s.last.line + 1))) [] s.tokens := by
    refine ⟨hnested, hsettled, ?_⟩
    intro t ht u hu
    obtain ⟨v, hv, rfl⟩ := List.mem_map.mp hu
    have hlast := (hwithin t ht).last
    simp only [Token.line, Token.down, Position.down] at hlast ⊢
    omega
  have hall := Node.readsAll_relocates (Node.readAll_eq_ok.mp hread) htokens
    (fun t ht => (hwithin t ht).first) (.inr hseparates) hmoved
  rw [Node.down_zero, List.map_id] at hall
  exact bind_eq_ok.mpr ⟨joined, hjoined, Node.readAll_eq_ok.mpr hall⟩

theorem Node.lastLine_of_ofSource {source : String} {s : Scanned} {nodes : List Node} {c : Comment}
    (h : Node.ofSource source = .ok nodes) (hs : Scanned.ofSource source = .ok s)
    (hc : c ∈ (PendingDoc.idle.behind nodes).pending) : c.lastLine ≤ s.last.line := by
  obtain ⟨_, hs₁, hread⟩ := bind_eq_ok.mp h
  cases hs.symm.trans hs₁
  rcases PendingDoc.mem_pending_behind hc with hc | hc
  · simp [PendingDoc.pending] at hc
  · obtain ⟨t, ht, hkind, hline⟩ := Node.comment_of_readsAll (Node.readAll_eq_ok.mp hread) hc
    have hlast := Scanned.comment_of_ofSource hs ht hkind
    rwa [hline] at hlast

theorem Node.startsFrom_of_ofSource {source : String} {nodes : List Node}
    (h : Node.ofSource source = .ok nodes) : ∀ node ∈ nodes, node.StartsFrom 1 := by
  obtain ⟨s, hs, hread⟩ := bind_eq_ok.mp h
  refine Node.startsFrom_of_readsAll (Node.readAll_eq_ok.mp hread) ?_
  exact fun t ht => (Scanned.within_ofSource hs t ht).first

namespace Ruleset

open Token (Nested Settled)

/-- Two source texts with an empty line between them are translated as each on its own, if the
brackets of the first one are properly nested and its last token that is no comment ends a
statement. -/
theorem outputOfSource_join (r : Ruleset) {source source' text text' : String}
    {diagnostics diagnostics' : List Diagnostic} {s : Scanned}
    (h : r.outputOfSource source = .ok (text, diagnostics))
    (h' : r.outputOfSource source' = .ok (text', diagnostics'))
    (hs : Scanned.ofSource source = .ok s) (hnested : Nested s.tokens)
    (hsettled : Settled s.tokens) :
    r.outputOfSource (source ++ "\n\n" ++ source') =
      .ok (text ++ text', diagnostics ++ diagnostics') := by
  obtain ⟨nodes, hnodes, rfl, rfl⟩ := (outputOfSource_eq_ok r).mp h
  obtain ⟨nodes', hnodes', rfl, rfl⟩ := (outputOfSource_eq_ok r).mp h'
  refine (outputOfSource_eq_ok r).mpr
    ⟨_, Node.ofSource_join hnodes hnodes' hs hnested hsettled, ?_⟩
  -- The empty line keeps the comments at the end of the first text off the second one.
  have hpending : ∀ c ∈ (PendingDoc.idle.behind nodes).pending,
      c.lastLine + 1 < s.last.line + 1 + 1 :=
    fun c hc => Nat.add_lt_add_right (Nat.lt_succ_of_le (Node.lastLine_of_ofSource hnodes hs hc)) 1
  have hstarts : ∀ node ∈ nodes'.map (Node.down (s.last.line + 1)),
      node.StartsFrom (s.last.line + 1 + 1) := by
    intro node hnode
    obtain ⟨above, habove, rfl⟩ := List.mem_map.mp hnode
    exact Node.startsFrom_down (Node.startsFrom_of_ofSource hnodes' above habove)
  have hdown := itemsFrom_down r (s.last.line + 1) .idle nodes'
  rw [PendingDoc.down] at hdown
  have hitems : r.items (nodes ++ nodes'.map (Node.down (s.last.line + 1))) =
      ((r.items nodes).1 ++ (r.items nodes').1, (r.items nodes).2 ++ (r.items nodes').2) := by
    rw [items, itemsFrom_append, itemsFrom_of_startsFrom r hpending hstarts, hdown]
    rfl
  rw [hitems, unlines_append]
  exact ⟨rfl, rfl⟩

set_option maxRecDepth 4096 in
/-- A comment at the end of the first text stays out of the second one. -/
theorem outputOfSource_join_aliases :
    current.outputOfSource ("type A int // a\n// c" ++ "\n\n" ++ "type B []A") =
      .ok ("/// a\npub type A = i32;\n\n" ++ "pub type B = Vec<A>;\n\n", [] ++ []) := by
  have h : current.outputOfSource "type A int // a\n// c" =
      .ok ("/// a\npub type A = i32;\n\n", []) :=
    (outputOfSource_eq_ok _).mpr ⟨_, by cbv, by decide +kernel, by decide +kernel⟩
  have h' : current.outputOfSource "type B []A" = .ok ("pub type B = Vec<A>;\n\n", []) :=
    (outputOfSource_eq_ok _).mpr ⟨_, by cbv, by decide +kernel, by decide +kernel⟩
  obtain ⟨s, hs, hnested, hsettled⟩ :
      ∃ s, Scanned.ofSource "type A int // a\n// c" = .ok s ∧ Nested s.tokens ∧ Settled s.tokens :=
    ⟨_, by cbv, by decide, by decide⟩
  exact outputOfSource_join current h h' hs hnested hsettled

end Ruleset

end DeclBridge
