import Mathlib.Data.List.Chain
import DeclBridge.Proofs.Accounting
import DeclBridge.Proofs.PendingDoc

/-!
Which comments a declaration takes: those of the longest block of comments that ends right in front
of it. What stands before the block, and what becomes of other declarations, does not count.
-/

namespace DeclBridge

namespace Decl

def comments : Decl → List Comment
  | .record r => r.comments
  | .alias a => a.comments

theorem comments_withComments (comments : List Comment) (d : Decl) :
    (d.withComments comments).comments = comments := by
  cases d <;> rfl

end Decl

namespace Comment

/-- No blank line lies between the end of the comment and a line. -/
def Reaches (c : Comment) (line : Nat) : Prop :=
  line ≤ c.lastLine + 1

/-- No blank line lies between a comment and the next. -/
def Adjacent (comments : List Comment) : Prop :=
  comments.IsChain fun c next => c.Reaches next.line

/-- The block at the end of a run of comments: the longest one without a blank line in it. -/
structure IsBlock (run block : List Comment) : Prop where
  suffix : block <:+ run
  adjacent : Adjacent block
  longest : ∀ other, other <:+ run → Adjacent other → other.length ≤ block.length

variable {run block block' other : List Comment} {c : Comment}

theorem adjacent_append_singleton :
    Adjacent (other ++ [c]) ↔ Adjacent other ∧ ∀ last ∈ other.getLast?, last.Reaches c.line := by
  simp [Adjacent, List.isChain_append]

theorem isBlock_nil : IsBlock [] [] :=
  ⟨List.suffix_rfl, List.isChain_nil, fun _ hother _ => hother.length_le⟩

theorem IsBlock.unique (h : IsBlock run block) (h' : IsBlock run block') : block = block' := by
  have hlength : block.length = block'.length :=
    Nat.le_antisymm (h'.longest block h.suffix h.adjacent) (h.longest block' h'.suffix h'.adjacent)
  exact (List.suffix_of_suffix_length_le h.suffix h'.suffix (Nat.le_of_eq hlength)).eq_of_length
    hlength

theorem IsBlock.getLast? (h : IsBlock run block) (hother : other <:+ run)
    (hadjacent : Adjacent other) (hne : other ≠ []) : block.getLast? = other.getLast? := by
  obtain ⟨before, rfl⟩ :=
    List.suffix_of_suffix_length_le hother h.suffix (h.longest other hother hadjacent)
  exact List.getLast?_append_of_ne_nil before hne

end Comment

namespace PendingDoc

open Comment (Reaches Adjacent IsBlock adjacent_append_singleton)

variable {b : PendingDoc} {run : List Comment} {c : Comment} {line : Nat}

theorem endsBefore_eq_false_iff :
    b.endsBefore line = false ↔ ∀ last ∈ b.pending.getLast?, last.Reaches line := by
  rw [endsBefore]
  cases b.pending.getLast? <;> simp [Reaches]

theorem pending_reaching_of_reaches (h : ∀ last ∈ b.pending.getLast?, last.Reaches line) :
    (b.reaching line).pending = b.pending := by
  rw [reaching, endsBefore_eq_false_iff.mpr h]
  rfl

theorem pending_reaching_of_not_reaches (h : ¬ ∀ last ∈ b.pending.getLast?, last.Reaches line) :
    (b.reaching line).pending = [] := by
  rw [← endsBefore_eq_false_iff, Bool.not_eq_false] at h
  rw [reaching, h]
  rfl

/-- One more comment of a run lengthens the block that waits, or begins a block of its own. -/
theorem isBlock_push (h : IsBlock run b.pending) : IsBlock (run ++ [c]) (b.push c).pending := by
  rw [push, pending]
  by_cases hreaches : ∀ last ∈ b.pending.getLast?, last.Reaches c.line
  · rw [pending_reaching_of_reaches hreaches]
    refine ⟨List.suffix_append_self_iff.mpr h.suffix,
      adjacent_append_singleton.mpr ⟨h.adjacent, hreaches⟩, ?_⟩
    intro other hother hadjacent
    rcases List.suffix_concat_iff.mp hother with rfl | ⟨before, rfl, hbefore⟩
    · exact Nat.zero_le _
    · have hle := h.longest before hbefore (adjacent_append_singleton.mp hadjacent).1
      simpa using hle
  · rw [pending_reaching_of_not_reaches hreaches]
    refine ⟨List.suffix_append run [c], List.isChain_singleton c, ?_⟩
    intro other hother hadjacent
    rcases List.suffix_concat_iff.mp hother with rfl | ⟨before, rfl, hbefore⟩
    · exact Nat.zero_le _
    · -- A comment before this one would be the last of the block, which does not reach it.
      obtain ⟨hadjacent, hlast⟩ := adjacent_append_singleton.mp hadjacent
      by_cases hne : before = []
      · rw [hne]
      · rw [h.getLast? hbefore hadjacent hne] at hreaches
        exact absurd hlast hreaches

end PendingDoc

namespace Node

open Comment (Reaches IsBlock)

def comment? : Node → Option Comment
  | .comment c => some c
  | _ => none

/-- The comments behind the last of the nodes that is none. -/
def IsRun (nodes : List Node) (run : List Comment) : Prop :=
  ∃ front, nodes = front ++ run.map .comment ∧ ∀ c, front.getLast? ≠ some (.comment c)

/-- The comments that lead what stands on a line behind nodes: the block of the comments directly
in front of it if the block reaches the line, and none otherwise. -/
def Leads (nodes : List Node) (line : Nat) (comments : List Comment) : Prop :=
  ∃ run block, IsRun nodes run ∧ IsBlock run block ∧
    ((∀ last ∈ block.getLast?, last.Reaches line) ∧ comments = block ∨
      (∃ last ∈ block.getLast?, ¬ last.Reaches line) ∧ comments = [])

variable {nodes : List Node} {run run' comments comments' : List Comment} {line : Nat}

theorem eq_of_run_eq_append {front left : List Node} (h : run.map Node.comment = left ++ nodes)
    (hfront : ∀ c, (front ++ left).getLast? ≠ some (.comment c)) :
    run.map Node.comment = nodes := by
  by_cases hleft : left = []
  · rw [h, hleft, List.nil_append]
  · have hlast := List.getLast_mem hleft
    have hmem : left.getLast hleft ∈ run.map Node.comment := h ▸ List.mem_append_left nodes hlast
    obtain ⟨c, -, hc⟩ := List.mem_map.mp hmem
    refine absurd ?_ (hfront c)
    rw [List.getLast?_append_of_ne_nil front hleft, List.getLast?_eq_getLast_of_ne_nil hleft, hc]

theorem IsRun.unique (h : IsRun nodes run) (h' : IsRun nodes run') : run = run' := by
  obtain ⟨front, rfl, hfront⟩ := h
  obtain ⟨front', heq, hfront'⟩ := h'
  have hinjective : Function.Injective Node.comment := fun _ _ hc => Node.comment.inj hc
  apply hinjective.list_map
  rcases List.append_eq_append_iff.mp heq with ⟨left, rfl, hrun⟩ | ⟨left, rfl, hrun⟩
  · exact eq_of_run_eq_append hrun hfront'
  · exact (eq_of_run_eq_append hrun hfront).symm

theorem Leads.unique (h : Leads nodes line comments) (h' : Leads nodes line comments') :
    comments = comments' := by
  obtain ⟨run, block, hrun, hblock, hcomments⟩ := h
  obtain ⟨run', block', hrun', hblock', hcomments'⟩ := h'
  obtain rfl := hrun.unique hrun'
  obtain rfl := hblock.unique hblock'
  rcases hcomments with ⟨hreaches, rfl⟩ | ⟨⟨last, hlast, hnot⟩, rfl⟩ <;>
    rcases hcomments' with ⟨hreaches', rfl⟩ | ⟨⟨last', hlast', hnot'⟩, rfl⟩
  · rfl
  · exact absurd (hreaches last' hlast') hnot'
  · exact absurd (hreaches' last hlast) hnot
  · rfl

/-- The comments of the declarations are some of those that wait and of those among the nodes, each
in its place. -/
theorem comments_documentedFrom (b : PendingDoc) (nodes : List Node) :
    ((documentedFrom b nodes).flatMap Decl.comments).Sublist
      (b.pending ++ nodes.filterMap comment?) := by
  have hreaching : ∀ (b : PendingDoc) line, (b.reaching line).pending.Sublist b.pending := by
    intro b line
    rw [PendingDoc.reaching]
    split
    · exact List.nil_sublist _
    · exact List.Sublist.refl _
  induction b, nodes using documentedFrom.induct with
  | case1 => exact List.nil_sublist _
  | case2 b c nodes ih =>
      refine ih.trans ?_
      rw [PendingDoc.push, PendingDoc.pending, List.append_assoc]
      exact (hreaching b c.line).append (List.Sublist.refl _)
  | case3 b d nodes ih =>
      rw [documentedFrom, List.flatMap_cons, Decl.comments_withComments]
      exact (hreaching b d.line).append ih
  | case4 b what nodes ih => exact ih.trans (List.sublist_append_right _ _)

end Node

namespace Ruleset

variable {r : Ruleset}

theorem itemsFrom_eq (b : PendingDoc) (nodes : List Node) :
    r.itemsFrom b nodes =
      ((Node.documentedFrom b nodes).filterMap fun d => (r.item d).1,
        (Node.documentedFrom b nodes).flatMap fun d => (r.item d).2) := by
  induction b, nodes using Node.documentedFrom.induct with
  | case1 => rfl
  | case2 b c nodes ih => exact ih
  | case3 b d nodes ih =>
      simp only [itemsFrom, Node.documentedFrom, ih, List.filterMap_cons, List.flatMap_cons]
      cases (r.item (d.withComments (b.takeFor d.line).1)).1 <;> rfl
  | case4 b what nodes ih => exact ih

/-- A comment of two lines reaches the next one, and a blank line keeps the first one off. -/
example : (Node.documented [.comment ⟨"// a", 1⟩, .comment ⟨"/* b\n*/", 3⟩, .comment ⟨"// c", 5⟩,
    .decl (.alias ⟨"T", 6, .named "int", [⟨"// d", 9⟩], none⟩)]).map Decl.comments =
      [[⟨"/* b\n*/", 3⟩, ⟨"// c", 5⟩]] := by
  decide

end Ruleset

end DeclBridge
