import DeclBridge.Render.Nodes

/-!
The comments that wait behind nodes of a source text. What stands behind the nodes is documented as
if it stood behind these comments only.
-/

namespace DeclBridge

namespace PendingDoc

/-- The comments that wait behind nodes. -/
def behind (b : PendingDoc) : List Node → PendingDoc
  | [] => b
  | .comment c :: nodes => (b.push c).behind nodes
  | .decl _ :: nodes | .other _ :: nodes => idle.behind nodes

theorem mem_pending_reaching {b : PendingDoc} {line : Nat} {c : Comment}
    (h : c ∈ (b.reaching line).pending) : c ∈ b.pending := by
  rw [reaching] at h
  split at h
  · simp [pending] at h
  · exact h

theorem mem_pending_push {b : PendingDoc} {c c' : Comment} (h : c ∈ (b.push c').pending) :
    c ∈ b.pending ∨ c = c' := by
  rw [push, pending, List.mem_append, List.mem_singleton] at h
  exact h.imp_left mem_pending_reaching

theorem behind_append (b : PendingDoc) (nodes others : List Node) :
    b.behind (nodes ++ others) = (b.behind nodes).behind others := by
  induction nodes generalizing b with
  | nil => rfl
  | cons node nodes ih => cases node <;> exact ih _

/-- A comment that waits waited before the nodes or is one of them. -/
theorem mem_pending_behind {b : PendingDoc} {nodes : List Node} {c : Comment}
    (h : c ∈ (b.behind nodes).pending) : c ∈ b.pending ∨ .comment c ∈ nodes := by
  induction nodes generalizing b with
  | nil => exact .inl h
  | cons node nodes ih =>
      cases node with
      | comment c' =>
          rcases ih h with h | h
          · rcases mem_pending_push h with h | rfl
            · exact .inl h
            · exact .inr (by simp)
          · exact .inr (List.mem_cons_of_mem _ h)
      | decl d | other what =>
          rcases ih h with h | h
          · simp [pending] at h
          · exact .inr (List.mem_cons_of_mem _ h)

end PendingDoc

namespace Ruleset

variable (r : Ruleset)

theorem itemsFrom_append (b : PendingDoc) (nodes others : List Node) :
    r.itemsFrom b (nodes ++ others) =
      ((r.itemsFrom b nodes).1 ++ (r.itemsFrom (b.behind nodes) others).1,
        (r.itemsFrom b nodes).2 ++ (r.itemsFrom (b.behind nodes) others).2) := by
  induction nodes generalizing b with
  | nil => rfl
  | cons node nodes ih =>
      cases node with
      | comment c => exact ih _
      | decl d =>
          simp only [List.cons_append, itemsFrom, ih, PendingDoc.takeFor, PendingDoc.take,
            List.append_assoc]
          rfl
      | other what => exact ih _

end Ruleset

end DeclBridge
