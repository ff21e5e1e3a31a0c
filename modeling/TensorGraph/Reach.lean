/-!
Reachability along the edges of a finite graph: the nodes met when the edges of every node in a
given set are followed from some starting points.
-/
namespace TensorGraph.Reach

variable {α : Type} [DecidableEq α]

/-- The nodes met from those in `pending`. The edges of the nodes in `fresh` are still to be
followed, each node's once. -/
def visit (next : α → List α) (fresh pending : List α) : List α :=
  match pending with
  | [] => []
  | a :: rest =>
    if a ∈ fresh then a :: visit next (fresh.erase a) (next a ++ rest)
    else a :: visit next fresh rest
termination_by (fresh.length, pending.length)
decreasing_by
  · apply Prod.Lex.left
    have := List.length_erase_of_mem ‹a ∈ fresh›
    have := List.length_pos_of_mem ‹a ∈ fresh›
    omega
  · exact Prod.Lex.right _ (Nat.lt_succ_self _)

end TensorGraph.Reach
