/-
  Trellis.Graph.Cycle — finding a cycle, depth first.

  Nodes are explored in ascending order, each once. While a node is explored the way that led
  to it is kept; an edge back to a node of the way closes a cycle, which is answered with its
  first node repeated at the end. A way visits no node twice, so it cannot grow for ever.
-/
import Trellis.Graph

namespace Trellis.Graph

variable (g : Graph)

/-- The nodes that are not on a way. -/
def off (way : List Nat) : List Nat := (List.range g.size).filter (· ∉ way)

theorem length_off_append_le (way : List Nat) (node : Nat) :
    (g.off (way ++ [node])).length ≤ (g.off way).length := by
  unfold off
  rw [← List.countP_eq_length_filter, ← List.countP_eq_length_filter]
  exact List.countP_mono_left fun x _ h => by
    simp only [List.mem_append, decide_eq_true_eq, not_or] at h ⊢
    exact h.1

theorem length_off_append_lt {way : List Nat} {node : Nat} (hs : node < g.size)
    (hn : node ∉ way) : (g.off (way ++ [node])).length < (g.off way).length := by
  have sub : g.off (way ++ [node]) = (g.off way).filter (· ≠ node) := by
    unfold off
    rw [List.filter_filter]
    refine List.filter_congr fun x _ => ?_
    simp [and_comm]
  rw [sub]
  refine List.length_filter_lt_length_iff_exists.2 ⟨node, ?_, by simp⟩
  exact List.mem_filter.2 ⟨List.mem_range.2 hs, by simpa using hn⟩

theorem successors_eq_nil {node : Nat} (h : ¬ node < g.size) : g.successors node = [] :=
  List.eq_nil_iff_forall_not_mem.2 fun _ hn => h (g.inside _ (g.mem_successors.1 hn)).1

/-- Explores `nodes`, reached along `way`, apart from those `done`. Answers all that are done
    then, or fails with the first cycle closed. -/
def explore (way : List Nat) : (nodes done : List Nat) → Except (List Nat) (List Nat)
  | [], done => .ok done
  | node :: nodes, done =>
    if node ∈ way then .error (way.dropWhile (· ≠ node) ++ [node])
    else if node ∈ done then explore way nodes done
    else match explore (way ++ [node]) (g.successors node) done with
      | .error cycle => .error cycle
      | .ok done => explore way nodes (node :: done)
termination_by nodes => ((g.off way).length, nodes.length)
decreasing_by
  · exact Prod.Lex.right _ (Nat.lt_succ_self _)
  · rename_i hway _
    by_cases hs : node < g.size
    · exact Prod.Lex.left _ _ (g.length_off_append_lt hs hway)
    · rw [g.successors_eq_nil hs]
      rcases Nat.lt_or_eq_of_le (g.length_off_append_le way node) with h | h
      · exact Prod.Lex.left _ _ h
      · rw [h]
        exact Prod.Lex.right _ (Nat.succ_pos _)
  · exact Prod.Lex.right _ (Nat.lt_succ_self _)

/-- The first cycle found, its first node repeated at the end. -/
def findCycle : Option (List Nat) :=
  match g.explore [] (List.range g.size) [] with
  | .ok _ => none
  | .error cycle => some cycle

end Trellis.Graph
