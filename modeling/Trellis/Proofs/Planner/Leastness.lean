/-
  Trellis.Proofs.Planner.Leastness — the units of a plan stand in the least order there is.

  An order of the nodes with the start before and the end after all others parts from another such
  order at two units, since there is an edge between any node and the start or the end
  (`lt_length_of_part`). The nodes of the units ascend by hint and name, so the least order of the
  nodes gives the least order of the units (`Serves.leastUnits`).

  Proved: nodes are placed exactly if the graph has no cycle, in the least order that the edges
  agree with and without a counter underflowing; so a plan has its units in the order that is least
  by hint and name of all orders that the constraints allow (`linearization_is_least`).
-/
import Trellis.Proofs.Graph.Leastness
import Trellis.Proofs.Planner.Soundness

namespace Trellis

/-- The unit stands before the other in line: its hint is less, or with the same hint its name. -/
def Contract.Ahead (c d : Contract) : Prop := compare c.turn d.turn = .lt

namespace Planner

open Trellis.Graph

namespace Selection

variable {s : Selection} {g : Graph} {nodes : List Nat}

/-- The order is that of the units in an order of the nodes that the edges agree with, and of all
    such the least by hint and name. -/
structure LeastUnits (g : Graph) (s : Selection) (order : List Contract) : Prop where
  linearizes : ∃ nodes, g.Linearizes nodes ∧ order = s.unitsAt nodes
  least : ∀ other, g.Linearizes other →
    order = s.unitsAt other ∨ List.Lex Contract.Ahead order (s.unitsAt other)

/-- Where two orders part, they go on with different units. -/
theorem Serves.lt_length_of_part (hg : Serves g s) {pre xs ys : List Nat} {a b : Nat}
    (hx : g.Linearizes (pre ++ a :: xs)) (hy : g.Linearizes (pre ++ b :: ys)) (hab : a < b) :
    b < s.units.length := by
  have hfrom : ⟨a, b⟩ ∉ g.edges := hx.not_mem_edges_of_part hy
  have hto : ⟨b, a⟩ ∉ g.edges := hy.not_mem_edges_of_part hx
  have hb : b < s.units.length + 2 := by
    have hmem : b < g.size := hy.mem_iff.1 (by simp)
    rwa [hg.size] at hmem
  have hstart : b ≠ s.startNode := by
    rintro rfl
    exact hto (hg.frame (mem_frame.2 (.inr ⟨a, hab, .inl rfl⟩)))
  have hend : b ≠ s.endNode := by
    rintro rfl
    rcases Nat.lt_or_eq_of_le (Nat.le_of_lt_succ hab) with ha | rfl
    · exact hfrom (hg.frame (mem_frame.2 (.inr ⟨a, ha, .inr rfl⟩)))
    · exact hfrom (hg.frame (mem_frame.2 (.inl rfl)))
  rw [startNode] at hstart
  rw [endNode] at hend
  omega

theorem exists_part_of_lex {order other : List Nat} (h : List.Lex (· < ·) order other)
    (hlength : order.length = other.length) :
    ∃ pre a b xs ys, order = pre ++ a :: xs ∧ other = pre ++ b :: ys ∧ a < b := by
  induction h with
  | nil => cases hlength
  | rel hab => exact ⟨[], _, _, _, _, rfl, rfl, hab⟩
  | @cons c xs ys _ ih =>
    obtain ⟨pre, a, b, xs, ys, rfl, rfl, hab⟩ := ih (Nat.succ.inj hlength)
    exact ⟨c :: pre, a, b, xs, ys, rfl, rfl, hab⟩

/-- The least order of the nodes makes the least order of the units. -/
theorem Serves.leastUnits (hg : Serves g s) (hline : s.units.Pairwise Contract.Ahead) (h : g.Least nodes) :
    LeastUnits g s (s.unitsAt nodes) := by
  refine ⟨⟨nodes, h.linearizes, rfl⟩, fun other hother => ?_⟩
  rcases h.least other hother with rfl | hlex
  · exact .inl rfl
  have hlength : nodes.length = other.length :=
    (h.linearizes.complete.trans hother.complete.symm).length_eq
  obtain ⟨pre, a, b, xs, ys, rfl, rfl, hab⟩ := exists_part_of_lex hlex hlength
  have hb : b < s.units.length := hg.lt_length_of_part h.linearizes hother hab
  have ha : a < s.units.length := Nat.lt_trans hab hb
  have hahead : s.units[a].Ahead s.units[b] := List.pairwise_iff_getElem.1 hline a b ha hb hab
  rw [unitsAt_append, unitsAt_append, unitsAt_cons (List.getElem?_eq_getElem ha),
    unitsAt_cons (List.getElem?_eq_getElem hb)]
  exact .inr (List.Lex.append_left _ (.rel hahead) _)

end Selection

open Selection

theorem pairwise_ahead_selection (p : Problem) (required : FactSet) (selected : List Contract) :
    (p.selection required selected).units.Pairwise Contract.Ahead :=
  p.lineup.ascending.filter _

/-- An attempt that ends with an order has found links, and the order is the least they allow. -/
theorem leastUnits_of_done {s : Selection} (hline : s.units.Pairwise Contract.Ahead)
    {order : List Contract} {final : FactSet} (h : s.attempt.outcome = .ok (.done order final)) :
    ∃ p, (s.searchLinks s.forced).1 = some p ∧ LeastUnits (s.constraints p) s order := by
  rcases attempt_cases s with ⟨cycle, -, e⟩ | ⟨-, ⟨need, e', -, e⟩ | ⟨p, e', nodes, hp, hg, hl, e⟩⟩
  · rw [e] at h
    cases h
  · rw [e] at h
    cases h
  · rw [e] at h
    cases h
    exact ⟨p, by rw [hp], hg.leastUnits hline (linearize_least hl)⟩

/-- Placing nodes leaves none exactly if the graph is acyclic, which is when no cycle is found. The
    order is then the least that the edges agree with, and no counter underflows on the way. So the
    steps of a plan are the units selected in the end, in the order that is the least by hint and
    name of all that the constraints of the last attempt allow. -/
theorem linearization_is_least (g : Graph) :
    (g.linearize.isSome = true ↔ g.Acyclic) ∧
      (g.Acyclic ↔ g.findCycle = none) ∧
      (∀ order, g.linearize = some order → g.Least order) ∧
      (∃ order, Frontier.Drains g g.start order ∧
        g.linearize = if order.length = g.size then some order else none) ∧
      ∀ cat features config initial goal q, plan cat features config initial goal = .ok q →
        ∃ settled order precedence,
          let problem := Problem.new cat features initial
          let s := problem.selection goal.required settled
          (problem.solve goal).outcome = .ok (settled, order, q.final) ∧
            (s.searchLinks s.forced).1 = some precedence ∧
            LeastUnits (s.constraints precedence) s order ∧
            q.steps = order.map Step.ofContract := by
  refine ⟨isSome_linearize, findCycle_eq_none.symm, fun order => linearize_least,
    ⟨_, drains_start g, rfl⟩, ?_⟩
  intro cat features config initial goal q hplan
  obtain ⟨-, settled, order, final, hsolve, rfl⟩ := solve_of_plan hplan
  obtain ⟨-, hdone⟩ := Problem.solve_ok hsolve
  obtain ⟨p, hp, hleast⟩ := leastUnits_of_done (pairwise_ahead_selection _ _ _) hdone
  exact ⟨settled, order, p, hsolve, hp, hleast, rfl⟩

/-- The edges 2 → 0 → 1 allow one order. `lower` is first in line but has to let `count` go before
    it, and then `restore` is the first that can run. -/
theorem linearization_is_least_restoring :
    ((Graph.discrete 3).addAll [⟨2, 0⟩, ⟨0, 1⟩]).Least [2, 0, 1] ∧
      ∃ q, plan (Sorted.ofList [lower, count, restore]) ∅ .default (Sorted.ofList [raw]) .maximal = .ok q ∧
        q.units = ["restore", "count", "lower"] ∧
        ∃ (s : Selection) (precedence : Precedence) (order : List Contract),
          (s.searchLinks s.forced).1 = some precedence ∧
            LeastUnits (s.constraints precedence) s order ∧ q.steps = order.map Step.ofContract := by
  let q : Plan := ⟨.maximal, Sorted.ofList [raw],
    [.ofContract restore, .ofContract count, .ofContract lower], Sorted.ofList [lowered, counted], []⟩
  have hplan : plan (Sorted.ofList [lower, count, restore]) ∅ .default (Sorted.ofList [raw]) .maximal =
    .ok q := by cbv
  have horder : ((Graph.discrete 3).addAll [⟨2, 0⟩, ⟨0, 1⟩]).linearize = some [2, 0, 1] := by cbv
  obtain ⟨-, -, hleast, -, hunits⟩ := linearization_is_least ((Graph.discrete 3).addAll [⟨2, 0⟩, ⟨0, 1⟩])
  obtain ⟨settled, order, precedence, -, hp, hl, hsteps⟩ := hunits _ _ _ _ _ q hplan
  exact ⟨hleast _ horder, q, hplan, rfl, _, precedence, order, hp, hl, hsteps⟩

end Planner

end Trellis
