/-
  Trellis.Graph.Reach — what can be reached from what, kept up to date as edges are added.

  Row `a` is a number whose bit `b` says whether there is a path from `a` to `b`. An edge from
  `a` to `b` gives every node that reaches `a` whatever `b` reaches, so asking for a path takes
  one look at a bit however many edges were added.
-/
import Trellis.Graph

namespace Trellis.Graph

structure Reach where
  rows : List Nat

namespace Reach

def row (r : Reach) (a : Nat) : Nat := r.rows[a]?.getD 0

/-- Whether there is a path from `a` to `b`. -/
def reaches (r : Reach) (a b : Nat) : Bool := (r.row a).testBit b

/-- Every node reaches itself. -/
def discrete (size : Nat) : Reach := ⟨(List.range size).map (1 <<< ·)⟩

/-- Adds the edge from `a` to `b`. -/
def add (r : Reach) (a b : Nat) : Reach :=
  let onward := r.row b
  ⟨r.rows.map fun row => if row.testBit a then row ||| onward else row⟩

def addAll (r : Reach) (es : List Edge) : Reach := es.foldl (fun r e => r.add e.source e.target) r

end Reach

/-- What the edges of `g` reach. -/
def reach (g : Graph) : Reach := (Reach.discrete g.size).addAll g.edges.toList

end Trellis.Graph
