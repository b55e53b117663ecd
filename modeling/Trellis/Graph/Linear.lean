/-
  Trellis.Graph.Linear — an order of the nodes that every edge agrees with.

  Each node waits for its predecessors; of the nodes that wait for none the least is placed
  next, and its successors wait for one fewer. On a graph with a cycle the nodes of the cycle
  wait for ever, and there is no order.
-/
import Trellis.Graph

namespace Trellis.Graph

variable (g : Graph)

/-- What is left to place. -/
structure Frontier where
  /-- For each node, how many of its predecessors are not placed. -/
  waiting : List Nat
  /-- The nodes not placed that wait for nothing. -/
  ready : OrdSet Nat

/-- How many edges lead to a node. -/
def inDegree (a : Nat) : Nat := g.edges.toList.countP (·.target = a)

def start : Frontier where
  waiting := (List.range g.size).map g.inDegree
  ready := Sorted.ofList ((List.range g.size).filter fun a => g.inDegree a = 0)

namespace Frontier

/-- One predecessor of `node` is placed. -/
def relax (f : Frontier) (node : Nat) : Frontier :=
  let waiting := f.waiting.modify node (· - 1)
  ⟨waiting, if waiting[node]? = some 0 then f.ready.insert node else f.ready⟩

/-- Places `node`. -/
def settle (g : Graph) (f : Frontier) (node : Nat) : Frontier :=
  (g.successors node).foldl relax { f with ready := f.ready.erase node }

/-- Places up to `room` nodes, always the least that waits for nothing. -/
def drain (g : Graph) : (room : Nat) → Frontier → List Nat
  | 0, _ => []
  | room + 1, f =>
    match f.ready.toList with
    | [] => []
    | node :: _ => node :: drain g room (f.settle g node)

end Frontier

/-- The order, if every node could be placed. -/
def linearize : Option (List Nat) :=
  let order := Frontier.drain g g.size g.start
  if order.length = g.size then some order else none

end Trellis.Graph
