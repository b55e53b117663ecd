/-
  Trellis.Graph — directed graphs whose nodes are the numbers below their size.

  `Graph.Cycle` looks for a cycle, `Graph.Linear` puts the nodes into an order that every edge
  agrees with, and `Graph.Reach` keeps what can be reached from what while edges are added.
-/
import Trellis.Sorted

namespace Trellis

structure Edge where
  source : Nat
  target : Nat
  deriving DecidableEq

namespace Edge

instance : Ord Edge := ⟨compareLex (compareOn source) (compareOn target)⟩

instance : Std.TransOrd Edge :=
  inferInstanceAs (Std.TransCmp (compareLex (compareOn source) (compareOn target)))

instance : Std.LawfulEqOrd Edge where
  compare_self := Std.ReflOrd.compare_self
  eq_of_compare {a b} h := by
    obtain ⟨hs, ht⟩ := compareLex_eq_eq.1 h
    have hs : a.source = b.source := Std.LawfulEqOrd.eq_of_compare hs
    have ht : a.target = b.target := Std.LawfulEqOrd.eq_of_compare ht
    cases a; cases b; cases hs; cases ht; rfl

end Edge

structure Graph where
  size : Nat
  edges : OrdSet Edge
  inside : ∀ e ∈ edges, e.source < size ∧ e.target < size

namespace Graph

/-- The graph of `size` nodes without edges. -/
def discrete (size : Nat) : Graph := ⟨size, ∅, fun _ h => absurd h (Sorted.not_mem_empty _)⟩

variable (g : Graph)

/-- Adds an edge; one that leads out of the graph is not added. -/
def add (a b : Nat) : Graph :=
  if h : a < g.size ∧ b < g.size then
    ⟨g.size, g.edges.insert ⟨a, b⟩, fun e he => by
      rcases OrdSet.mem_insert.1 he with rfl | he
      · exact h
      · exact g.inside e he⟩
  else g

def addAll (es : List Edge) : Graph := es.foldl (fun g e => g.add e.source e.target) g

/-- Where the edges of a node lead, in ascending order. -/
def successors (a : Nat) : List Nat := (g.edges.toList.filter (·.source = a)).map Edge.target

/-- A path along the edges; every node has one to itself. -/
inductive Path : Nat → Nat → Prop
  | refl (a : Nat) : Path a a
  | step {a b c : Nat} : ⟨a, b⟩ ∈ g.edges → Path b c → Path a c

/-- No edge is part of a way back to its source. -/
def Acyclic : Prop := ∀ a b, ⟨a, b⟩ ∈ g.edges → ¬ g.Path b a

theorem mem_successors {a b : Nat} : b ∈ g.successors a ↔ ⟨a, b⟩ ∈ g.edges := by
  rw [successors, List.mem_map]
  constructor
  · rintro ⟨e, he, rfl⟩
    obtain ⟨hm, ha⟩ := List.mem_filter.1 he
    obtain rfl := of_decide_eq_true ha
    exact hm
  · intro h
    exact ⟨⟨a, b⟩, List.mem_filter.2 ⟨h, by simp⟩, rfl⟩

end Graph

end Trellis
