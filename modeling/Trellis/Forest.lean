/-
  Trellis.Forest — ordered trees of program nodes.

  A forest is a list of trees: `node id kind name below beside` is its first tree, with the
  trees of its children below it, and the trees beside it. Nesting is the structure itself, so
  a node has one parent and no cycle can be built; that no identifier occurs twice is a
  property of the whole (`Tree.lean`). Pre-order, a node before its children and those before
  what stands beside it, is the order of every listing. In memory a tree is a set of records that
  name each other (`Arena.lean`).
-/
import Trellis.Kind

namespace Trellis

/-- The number of a node. In memory it has 32 bits, which `Arena.lean` is about. -/
abbrev NodeId := Nat

/-- How a node is written in messages. -/
def nodeLabel (n : NodeId) : String := "#" ++ toString n

/-- What is known of one node. -/
structure Node where
  id : NodeId
  kind : Kind
  name : String
  parent? : Option NodeId
  children : List NodeId
  deriving DecidableEq

inductive Forest where
  | empty
  | node (id : NodeId) (kind : Kind) (name : String) (below beside : Forest)
  deriving DecidableEq

namespace Forest

/-- The identifiers of the outermost nodes. -/
def roots : Forest → List NodeId
  | empty => []
  | node id _ _ _ beside => id :: beside.roots

/-- All identifiers, in pre-order. -/
def ids : Forest → List NodeId
  | empty => []
  | node id _ _ below beside => id :: (below.ids ++ beside.ids)

def size : Forest → Nat
  | empty => 0
  | node _ _ _ below beside => 1 + below.size + beside.size

/-- `f`, then `g` beside it. -/
def append : Forest → Forest → Forest
  | empty, g => g
  | node id kind name below beside, g => node id kind name below (beside.append g)

instance : Append Forest := ⟨append⟩

/-- Node `n`; `above` is the parent of the outermost nodes. -/
def find? (n : NodeId) (above : Option NodeId) : Forest → Option Node
  | empty => none
  | node id kind name below beside =>
    if id = n then some ⟨id, kind, name, above, below.roots⟩
    else (below.find? n (some id)).or (beside.find? n above)

/-- The tree of node `n`, alone. -/
def subtree? (n : NodeId) : Forest → Option Forest
  | empty => none
  | node id kind name below beside =>
    if id = n then some (node id kind name below empty)
    else (below.subtree? n).or (beside.subtree? n)

/-- Node `n` and the nodes above it with their kinds, from `n` outwards. -/
def lineage? (n : NodeId) : Forest → Option (List (NodeId × Kind))
  | empty => none
  | node id kind _ below beside =>
    if id = n then some [(id, kind)]
    else ((below.lineage? n).map (· ++ [(id, kind)])).or (beside.lineage? n)

/-- Puts `child` below node `n`, after the children it has. -/
def attach (n : NodeId) (child : Forest) : Forest → Forest
  | empty => empty
  | node id kind name below beside =>
    if id = n then node id kind name (below ++ child) beside
    else node id kind name (attach n child below) (attach n child beside)

/-- Takes the tree of node `n` out. -/
def detach (n : NodeId) : Forest → Forest
  | empty => empty
  | node id kind name below beside =>
    if id = n then beside else node id kind name (below.detach n) (beside.detach n)

def rename (n : NodeId) (new : String) : Forest → Forest
  | empty => empty
  | node id kind name below beside =>
    if id = n then node id kind new below beside
    else node id kind name (below.rename n new) (beside.rename n new)

/-- The same trees with the identifiers `first`, `first + 1`, … in pre-order. -/
def renumber (first : NodeId) : Forest → Forest
  | empty => empty
  | node _ kind name below beside =>
    node first kind name (below.renumber (first + 1)) (beside.renumber (first + 1 + below.size))

/-- The outermost nodes of kind `k`: those with none of that kind above them in the forest. -/
def outermost (k : Kind) : Forest → List NodeId
  | empty => []
  | node id kind _ below beside =>
    if kind = k then id :: beside.outermost k else below.outermost k ++ beside.outermost k

/-- The trees below node `n`. -/
def under (n : NodeId) (f : Forest) : Forest :=
  match f.subtree? n with
  | some (node _ _ _ below _) => below
  | _ => empty

theorem size_eq_length_ids (f : Forest) : f.size = f.ids.length := by
  induction f with
  | empty => rfl
  | node id kind name below beside ihb ihs => simp [size, ids, ihb, ihs]; omega

theorem size_renumber (f : Forest) (first : NodeId) : (f.renumber first).size = f.size := by
  induction f generalizing first with
  | empty => rfl
  | node id kind name below beside ihb ihs => simp [size, renumber, ihb, ihs]

/-- Renumbering hands out consecutive identifiers. -/
theorem ids_renumber (f : Forest) (first : NodeId) :
    (f.renumber first).ids = List.range' first f.size := by
  induction f generalizing first with
  | empty => rfl
  | node id kind name below beside ihb ihs =>
    simp only [renumber, ids, size, ihb, ihs]
    rw [show 1 + below.size + beside.size = (below.size + beside.size) + 1 by omega,
      List.range'_succ, ← List.range'_append_1]

end Forest

end Trellis
