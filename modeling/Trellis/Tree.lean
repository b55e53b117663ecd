/-
  Trellis.Tree — the program tree a session works on, and its edits.

  The root is node 0, a program; every other node is numbered by the counter `next` as it is
  made. The counter has no end here, so that no number is used twice; on the records of
  `Arena.lean` it has 32 bits, and up to its last number the two are the same. An edit either
  changes the tree or fails with a cause and leaves it alone: `add` gives a node a child, `remove`
  takes a node out with all below it, `clone` copies a subtree under a node outside it, `rename`
  renames. A clone takes its nodes one by one (`copyNode`); nobody coming in between, it is the
  copy made at once.

  Looking downwards is `descendants`, looking upwards is `lineage`; a number that belongs to no
  node has no descendants, and stands alone in its own lineage.
-/
import Trellis.Forest

namespace Trellis

/-- Why an edit of the tree fails. -/
inductive TreeError where
  | missingParent (n : NodeId)
  /-- The parent was there at first, and went before it could be given the child. -/
  | removedParent (n : NodeId)
  | misplaced (parent child : Kind)
  | missingNode (n : NodeId)
  | rootRemoval
  | cloneIntoItself (source : NodeId)
  | nothingCloned (source : NodeId)
  /-- A failure a unit reports in its own words. -/
  | other (text : String)
  deriving DecidableEq

def TreeError.message : TreeError → String
  | missingParent n => s!"Parent {nodeLabel n} does not exist"
  | removedParent n => s!"Parent {nodeLabel n} was removed"
  | misplaced parent child => s!"A {parent.label} node cannot contain a {child.label} node"
  | missingNode n => s!"Node {nodeLabel n} does not exist"
  | rootRemoval => "The program root cannot be removed"
  | cloneIntoItself source => s!"Cannot clone {nodeLabel source} into its own subtree"
  | nothingCloned source => s!"Cloning {nodeLabel source} produced no nodes"
  | other text => text

structure Tree where
  whole : Forest
  next : NodeId
  deriving DecidableEq

namespace Tree

def root : NodeId := 0

/-- A tree of the root alone. -/
def new (name : String) : Tree := ⟨.node root .program name .empty .empty, root + 1⟩

/-! ## Reading -/

variable (t : Tree)

def get? (n : NodeId) : Option Node := t.whole.find? n none

def contains (n : NodeId) : Bool := (t.get? n).isSome

def kind? (n : NodeId) : Option Kind := (t.get? n).map Node.kind

def name? (n : NodeId) : Option String := (t.get? n).map Node.name

def parent? (n : NodeId) : Option NodeId := (t.get? n).bind Node.parent?

def children (n : NodeId) : List NodeId :=
  match t.get? n with
  | some node => node.children
  | none => []

/-- The live nodes, in pre-order. -/
def ids : List NodeId := t.whole.ids

def size : Nat := t.ids.length

/-- Whether the tree has nothing but its root. -/
def isEmpty : Bool := t.size ≤ 1

/-- Node `n` and all below it, in pre-order. -/
def descendants (n : NodeId) : List NodeId :=
  match t.whole.subtree? n with
  | some sub => sub.ids
  | none => []

def descendantsOfKind (n : NodeId) (k : Kind) : List NodeId :=
  (t.descendants n).filter fun d => t.kind? d = some k

def nodesOfKind (k : Kind) : List NodeId := t.descendantsOfKind root k

/-- Node `n` and the nodes above it, from `n` outwards. -/
def lineage (n : NodeId) : List NodeId :=
  match t.whole.lineage? n with
  | some line => line.map Prod.fst
  | none => [n]

/-- Whether node `n` is `ancestor` or lies below it. -/
def isWithin (n ancestor : NodeId) : Bool := ancestor ∈ t.lineage n

/-- The innermost node of kind `k` in the lineage of `n`. -/
def ancestorOfKind (n : NodeId) (k : Kind) : Option NodeId :=
  (t.lineage n).find? fun a => t.kind? a = some k

/-! ## Editing -/

def rename (n : NodeId) (name : String) : Except TreeError Tree :=
  if t.contains n then .ok { t with whole := t.whole.rename n name } else .error (.missingNode n)

/-- Gives `parent` a last child, and answers its number. -/
def add (parent : NodeId) (kind : Kind) (name : String) : Except TreeError (NodeId × Tree) :=
  match t.kind? parent with
  | none => .error (.missingParent parent)
  | some k =>
    if k.canContain kind then
      .ok (t.next, ⟨Forest.attach parent (.node t.next kind name .empty .empty) t.whole, t.next + 1⟩)
    else .error (.misplaced k kind)

/-- Takes `n` out with all below it, and answers what went. -/
def remove (n : NodeId) : Except TreeError (List NodeId × Tree) :=
  if n = root then .error .rootRemoval
  else if t.contains n then .ok (t.descendants n, { t with whole := t.whole.detach n })
  else .error (.missingNode n)

/-- Reads `n` and adds a node like it below `parent`: what was read, the new number, the tree then. -/
def copyNode (n parent : NodeId) : Except TreeError (Node × NodeId × Tree) :=
  match t.get? n with
  | some original => (t.add parent original.kind original.name).map fun (c, u) => (original, c, u)
  | none => .error (.missingNode n)

/-- Copies the subtree of `source` under `parent` as its last child, and answers each node
    with its copy. -/
def clone (source parent : NodeId) : Except TreeError (List (NodeId × NodeId) × Tree) :=
  if t.isWithin parent source then .error (.cloneIntoItself source)
  else match t.whole.subtree? source, t.kind? source with
    | some sub, some kind =>
      match t.kind? parent with
      | none => .error (.missingParent parent)
      | some k =>
        if k.canContain kind then
          let copy := sub.renumber t.next
          .ok (sub.ids.zip copy.ids, ⟨Forest.attach parent copy t.whole, t.next + sub.size⟩)
        else .error (.misplaced k kind)
    | _, _ => .error (.missingNode source)

end Tree

end Trellis
