/-
  Trellis.Arena — the program tree as it is kept in memory.

  Every live node has a record, found by its number. A record names the parent and lists the
  children, so that each link is written down twice, and every edit has to keep the two in step
  by hand. Numbers have 32 bits and come from a counter that starts again at 0 after the last of
  them; a record that is put under a number in use replaces the one there.

  An edit answers how it ended together with the arena that it leaves, also when it fails. A walk
  is a loop that goes from record to record for as long as there is somewhere to go (`loop`), and
  over records that do not fit together it may go on for ever: it then has no answer at all (`none`).

  `Tree.lean` has the same calls on nested trees; they do the same while the numbers last
  (`Proofs/Arena`).
-/
import Mathlib.Data.PFun
import Trellis.Expansion

namespace Trellis

/-! ## Loops -/

section Loops

variable {σ α : Type} {turn : σ → α ⊕ σ} {s s' : σ} {a : α}

open Classical in
/-- Goes on from state to state until there is an answer. There is none if it goes on for ever. -/
noncomputable def loop (turn : σ → α ⊕ σ) (s : σ) : Option α := (PFun.fix ↑turn s).toOption

theorem loop_answer (h : turn s = .inl a) : loop turn s = some a := by
  classical
  rw [loop, Part.toOption_eq_some_iff]
  exact PFun.fix_stop (Part.mem_some_iff.2 h.symm)

theorem loop_turn (h : turn s = .inr s') : loop turn s = loop turn s' := by
  have forward : PFun.fix (turn : σ →. α ⊕ σ) s = PFun.fix (turn : σ →. α ⊕ σ) s' :=
    PFun.fix_fwd_eq (Part.mem_some_iff.2 h.symm)
  rw [loop, loop, forward]

/-- A loop that leads from states of some sort to states of that sort, and to no answer, has none. -/
theorem loop_eq_none {I : σ → Prop} (hs : I s) (next : ∀ s, I s → ∃ s', turn s = .inr s' ∧ I s') :
    loop turn s = none := by
  classical
  rw [loop, Part.toOption_eq_none_iff]
  intro ends
  -- By induction on the turns that are taken up to the answer.
  have never : ¬ I s := by
    refine PFun.fixInduction (Part.get_mem ends) fun s _ ih hs => ?_
    obtain ⟨s', hturn, hs'⟩ := next s hs
    exact ih s' (Part.mem_some_iff.2 hturn.symm) hs'
  exact never hs

end Loops

/-- How many numbers there are for nodes. -/
def idCount : Nat := 4294967296

structure Arena where
  nodes : OrdMap NodeId Node
  next : NodeId
  deriving DecidableEq

namespace Arena

/-- An arena of the root alone. -/
def new (name : String) : Arena :=
  ⟨OrdMap.set ∅ Tree.root ⟨Tree.root, .program, name, none, []⟩, Tree.root + 1⟩

/-! ## Single accesses -/

variable (a : Arena)

def get? (n : NodeId) : Option Node := OrdMap.get? a.nodes n

def contains (n : NodeId) : Bool := (a.get? n).isSome

def kind? (n : NodeId) : Option Kind := (a.get? n).map Node.kind

def parent? (n : NodeId) : Option NodeId := (a.get? n).bind Node.parent?

def children (n : NodeId) : List NodeId :=
  match a.get? n with
  | some node => node.children
  | none => []

/-- Puts a record under its number, in place of any that is there. -/
def insert (node : Node) : Arena := { a with nodes := OrdMap.set a.nodes node.id node }

/-- Changes the record under a number, if there is one. -/
def adjust (n : NodeId) (f : Node → Node) : Arena := { a with nodes := OrdMap.adjust a.nodes n f }

def erase (n : NodeId) : Arena := { a with nodes := a.nodes.erase n }

def eraseAll (ns : List NodeId) : Arena := ns.foldl erase a

/-- Takes a number from the counter. -/
def issue : NodeId × Arena := (a.next, { a with next := (a.next + 1) % idCount })

/-! ## Walks -/

noncomputable section

/-- Lists the nodes that a stack leads to, those of the first before those of the next, each before
    its children. Numbers without a record are passed over. -/
def walkTurn : List NodeId × List NodeId → List NodeId ⊕ List NodeId × List NodeId
  | ([], found) => .inl found
  | (n :: stack, found) =>
    match a.get? n with
    | none => .inr (stack, found)
    | some node => .inr (node.children ++ stack, found ++ [n])

/-- Node `n` and all below it, in pre-order. -/
def descendants (n : NodeId) : Option (List NodeId) := loop a.walkTurn ([n], [])

def descendantsOfKind (n : NodeId) (k : Kind) : Option (List NodeId) := do
  let found ← a.descendants n
  return found.filter fun d => a.kind? d = some k

def nodesOfKind (k : Kind) : Option (List NodeId) := a.descendantsOfKind Tree.root k

/-- From a node to its parent, up to one that is wanted. -/
def climbTurn (wanted : NodeId → Bool) : Option NodeId → Option NodeId ⊕ Option NodeId
  | none => .inl none
  | some n => if wanted n then .inl (some n) else .inr (a.parent? n)

/-- The innermost node of kind `k` from `n` outwards. -/
def ancestorOfKind (n : NodeId) (k : Kind) : Option (Option NodeId) :=
  loop (a.climbTurn fun m => a.kind? m = some k) (some n)

/-- Whether node `n` is `ancestor` or lies below it. -/
def isWithin (n ancestor : NodeId) : Option Bool :=
  (loop (a.climbTurn fun m => m = ancestor) (some n)).map Option.isSome

/-- Lists the outermost nodes of kind `k` that a stack leads to. -/
def outermostTurn (k : Kind) : List NodeId × List NodeId → List NodeId ⊕ List NodeId × List NodeId
  | ([], found) => .inl found
  | (n :: stack, found) =>
    if a.kind? n = some k then .inr (stack, found ++ [n])
    else .inr (a.children n ++ stack, found)

/-! ## Edits -/

def rename (n : NodeId) (name : String) : Except TreeError Unit × Arena :=
  if a.contains n then (.ok (), a.adjust n fun node => { node with name })
  else (.error (.missingNode n), a)

/-- Puts down a record for the child, then adds it to the children of `parent`. Where the parent
    has gone in between, the record is taken back. -/
def add (parent : NodeId) (kind : Kind) (name : String) : Except TreeError NodeId × Arena :=
  match a.kind? parent with
  | none => (.error (.missingParent parent), a)
  | some k =>
    if k.canContain kind then
      let (n, a) := a.issue
      let a := a.insert ⟨n, kind, name, some parent, []⟩
      if a.contains parent then
        (.ok n, a.adjust parent fun node => { node with children := node.children ++ [n] })
      else (.error (.removedParent parent), a.erase n)
    else (.error (.misplaced k kind), a)

/-- Lists the subtree of `n`, takes `n` from the children of its parent and then takes the records
    away, one after the other. -/
def remove (n : NodeId) : Option (Except TreeError (List NodeId) × Arena) :=
  if n = Tree.root then some (.error .rootRemoval, a)
  else match a.get? n with
    | none => some (.error (.missingNode n), a)
    | some node => do
      let gone ← a.descendants n
      let a := match node.parent? with
        | some parent =>
          a.adjust parent fun p => { p with children := p.children.filter (· ≠ n) }
        | none => a
      return (.ok gone, a.eraseAll gone)

/-- Copies the first of the nodes that are left, each of them with the parent of its copy, and goes on
    with its children. What has been copied before a failure stays. -/
def copyTurn : Arena × List (NodeId × NodeId) × List (NodeId × NodeId) →
    Except TreeError (List (NodeId × NodeId)) × Arena ⊕
      Arena × List (NodeId × NodeId) × List (NodeId × NodeId)
  | (a, pairs, []) => .inl (.ok pairs, a)
  | (a, pairs, (n, parent) :: left) =>
    match a.get? n with
    | none => .inl (.error (.missingNode n), a)
    | some node =>
      match a.add parent node.kind node.name with
      | (.error e, a) => .inl (.error e, a)
      | (.ok c, a) => .inr (a, pairs ++ [(n, c)], node.children.map (·, c) ++ left)

/-- Copies the subtree of `source` below `parent`, which must not lie in it. -/
def clone (source parent : NodeId) : Option (Except TreeError (List (NodeId × NodeId)) × Arena) := do
  if ← a.isWithin parent source then return (.error (.cloneIntoItself source), a)
  else loop copyTurn (a, [], [(source, parent)])

end

end Arena

/-! ## Expansion -/

noncomputable section

/-- The outermost nodes of the target kind strictly below a node. -/
def Adapter.locate (d : Adapter) (a : Arena) (n : NodeId) : Option (List NodeId) :=
  loop (a.outermostTurn d.target) (a.children n, [])

namespace AdapterSet

/-- Follows adapters from some nodes. -/
def follow (a : Arena) : List Adapter → List NodeId → Option (List NodeId)
  | [], nodes => some nodes
  | d :: chain, nodes => do
    let found ← nodes.mapM (d.locate a)
    follow a chain found.flatten

/-- The nodes that a step of some granularity runs on. -/
def locateRoot (as : AdapterSet) (a : Arena) (k : Kind) : Option (Except Error (List NodeId)) :=
  match as.chain k with
  | .ok chain => (follow a chain [Tree.root]).map .ok
  | .error e => some (.error e)

end AdapterSet

end

end Trellis
