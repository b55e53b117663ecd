/-
  Trellis.Script — bodies of units that can be written down.

  A script is a list of actions, performed in order up to the first that fails. Actions name
  nodes relative to the target, by their place in the tree, or as the node created last or the
  current one of a round; what cannot be resolved is a number that no node has. Actions that
  find something out are noted when they are done.
-/
import Trellis.Filter
import Trellis.Marker.Stock
import Trellis.Work

namespace Trellis

/-- A number that is never given to a node. -/
def nowhere : NodeId := 4294967295

inductive NodeRef where
  | id (n : NodeId)
  | self
  /-- The parent of the target. -/
  | enclosing
  | root
  /-- The child of the target at an index. -/
  | child (index : Nat)
  /-- The first node of that name, in pre-order from the root. -/
  | named (name : String)
  /-- The node created last by this invocation. -/
  | last
  /-- The current node of a round. -/
  | it
  deriving DecidableEq

inductive Action where
  | who
  | put (ref : NodeRef) (m : Marker StockMarker)
  | unmark (ref : NodeRef) (type : StockMarker)
  | marker (ref : NodeRef) (type : StockMarker)
  | hasTag (ref : NodeRef) (tag : Tag)
  | tags (ref : NodeRef)
  | feature (name : String)
  | add (parent : NodeRef) (kind : Kind) (name : String)
  | remove (ref : NodeRef)
  | clone (source parent : NodeRef)
  | rename (ref : NodeRef) (name : String)
  | graft (parent : NodeRef) (kind : Kind) (name : String)
  | prune (ref : NodeRef)
  | store (ref : NodeRef) (m : Marker StockMarker)
  | remark (kind : EventKind) (text : String)
  | raise (error : Error)
  | crash (message : String)
  /-- Performs an action and notes how it ended; only a crash goes through. -/
  | attempt (action : Action)
  /-- Performs actions if the target is live and the filter accepts it. -/
  | when (filter : Filter) (actions : List Action)
  /-- Performs actions for every child that a node has when the first round starts. -/
  | each (parent : NodeRef) (actions : List Action)

namespace Script

abbrev Job := ExceptT Stop (StateT NodeId (Work StockMarker))

/-- A request whose reply is the job's. -/
def request (r : Request StockMarker) : Job r.Reply :=
  ExceptT.lift (StateT.lift (Work.request r))

/-- A request whose reply may be an error, which the job then fails with. -/
def demand {α : Type} (reply : Job (Except Error α)) : Job α := do
  match ← reply with
  | .ok a => return a
  | .error e => throw (.failed e)

/-- The node created last. -/
def createdLast : Job NodeId := ExceptT.lift get

def setLast (n : NodeId) : Job Unit := ExceptT.lift (set n)

def resolve (site : Site) (it : NodeId) : NodeRef → Job NodeId
  | .id n => return n
  | .self => return site.target
  | .enclosing => do
    let node ← request (.node site.target)
    return (node.bind Node.parent?).getD nowhere
  | .root => return Tree.root
  | .child index => do
    let node ← request (.node site.target)
    return (node.bind (·.children[index]?)).getD nowhere
  | .named name => do
    let tree : Tree ← request .tree
    return ((tree.descendants Tree.root).find? fun n => tree.name? n = some name).getD nowhere
  | .last => createdLast
  | .it => return it

def note (site : Site) (action : String) (reading : Reading) : Job Unit :=
  request (.note ⟨site.unit, site.target, action, reading⟩)

mutual

def perform (site : Site) (it : NodeId) : Action → Job Unit
  | .who => do
    let poisoned ← request .poisoned
    note site "who" (.standing site.unit site.target site.kind poisoned)
  | .put ref m => do
    let n ← resolve site it ref
    demand (request (.put n m))
  | .unmark ref type => do
    let n ← resolve site it ref
    let found ← demand (request (.unmark n type))
    note site "unmark" (.payload found)
  | .marker ref type => do
    let n ← resolve site it ref
    let found ← request (.marker n type)
    note site "marker" (.payload found)
  | .hasTag ref tag => do
    let n ← resolve site it ref
    let tags : OrdSet Tag ← request (.tags n)
    note site "has_tag" (.flag (tag ∈ tags))
  | .tags ref => do
    let n ← resolve site it ref
    let tags ← request (.tags n)
    note site "tags" (.tags (.ofTags tags))
  | .feature name => do
    let features : Features ← request .features
    note site "feature" (.flag (features.isEnabled name))
  | .add parent kind name => do
    let n ← resolve site it parent
    let child ← demand (request (.add n kind name))
    setLast child
    note site "add" (.node child)
  | .remove ref => do
    let n ← resolve site it ref
    demand (request (.remove n))
  | .clone source parent => do
    let s ← resolve site it source
    let n ← resolve site it parent
    let copy ← demand (request (.clone s n))
    setLast copy
    note site "clone" (.node copy)
  | .rename ref name => do
    let n ← resolve site it ref
    demand (request (.rename n name))
  | .graft parent kind name => do
    let n ← resolve site it parent
    let child ← demand (request (.graft n kind name))
    setLast child
    note site "tree_add" (.node child)
  | .prune ref => do
    let n ← resolve site it ref
    let gone ← demand (request (.prune n))
    note site "tree_remove" (.nodes gone)
  | .store ref m => do
    let n ← resolve site it ref
    let old ← request (.store n m)
    note site "store_put" (.payload old)
  | .remark kind text => request (.record (.remark kind text))
  | .raise error => throw (.failed error)
  | .crash message => throw (.crashed message)
  | .attempt action => do
    let failed ← tryCatch (do perform site it action; return none) fun
      | .failed e => return some e
      | .crashed message => throw (.crashed message)
    note site "try" (.attempt failed)
  | .when filter actions => do
    match ← request (.node site.target) with
    | some node => if filter.accepts node then performAll site it actions
    | none => return
  | .each parent actions => do
    let n ← resolve site it parent
    let node ← request (.node n)
    (node.elim [] Node.children).forM fun child => performAll site child actions

def performAll (site : Site) (it : NodeId) : List Action → Job Unit
  | [] => return
  | action :: actions => do
    perform site it action
    performAll site it actions

end

/-- The body that a script describes. -/
def body (actions : List Action) : Body StockMarker := fun site => do
  let (ended, _) ← (performAll site nowhere actions).run.run nowhere
  return ended

end Script

end Trellis
