/-
  Trellis.Invocation — one unit at work on one node.

  An invocation owns the subtree of its target. Edits of the tree happen at once; edits of
  markers are staged, seen by the invocation itself and by nobody else until they are
  committed. An edit outside the subtree is refused, and an edit that is refused or fails
  changes nothing (`attempt`). An edit is taken as one thing here; in place it is made change by
  change, and that what fails has changed nothing by then is shown in `Proofs/Execution/InPlace`.
-/
import Trellis.Session
import Trellis.Work

namespace Trellis

/-- What an invocation has done and not yet committed. -/
structure Staged (τ : Type) where
  markers : OrdMap NodeId (MarkerChanges τ)
  created : List NodeId
  removed : List NodeId

def Staged.none {τ : Type} : Staged τ := ⟨∅, [], []⟩

/-- A session with an invocation going on in it. -/
structure Invocation (τ : Type) [MarkerFamily τ] where
  session : Session τ
  staged : Staged τ
  notes : List Note

namespace Invocation

variable {τ : Type} [MarkerFamily τ] {α : Type} (inv : Invocation τ) (site : Site)

/-- The result of an edit and the state after it; a failed edit leaves the state as it was. -/
def attempt : Except Error (α × Invocation τ) → Except Error α × Invocation τ
  | .ok (a, after) => (.ok a, after)
  | .error e => (.error e, inv)

def checkOwned (n : NodeId) : Except Error Unit :=
  if inv.session.tree.isWithin n site.target then .ok ()
  else .error (.notOwned site.target n)

/-- An edit of the tree, its failure as an error. -/
def onTree : Except TreeError α → Except Error α
  | .ok a => .ok a
  | .error e => .error (.tree e)

/-! ## Markers -/

/-- The changes staged for a node. -/
def changes (n : NodeId) : MarkerChanges τ := (OrdMap.get? inv.staged.markers n).getD ∅

/-- The marker of a type on a node, as the invocation sees it: a staged change hides what is
    committed under its kind. -/
def marker (n : NodeId) (t : τ) : Option Payload :=
  match OrdMap.get? (inv.changes n) (MarkerFamily.kind t) with
  | some (some m) => m.as? t
  | some none => none
  | none => Store.marker inv.session.store n t

/-- All markers of a node, as the invocation sees them. -/
def markers (n : NodeId) : Markers τ := (Store.markers inv.session.store n).changeAll (inv.changes n)

def stageAll (n : NodeId) (cs : MarkerChanges τ) : Invocation τ :=
  { inv with staged := { inv.staged with markers := OrdMap.set inv.staged.markers n cs } }

def stage (n : NodeId) (kind : String) (change : Option (Marker τ)) : Invocation τ :=
  inv.stageAll n (OrdMap.set (inv.changes n) kind change)

def put (n : NodeId) (m : Marker τ) : Except Error (Unit × Invocation τ) := do
  inv.checkOwned site n
  return ((), inv.stage n m.kind (some m))

def unmark (n : NodeId) (t : τ) : Except Error (Option Payload × Invocation τ) := do
  inv.checkOwned site n
  return (inv.marker n t, inv.stage n (MarkerFamily.kind t) none)

/-! ## The tree -/

def withTree (tree : Tree) : Invocation τ := { inv with session := { inv.session with tree } }

def record (e : Event) : Invocation τ := { inv with session := inv.session.record e }

def created (nodes : List NodeId) : Invocation τ :=
  { inv with staged := { inv.staged with created := inv.staged.created ++ nodes } }

/-- Notes that nodes are gone, and forgets what was staged for them. -/
def removed (nodes : List NodeId) : Invocation τ :=
  { inv with
    staged := { inv.staged with
      markers := inv.staged.markers.eraseAll nodes
      removed := inv.staged.removed ++ nodes } }

def add (parent : NodeId) (kind : Kind) (name : String) :
    Except Error (NodeId × Invocation τ) := do
  inv.checkOwned site parent
  let (n, tree) ← onTree (inv.session.tree.add parent kind name)
  let event : Event := ⟨.nodeCreated, site.unit, n, EventKind.nodeCreated.description, none⟩
  return (n, ((inv.withTree tree).record event).created [n])

def remove (n : NodeId) : Except Error (Unit × Invocation τ) := do
  inv.checkOwned site n
  let (gone, tree) ← onTree (inv.session.tree.remove n)
  let event : Event := ⟨.nodeRemoved, site.unit, n, s!"removed {gone.length} nodes", none⟩
  return ((), ((inv.withTree tree).record event).removed gone)

/-- Stages for a copy the markers its source has, each as its type has it. -/
def copyMarkers (pair : NodeId × NodeId) : Invocation τ :=
  let copied := ((inv.markers pair.1).forCopy pair.1 pair.2).asChanges
  if copied.isEmpty then inv else inv.stageAll pair.2 copied

/-- Takes on nodes that have been copied, `copy` on top of them. -/
def adopt (source copy : NodeId) (pairs : List (NodeId × NodeId)) : Invocation τ :=
  let message := s!"cloned {nodeLabel source} ({pairs.length} nodes)"
  let marked := pairs.foldl copyMarkers inv
  (marked.record ⟨.nodeCreated, site.unit, copy, message, none⟩).created (pairs.map Prod.snd)

def clone (source parent : NodeId) : Except Error (NodeId × Invocation τ) := do
  inv.checkOwned site parent
  let (pairs, tree) ← onTree (inv.session.tree.clone source parent)
  let copy := inv.session.tree.next
  return (copy, (inv.withTree tree).adopt site source copy pairs)

/-! ## Past the rules -/

def rename (n : NodeId) (name : String) : Except Error (Unit × Invocation τ) := do
  let tree ← onTree (inv.session.tree.rename n name)
  return ((), inv.withTree tree)

def graft (parent : NodeId) (kind : Kind) (name : String) :
    Except Error (NodeId × Invocation τ) := do
  let (n, tree) ← onTree (inv.session.tree.add parent kind name)
  return (n, inv.withTree tree)

def prune (n : NodeId) : Except Error (List NodeId × Invocation τ) := do
  let (gone, tree) ← onTree (inv.session.tree.remove n)
  return (gone, inv.withTree tree)

def storeMarker (n : NodeId) (m : Marker τ) : Option Payload × Invocation τ :=
  let (old, store) := Store.putMarker inv.session.store n m
  (old, { inv with session := { inv.session with store } })

end Invocation

open Invocation

variable {τ : Type} [MarkerFamily τ]

/-- The reply to a request, and the state after it. -/
def Request.answer (site : Site) (inv : Invocation τ) : (r : Request τ) → r.Reply × Invocation τ
  | poisoned => (inv.session.poisoned, inv)
  | features => (inv.session.features, inv)
  | events => (inv.session.events, inv)
  | tree => (inv.session.tree, inv)
  | node n => (inv.session.tree.get? n, inv)
  | tags n => (Store.tags inv.session.store n, inv)
  | marker n t => (inv.marker n t, inv)
  | put n m => attempt inv (inv.put site n m)
  | unmark n t => attempt inv (inv.unmark site n t)
  | add parent kind name => attempt inv (inv.add site parent kind name)
  | remove n => attempt inv (inv.remove site n)
  | clone source parent => attempt inv (inv.clone site source parent)
  | rename n name => attempt inv (inv.rename n name)
  | graft parent kind name => attempt inv (inv.graft parent kind name)
  | prune n => attempt inv (inv.prune n)
  | store n m => inv.storeMarker n m
  | record e => ((), inv.record e)
  | note n => ((), { inv with notes := inv.notes ++ [n] })

/-- Answers the requests of a body until it ends. -/
def Work.run {α : Type} (site : Site) : Work τ α → Invocation τ → α × Invocation τ
  | done a, inv => (a, inv)
  | ask r next, inv =>
    let (reply, after) := r.answer site inv
    (next reply).run site after

end Trellis
