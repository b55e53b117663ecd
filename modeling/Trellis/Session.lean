/-
  Trellis.Session — what plans run against: the program tree with its tags and markers, the
  feature switches and the event log.

  A session is poisoned by a failed execution and stays so. The lock that exclusive units hold
  while they run breaks if one of them crashes, and stays broken.
-/
import Trellis.Event
import Trellis.Feature
import Trellis.Store
import Trellis.Tree

namespace Trellis

structure Session (τ : Type) [MarkerFamily τ] where
  tree : Tree
  store : Store τ
  features : Features
  events : EventLog
  lockBroken : Bool
  poisoned : Bool

namespace Session

variable {τ : Type} [MarkerFamily τ]

def new (tree : Tree) (features : Features) : Session τ :=
  ⟨tree, ∅, features, .empty, false, false⟩

def record (s : Session τ) (e : Event) : Session τ := { s with events := s.events.record e }

/-- Puts a tag on each of some nodes. -/
def tagAll (store : Store τ) (nodes : List NodeId) (tag : Tag) : Store τ :=
  nodes.foldl (fun store n => Store.insertTag store n tag) store

/-- Puts every tag of `initial` on all nodes of its scope. -/
def seed (s : Session τ) (initial : FactSet) : Session τ :=
  { s with
    store := initial.tags.foldl (fun store tag =>
      tagAll store (s.tree.nodesOfKind tag.scope) tag) s.store }

end Session

end Trellis
