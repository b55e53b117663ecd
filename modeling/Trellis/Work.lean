/-
  Trellis.Work — what a unit does, as a conversation with the engine.

  The body of a unit is a tree of requests: each request is answered, and the answer decides
  how the body goes on, until it ends. A body holds no state of the session itself, so whatever
  is true of every single request is true of every body made of them. How requests are answered
  is said in `Invocation.lean`.

  Edits by `put`, `unmark`, `add`, `remove` and `clone` are confined to the subtree of the
  target and go by the rules of an invocation. The requests `rename`, `graft`, `prune` and
  `store` reach past those into the session itself.
-/
import Trellis.Error
import Trellis.Event
import Trellis.Feature
import Trellis.Marker

namespace Trellis

/-- What a body has to tell about a request it made. -/
inductive Reading where
  | standing (unit : String) (node : NodeId) (kind : Kind) (poisoned : Bool)
  | payload (found : Option Payload)
  | flag (holds : Bool)
  | tags (tags : FactSet)
  | node (n : NodeId)
  | nodes (ns : List NodeId)
  /-- How an attempt ended. -/
  | attempt (failed : Option Error)
  deriving DecidableEq

structure Note where
  unit : String
  node : NodeId
  action : String
  reading : Reading
  deriving DecidableEq

/-- Where an invocation takes place. -/
structure Site where
  unit : String
  target : NodeId
  kind : Kind
  deriving DecidableEq

inductive Request (τ : Type) where
  /-- Whether the session is poisoned. -/
  | poisoned
  | features
  /-- All that has been recorded so far, by whomever. -/
  | events
  /-- The whole tree. -/
  | tree
  | node (n : NodeId)
  /-- The committed tags of a node. -/
  | tags (n : NodeId)
  /-- The marker of a type on a node, staged or else committed. -/
  | marker (n : NodeId) (type : τ)
  | put (n : NodeId) (m : Marker τ)
  | unmark (n : NodeId) (type : τ)
  | add (parent : NodeId) (kind : Kind) (name : String)
  | remove (n : NodeId)
  | clone (source parent : NodeId)
  | rename (n : NodeId) (name : String)
  | graft (parent : NodeId) (kind : Kind) (name : String)
  | prune (n : NodeId)
  | store (n : NodeId) (m : Marker τ)
  | record (e : Event)
  | note (n : Note)

namespace Request

variable {τ : Type} [MarkerFamily τ]

/-- What a request is answered with. -/
def Reply : Request τ → Type
  | poisoned => Bool
  | features => Features
  | events => EventLog
  | tree => Tree
  | node _ => Option Node
  | tags _ => OrdSet Tag
  | marker _ _ => Option Payload
  | put _ _ => Except Error Unit
  | unmark _ _ => Except Error (Option Payload)
  | add _ _ _ => Except Error NodeId
  | remove _ => Except Error Unit
  | clone _ _ => Except Error NodeId
  | rename _ _ => Except Error Unit
  | graft _ _ _ => Except Error NodeId
  | prune _ => Except Error (List NodeId)
  | store _ _ => Option Payload
  | record _ => Unit
  | note _ => Unit

end Request

/-- A conversation that ends with an `α`. -/
inductive Work (τ : Type) [MarkerFamily τ] (α : Type) where
  | done (result : α)
  | ask (request : Request τ) (next : request.Reply → Work τ α)

namespace Work

variable {τ : Type} [MarkerFamily τ] {α β : Type}

def bind : Work τ α → (α → Work τ β) → Work τ β
  | done a, f => f a
  | ask r next, f => ask r fun reply => (next reply).bind f

instance : Monad (Work τ) where
  pure := .done
  bind := Work.bind

/-- A single request, ending with its reply. -/
def request (r : Request τ) : Work τ r.Reply := .ask r .done

end Work

/-- How a body ends before its time: with an error, or with none of its own accord. -/
inductive Stop where
  | failed (e : Error)
  | crashed (message : String)
  deriving DecidableEq

/-- What a unit does at a site. -/
abbrev Body (τ : Type) [MarkerFamily τ] := Site → Work τ (Except Stop Unit)

end Trellis
