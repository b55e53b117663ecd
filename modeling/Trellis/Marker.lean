/-
  Trellis.Marker — typed markers, what becomes of them in a copy, and the markers of a node.

  The marker types of an application form a `MarkerFamily`: each type has a kind, under which
  facts and nodes know it, and a clone policy. Several types may share a kind; a node has at
  most one marker of a kind, whatever its type. Reading through a type answers nothing when
  the node holds a marker of another type of that kind.
-/
import Trellis.Forest
import Trellis.Sorted

namespace Trellis

inductive Payload where
  | text (value : String)
  | number (value : Int)
  deriving DecidableEq

/-- What becomes of a marker when its node is copied: the same, nothing, or what a rule makes
    of the source node, the copy and the payload. -/
inductive ClonePolicy where
  | copy
  | drop
  | regenerate (rule : NodeId → NodeId → Payload → Option Payload)

class MarkerFamily (τ : Type) where
  decEq : DecidableEq τ
  kind : τ → String
  onClone : τ → ClonePolicy

instance (priority := low) {τ : Type} [MarkerFamily τ] : DecidableEq τ := MarkerFamily.decEq

structure Marker (τ : Type) where
  type : τ
  payload : Payload
  deriving DecidableEq

namespace Marker

variable {τ : Type} [MarkerFamily τ]

def kind (m : Marker τ) : String := MarkerFamily.kind m.type

/-- The payload, if the marker is of type `t`. -/
def as? (m : Marker τ) (t : τ) : Option Payload := if m.type = t then some m.payload else none

/-- The marker that `copy` gets when it is made from `source`. -/
def forCopy (source copy : NodeId) (m : Marker τ) : Option (Marker τ) :=
  match MarkerFamily.onClone m.type with
  | .copy => some m
  | .drop => none
  | .regenerate rule => (rule source copy m.payload).map (⟨m.type, ·⟩)

end Marker

/-- The markers of one node, by kind. -/
abbrev Markers (τ : Type) [MarkerFamily τ] := Sorted (Marker.kind : Marker τ → String)

/-- Changes to the markers of one node: for a kind, its new marker or none. -/
abbrev MarkerChanges (τ : Type) := OrdMap String (Option (Marker τ))

namespace Markers

variable {τ : Type} [MarkerFamily τ]

def get (ms : Markers τ) (t : τ) : Option Payload :=
  (ms.find? (MarkerFamily.kind t)).bind (·.as? t)

/-- Puts a marker in, and answers the payload it replaces if that was of the same type. -/
def put (ms : Markers τ) (m : Marker τ) : Option Payload × Markers τ :=
  (get ms m.type, ms.insert m)

/-- Takes the marker of a type's kind out, whatever its type, and answers its payload if it
    was of that type. -/
def take (ms : Markers τ) (t : τ) : Option Payload × Markers τ :=
  (get ms t, ms.erase (MarkerFamily.kind t))

def kinds (ms : Markers τ) : List String := ms.toList.map Marker.kind

/-- The markers of a copy. -/
def forCopy (ms : Markers τ) (source copy : NodeId) : Markers τ :=
  Sorted.ofList (ms.toList.filterMap (Marker.forCopy source copy))

def change (ms : Markers τ) (kind : String) : Option (Marker τ) → Markers τ
  | some m => ms.insert m
  | none => ms.erase kind

def changeAll (ms : Markers τ) (cs : MarkerChanges τ) : Markers τ :=
  cs.toList.foldl (fun ms c => change ms c.1 c.2) ms

/-- The changes that put these markers onto a node. -/
def asChanges (ms : Markers τ) : MarkerChanges τ :=
  Sorted.ofList (ms.toList.map fun m => (m.kind, some m))

end Markers

end Trellis
