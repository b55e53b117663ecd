/-
  Trellis.Store — the tags and markers of nodes.

  The store has an entry for a node from the first time something is written there until the
  node is dropped; an entry may be empty again. Reading a node without an entry finds nothing,
  and taking something away from it makes none.
-/
import Trellis.Fact
import Trellis.Marker

namespace Trellis

structure Entry (τ : Type) [MarkerFamily τ] where
  tags : OrdSet Tag
  markers : Markers τ

abbrev Store (τ : Type) [MarkerFamily τ] := OrdMap NodeId (Entry τ)

namespace Store

variable {τ : Type} [MarkerFamily τ] (s : Store τ) (n : NodeId)

/-! ## Reading -/

def lookup : Option (Entry τ) := OrdMap.get? s n

/-- What is known of a node, nothing if it has no entry. -/
def entry : Entry τ := (lookup s n).getD ⟨∅, ∅⟩

def tags : OrdSet Tag := (entry s n).tags

def markers : Markers τ := (entry s n).markers

def hasTag (tag : Tag) : Bool := tag ∈ tags s n

def marker (t : τ) : Option Payload := (markers s n).get t

def hasMarker (kind : String) : Bool := (markers s n).hasKey kind

/-! ## Writing -/

/-- Writes to the entry of a node, which is made if there is none. -/
def write (f : Entry τ → Entry τ) : Store τ := OrdMap.set s n (f (entry s n))

/-- Changes the entry of a node, if there is one. -/
def amend (f : Entry τ → Entry τ) : Store τ := OrdMap.adjust s n f

/-- Puts a marker on a node, and answers the payload it replaces if that was of the same
    type. -/
def putMarker (m : Marker τ) : Option Payload × Store τ :=
  (marker s n m.type, write s n fun e => { e with markers := e.markers.insert m })

/-- Takes the marker of a type's kind off a node, and answers its payload if it was of that
    type. -/
def takeMarker (t : τ) : Option Payload × Store τ :=
  (marker s n t, amend s n fun e => { e with markers := e.markers.erase (MarkerFamily.kind t) })

def clearMarker (kind : String) : Store τ :=
  amend s n fun e => { e with markers := e.markers.erase kind }

def applyChanges (cs : MarkerChanges τ) : Store τ :=
  write s n fun e => { e with markers := e.markers.changeAll cs }

def insertTag (tag : Tag) : Store τ := write s n fun e => { e with tags := e.tags.insert tag }

def removeTag (tag : Tag) : Store τ := amend s n fun e => { e with tags := e.tags.erase tag }

/-- Forgets a node. -/
def drop : Store τ := s.erase n

end Store

end Trellis
