/-
  Trellis.Pass — units with something to do, and the crew a plan is run with.

  A pass is a contract with a body, and a filter on the nodes the body is for. A crew holds
  passes by name; their contracts are the catalog to plan from.
-/
import Trellis.Catalog
import Trellis.Work

namespace Trellis

variable {τ : Type} [MarkerFamily τ]

structure Pass (τ : Type) [MarkerFamily τ] where
  contract : Contract
  filter? : Option (Node → Bool)
  body : Body τ

namespace Pass

def name (p : Pass τ) : String := p.contract.name

/-- Without a filter a pass is for every node. -/
def appliesTo (p : Pass τ) (n : Node) : Bool :=
  match p.filter? with
  | some accepts => accepts n
  | none => true

/-- A body that does nothing, and leaves the node to the declared effects. -/
def idle : Body τ := fun _ => .done (.ok ())

end Pass

abbrev Crew (τ : Type) [MarkerFamily τ] := Sorted (Pass.name : Pass τ → String)

namespace Crew

/-- The contracts of the crew. -/
def catalog (crew : Crew τ) : Catalog :=
  ⟨crew.toList.map Pass.contract, List.pairwise_map.2 crew.ascending⟩

/-- Takes a pass on, if its contract can be registered. -/
def register (crew : Crew τ) (p : Pass τ) : Except Error (Crew τ) := do
  let _ ← crew.catalog.register p.contract
  return crew.insert p

def registerAll (crew : Crew τ) (ps : List (Pass τ)) : Except Error (Crew τ) :=
  ps.foldlM register crew

end Crew

end Trellis
