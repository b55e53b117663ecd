/-
  Trellis.Error — everything that can go wrong, by cause, and how it is worded.

  An error belongs to at most one concern: how the catalog is configured, whether a plan
  exists, what a unit did, or the library's own consistency. A unit may also fail with an
  error of its own wording (the `other` causes), and with any error at all.
-/
import Trellis.Fact
import Trellis.Tree

namespace Trellis

/-- Why a unit's contract contradicts itself. -/
inductive Contradiction where
  | addedAndRemoved (fact : Fact)
  /-- Needed, removed, and restored by no other unit. -/
  | neverRestored (fact : Fact)
  | other (text : String)
  deriving DecidableEq

def Contradiction.message : Contradiction → String
  | addedAndRemoved fact => s!"{fact.label} is both added and removed"
  | neverRestored fact => s!"{fact.label} is needed and removed but no other unit adds it"
  | other text => text

/-- Why an effect lies out of a unit's reach. -/
inductive ScopeFault where
  | outOfReach (fact : Fact) (granularity : Kind)
  | other (text : String)
  deriving DecidableEq

def ScopeFault.message : ScopeFault → String
  | outOfReach fact granularity =>
    s!"{fact.label} cannot be changed by a unit running on {granularity.label} nodes"
  | other text => text

/-- What was found not to hold although it should. -/
inductive Inconsistency where
  | unregistered (unit : String)
  | missingTag (unit : String) (tag : Tag) (node : NodeId)
  | missingMarker (unit : String) (kind : String) (node : NodeId)
  /-- The search for links gave up and no need was found unsupported. -/
  | unexplainedDeadEnd
  /-- The links and resolutions found do not order the units. -/
  | cyclicConstraints
  | other (text : String)
  deriving DecidableEq

def Inconsistency.message : Inconsistency → String
  | unregistered unit => s!"Planned unit {unit} is not registered"
  | missingTag unit tag node =>
    s!"{unit} needs {tag.label} but node {nodeLabel node} does not carry it"
  | missingMarker unit kind node =>
    s!"{unit} needs {markerLabel kind} but node {nodeLabel node} has none in reach"
  | unexplainedDeadEnd => "link search failed without an unsupported need"
  | cyclicConstraints => "constraint graph became cyclic while resolving removals"
  | other text => text

inductive Error where
  | duplicate (unit : String)
  | contradictory (unit : String) (why : Contradiction)
  | unproducible (fact : Fact) (unit : String)
  | unresolvedUses (unit target : String)
  | missingAdapter (kind : Kind)
  | invalidScope (unit : String) (why : ScopeFault)
  | unsatisfiable (fact : Fact) (unit : String)
  | dependencyCycle (units : List String)
  | featureDisabled (fact : Fact) (unit feature : String)
  | invocation (unit : String) (node : NodeId) (source : Error)
  | failure (text file : String) (line : Nat)
  | notOwned (owner target : NodeId)
  | tree (why : TreeError)
  | inconsistent (why : Inconsistency)
  | sessionPoisoned
  | lockBroken
  | other (text : String)
  deriving DecidableEq

namespace Error

def message : Error → String
  | duplicate unit => s!"Duplicate descriptor - {unit}"
  | contradictory unit why => s!"Contradictory descriptor {unit}: {why.message}"
  | unproducible fact unit => s!"Fact {fact.label} needed by {unit} has no producer"
  | unresolvedUses unit target => s!"Unit {unit} uses unregistered unit {target}"
  | missingAdapter kind => s!"No adapter chain reaches {kind.label}"
  | invalidScope unit why => s!"Invalid scope in {unit}: {why.message}"
  | unsatisfiable fact unit => s!"Cannot satisfy {fact.label} for {unit}"
  | dependencyCycle units => "Dependency cycle between units: " ++ " -> ".intercalate units
  | featureDisabled fact unit feature =>
    s!"Fact {fact.label} is only produced by {unit}, which needs disabled feature {feature}"
  | invocation unit node source =>
    s!"Unit {unit} failed on node {nodeLabel node}: " ++ source.message
  | failure text file line => s!"Failure - {file}:{line}: {text}"
  | notOwned owner target =>
    s!"Node {nodeLabel target} is outside the subtree of {nodeLabel owner}"
  | tree why => why.message
  | inconsistent why => s!"Internal consistency violation - {why.message}"
  | sessionPoisoned => "Session was poisoned by an earlier failure"
  | lockBroken => "Failed to lock target"
  | other text => text

end Error

/-- What an error is about. -/
inductive Concern where
  | configuration
  | planning
  | invocation
  | internal
  deriving DecidableEq

/-- An error in a unit's own words is about nothing the library knows. -/
def Error.concern? : Error → Option Concern
  | duplicate _ | contradictory _ _ | unproducible _ _ | unresolvedUses _ _ | missingAdapter _
  | invalidScope _ _ => some .configuration
  | unsatisfiable _ _ | dependencyCycle _ | featureDisabled _ _ _ => some .planning
  | invocation _ _ _ | failure _ _ _ | notOwned _ _ | tree _ => some .invocation
  | inconsistent _ | sessionPoisoned | lockBroken => some .internal
  | other _ => none

/-! ## Computations that can fail -/

theorem bind_eq_ok {ε α β : Type} {x : Except ε α} {f : α → Except ε β} {b : β} :
    (x >>= f) = .ok b ↔ ∃ a, x = .ok a ∧ f a = .ok b := by
  cases x with
  | error e =>
    constructor
    · intro h
      cases h
    · intro h
      obtain ⟨a, h, -⟩ := h
      cases h
  | ok a =>
    constructor
    · exact fun h => ⟨a, rfl, h⟩
    · intro h
      obtain ⟨b, h, hb⟩ := h
      cases h
      exact hb

/-- A failure to do something is one of its first part, or of the rest. -/
theorem bind_eq_error {ε α β : Type} {x : Except ε α} {f : α → Except ε β} {e : ε} :
    (x >>= f) = .error e ↔ x = .error e ∨ ∃ a, x = .ok a ∧ f a = .error e := by
  cases x with
  | error e' =>
    constructor
    · intro h
      cases h
      exact .inl rfl
    · rintro (h | ⟨a, h, -⟩)
      · cases h
        rfl
      · cases h
  | ok a =>
    constructor
    · exact fun h => .inr ⟨a, rfl, h⟩
    · rintro (h | ⟨b, h, hb⟩)
      · cases h
      · cases h
        exact hb

end Trellis
