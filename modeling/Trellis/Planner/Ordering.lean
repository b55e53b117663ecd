/-
  Trellis.Planner.Ordering — one attempt to order a selection of units.

  The selected units are the nodes `0, 1, …` in line-up order; after them come the start of
  the plan, which supplies what holds initially, and its end, which needs the goal. Some
  precedences are forced: the start is first and the end last, a used unit precedes its user,
  and the only supplier of a need precedes the consumer. If these go round in a circle there is
  no order. Otherwise links are searched for every need, and of the orders that respect them
  the one is taken that keeps closest to the line-up. It is replayed before it is answered.
-/
import Trellis.Contract
import Trellis.Graph.Cycle
import Trellis.Graph.Linear
import Trellis.Planner.Links

namespace Trellis.Planner

/-- Who asks for the facts of the goal. -/
def goalName : String := "<goal>"

/-- Runs units one after the other. Fails at the first that needs a fact which does not hold. -/
def replay (state : FactSet) : List Contract → Except (Fact × Contract) FactSet
  | [] => .ok state
  | c :: cs =>
    match state.firstMissing c.needs with
    | some f => .error (f, c)
    | none => replay (state.apply c.adds c.removes) cs

inductive Verdict where
  /-- An order, and the facts that hold after it. -/
  | done (order : List Contract) (final : FactSet)
  /-- `fact` is not to be had when `requester` needs it. -/
  | stuck (fact : Fact) (requester : String)
  deriving DecidableEq

structure Attempt where
  outcome : Except Error Verdict
  /-- Whether the search for links gave a branch up because its budget was spent. -/
  exhausted : Bool

/-- What there is to order: units in line-up order, and the facts before and after them. -/
structure Selection where
  units : List Contract
  initial : FactSet
  required : FactSet

namespace Selection

variable (s : Selection)

def startNode : Nat := s.units.length

def endNode : Nat := s.units.length + 1

/-- The nodes of the units that satisfy `p`. -/
def nodesWhere (p : Contract → Bool) : List Nat := (s.units.zipIdx.filter (p ·.1)).map Prod.snd

/-- The start if the fact holds initially, then all other units that add it. -/
def suppliers (consumer : Nat) (f : Fact) : List Nat :=
  (if f ∈ s.initial then [s.startNode] else [])
    ++ (s.nodesWhere (f ∈ ·.adds)).filter (· ≠ consumer)

def need (consumer : Nat) (f : Fact) : Need :=
  ⟨consumer, f, s.suppliers consumer f, s.nodesWhere (f ∈ ·.removes)⟩

/-- The needs of the units in order, then those of the goal. -/
def needs : List Need :=
  s.units.zipIdx.flatMap (fun u => u.1.needs.toList.map (s.need u.2))
    ++ s.required.toList.map (s.need s.endNode)

/-- The edges that put the start first and the end last. -/
def frame : List Edge :=
  ⟨s.startNode, s.endNode⟩
    :: (List.range s.units.length).flatMap fun i => [⟨s.startNode, i⟩, ⟨i, s.endNode⟩]

/-- An edge to each user from every other selected unit that it uses. -/
def useEdges : List Edge :=
  s.units.zipIdx.flatMap fun u =>
    (u.1.uses.toList.filterMap fun name => s.units.findIdx? (·.name = name)).filterMap fun used =>
      if used = u.2 then none else some ⟨used, u.2⟩

/-- An edge to each consumer from the only supplier of one of its needs. -/
def soleEdges : List Edge :=
  s.needs.filterMap fun need =>
    match need.suppliers with
    | [only] => if only = s.startNode then none else some ⟨only, need.consumer⟩
    | _ => none

def forced : Graph :=
  (Graph.discrete (s.units.length + 2)).addAll (s.frame ++ s.useEdges ++ s.soleEdges)

/-- The units among some nodes. -/
def unitsAt (nodes : List Nat) : List Contract := nodes.filterMap (s.units[·]?)

def requester (consumer : Nat) : String :=
  match s.units[consumer]? with
  | some c => c.name
  | none => goalName

/-- Replays an order of the units and looks for the goal. -/
def judge (order : List Contract) : Verdict :=
  match replay s.initial order with
  | .error (f, c) => .stuck f c.name
  | .ok final =>
    match final.firstMissing s.required with
    | some f => .stuck f goalName
    | none => .done order final

/-- Searches links for all needs, beginning with the precedences of a graph. -/
def searchLinks (g : Graph) : Option Precedence × Effort :=
  support s.needs (.ofGraph g) .none

def attempt : Attempt :=
  let g := s.forced
  match g.findCycle with
  | some cycle => ⟨.error (.dependencyCycle ((s.unitsAt cycle).map Contract.name)), false⟩
  | none =>
    match s.searchLinks g with
    | (some p, e) =>
      match (g.addAll p.added).linearize with
      | some nodes => ⟨.ok (s.judge (s.unitsAt nodes)), e.exhausted⟩
      | none => ⟨.error (.inconsistent .cyclicConstraints), e.exhausted⟩
    | (none, e) =>
      match e.unsupported with
      | some need => ⟨.ok (.stuck need.fact (s.requester need.consumer)), e.exhausted⟩
      | none => ⟨.error (.inconsistent .unexplainedDeadEnd), e.exhausted⟩

end Selection

end Trellis.Planner
