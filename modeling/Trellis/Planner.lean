/-
  Trellis.Planner — from a goal to a plan.

  A maximal goal selects every reachable unit; a goal of facts selects producers until every
  fact and every need of a selected unit is covered. The selection is then ordered. Where that
  gets stuck on a fact, one more producer of it is selected, with producers for its needs, and
  the larger selection is ordered anew; a producer is selected once, so this ends.

  Catalogs are ordered by name and units by hint and name, so a plan depends on what is
  registered and not on when.
-/
import Trellis.Plan
import Trellis.Planner.Ordering
import Trellis.Planner.Problem

namespace Trellis

namespace Planner

/-- What to say of units that are left out because a feature is off. -/
inductive GatePolicy where
  | silent
  | warn
  deriving DecidableEq

structure Config where
  gatePolicy : GatePolicy
  /-- Whether to validate the catalog first. -/
  validate : Bool
  deriving DecidableEq

namespace Config

def default : Config := ⟨.warn, true⟩

end Config

/-- An ordering attempt, with the units it was made for. -/
structure Trial where
  selected : List Contract
  attempt : Attempt

/-- The outcome of planning, with the attempts made on the way. -/
structure Course where
  outcome : Except Error (List Contract × List Contract × FactSet)
  trials : List Trial

namespace Problem

variable (p : Problem)

/-- The selected units in line-up order, with the facts before and after them. -/
def selection (required : FactSet) (selected : List Contract) : Selection :=
  ⟨p.lineup.toList.filter (· ∈ selected), p.initial, required⟩

/-- The units that a goal asks for to begin with. -/
def initialSelection : Goal → Except Error (List Contract)
  | .maximal => .ok (p.lineup.toList.filter p.reachable)
  | .facts fs => p.close (fs.toList.map (·, goalName)) []

/-- Orders the selection, enlarging it wherever a fact is not to be had. Answers the selection
    that could be ordered, its order and the facts that hold after it. -/
def settle (required : FactSet) (selected : List Contract) : Course :=
  let attempt := (p.selection required selected).attempt
  let trial : Trial := ⟨selected, attempt⟩
  match attempt.outcome with
  | .error e => ⟨.error e, [trial]⟩
  | .ok (.done order final) => ⟨.ok (selected, order, final), [trial]⟩
  | .ok (.stuck f requester) =>
    match _chosen : p.chooseProducer f requester selected with
    | .error e => ⟨.error e, [trial]⟩
    | .ok c =>
      match _closed : p.select c selected with
      | .error e => ⟨.error e, [trial]⟩
      | .ok larger =>
        let course := settle required larger
        { course with trials := trial :: course.trials }
termination_by p.unselected selected
decreasing_by
  obtain ⟨⟨hc, -⟩, -, hn⟩ := mem_candidates.1 (mem_candidates_of_chooseProducer _chosen)
  exact Nat.lt_of_le_of_lt (unselected_le (closed_subset _closed)) (unselected_lt hc hn)

/-- Ordering attempts and outcome for a goal. -/
def solve (goal : Goal) : Course :=
  match p.initialSelection goal with
  | .error e => ⟨.error e, []⟩
  | .ok selected => p.settle goal.required selected

/-! ## Omissions -/

/-- The eligible units that cannot be reached, each with the first need that is not derivable. -/
def unreachable : List Omission :=
  (p.lineup.toList.filter p.eligible).filterMap fun c =>
    (p.derivable.firstMissing c.needs).map (.unreachable c.name ·)

/-- Whether a unit would have added something that was asked for. -/
def wouldHelp (required : FactSet) (selected : List Contract) (c : Contract) : Bool :=
  c.adds.toList.any fun f => f ∈ required || selected.any (f ∈ ·.needs)

/-- The units whose features are not all on, each with the first that is off; for a goal of
    facts only those that would have helped. -/
def gated (goal : Goal) (selected : List Contract) : List Omission :=
  p.lineup.toList.filterMap fun c =>
    if goal = .maximal || wouldHelp goal.required selected c then
      (p.firstDisabled c).map (.featureGated c.name ·)
    else none

def omissions (policy : GatePolicy) (goal : Goal) (selected : List Contract) : List Omission :=
  (if goal = .maximal then p.unreachable else [])
    ++ (if policy = .warn then p.gated goal selected else [])

def planFor (policy : GatePolicy) (goal : Goal) : Except Error Plan := do
  let (selected, order, final) ← (p.solve goal).outcome
  return ⟨goal, p.initial, order.map Step.ofContract, final, p.omissions policy goal selected⟩

end Problem

/-- What validation has to say before planning, if it was asked for. -/
def checked (config : Config) (report : Except Error Catalog.Report) : Except Error Unit :=
  if config.validate then report >>= Catalog.Report.toExcept else .ok ()

/-- The catalog check that precedes planning. -/
def validated (config : Config) (cat : Catalog) (initial : FactSet) : Except Error Unit :=
  checked config (cat.validate initial)

end Planner

open Planner in
/-- The plan for a goal, from the facts that hold initially. -/
def plan (cat : Catalog) (features : Features) (config : Planner.Config) (initial : FactSet)
    (goal : Goal) : Except Error Plan := do
  validated config cat initial
  (Problem.new cat features initial).planFor config.gatePolicy goal

end Trellis
