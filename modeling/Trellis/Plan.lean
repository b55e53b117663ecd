/-
  Trellis.Plan — goals, plans and how they are written.

  A plan is a list of steps, one unit each, with the facts it starts from, the facts it ends
  with, and warnings about the units it leaves out.
-/
import Trellis.Catalog

namespace Trellis

inductive Goal where
  | facts (required : FactSet)
  /-- Run whatever can run. -/
  | maximal
  deriving DecidableEq

namespace Goal

def required : Goal → FactSet
  | facts fs => fs
  | maximal => ∅

def text : Goal → String
  | facts fs => "facts [" ++ FactSet.list fs ++ "]"
  | maximal => "maximal"

end Goal

structure Step where
  unit : String
  granularity : Kind
  exclusive : Bool
  deriving DecidableEq

namespace Step

def ofContract (c : Contract) : Step := ⟨c.name, c.granularity, c.exclusive⟩

def text (s : Step) : String :=
  s!"{s.unit} @{s.granularity.label}" ++ if s.exclusive then " (exclusive)" else ""

end Step

/-- Why a unit is left out of a plan. -/
inductive Omission where
  | featureGated (unit feature : String)
  | unreachable (unit : String) (fact : Fact)
  deriving DecidableEq

def Omission.text : Omission → String
  | featureGated unit feature => s!"{unit} omitted, feature {feature} is disabled"
  | unreachable unit fact => s!"{unit} omitted, {fact.label} cannot be produced"

structure Plan where
  goal : Goal
  initial : FactSet
  steps : List Step
  final : FactSet
  omissions : List Omission
  deriving DecidableEq

namespace Plan

variable (p : Plan)

def units : List String := p.steps.map Step.unit

/-- Where a unit stands in the plan. -/
def position? (unit : String) : Option Nat := p.steps.findIdx? (·.unit = unit)

def text : String := "[" ++ ", ".intercalate p.units ++ "]"

/-! ## The long form -/

def listOrNone (fs : FactSet) : String := if fs.isEmpty then "None" else FactSet.list fs

/-- A step with the effects its unit declares in the catalog, if it is there. -/
def stepLine (cat : Catalog) (index : Nat) (s : Step) : String :=
  s!"Step {index}: {s.text}" ++
    match cat.find? s.unit with
    | some c =>
      s!" (needs: {listOrNone c.needs}; adds: {listOrNone c.adds}; " ++
        s!"removes: {listOrNone c.removes})"
    | none => ""

def lines (cat : Catalog) : List String :=
  [s!"Goal: {p.goal.text}", s!"Initial: {FactSet.text p.initial}"]
    ++ p.steps.mapIdx (stepLine cat)
    ++ [s!"Final: {FactSet.text p.final}"]
    ++ p.omissions.map fun o => s!"Warning: {o.text}"

/-- Goal, facts, steps and warnings, a line each. -/
def dump (cat : Catalog) : String := String.join ((p.lines cat).map (· ++ "\n"))

end Plan

end Trellis
