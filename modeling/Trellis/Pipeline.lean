/-
  Trellis.Pipeline — validate, plan and execute in one go.

  A pipeline touches the session only once everything that can be found out beforehand is in
  order: the catalog is valid, every granularity in it can be expanded, and there is a plan.
-/
import Trellis.Execution
import Trellis.Planner

namespace Trellis

structure Pipeline (τ : Type) [MarkerFamily τ] where
  engine : Engine τ
  planning : Planner.Config

namespace Pipeline

variable {τ : Type} [MarkerFamily τ] (p : Pipeline τ)

def catalog : Catalog := p.engine.crew.catalog

/-- Whether every granularity of the catalog can be reached from the program. -/
def checkChains : Except Error Unit :=
  p.catalog.granularities.forM fun k => do let _ ← p.engine.adapters.chain k

def validate (initial : FactSet) : Except Error Catalog.Report := do
  let report ← p.catalog.validate initial
  p.checkChains
  return report

def plan (s : Session τ) (initial : FactSet) (goal : Goal) : Except Error Plan :=
  Trellis.plan p.catalog s.features p.planning initial goal

/-- What is found out before the session is touched: the plan to execute. -/
def prepare (s : Session τ) (initial : FactSet) (goal : Goal) : Except Error Plan := do
  (← p.validate initial).toExcept
  p.plan s initial goal

def run (s : Session τ) (initial : FactSet) (goal : Goal) :
    Except Stop (List StepReport) × Run τ :=
  match p.prepare s initial goal with
  | .error e => (.error (.failed e), .ofSession s)
  | .ok plan => p.engine.execute plan s

end Pipeline

end Trellis
