/-
  Trellis.Event — what happened in a session, in the order in which it happened.

  Events are only ever added. Each has a kind; a kind's description is its message where
  nothing more is to be said. Durations are kept as they come and added up only when the
  times are asked for, so it is `times` and `summary` that an overflow ends, never `record`.
-/
import Trellis.Duration
import Trellis.Forest
import Trellis.Sorted

namespace Trellis

inductive EventKind where
  | stepStarted
  | stepCompleted
  | invocationCompleted
  | invocationFailed
  | nodeSkipped
  | nodeCreated
  | nodeRemoved
  | planWarning
  | info
  | warning
  | error
  deriving DecidableEq

namespace EventKind

/-- The kinds, in the order in which they are counted. -/
def all : List EventKind :=
  [stepStarted, stepCompleted, invocationCompleted, invocationFailed, nodeSkipped, nodeCreated,
    nodeRemoved, planWarning, info, warning, error]

def description : EventKind → String
  | stepStarted => "step started"
  | stepCompleted => "step completed"
  | invocationCompleted => "invocation completed"
  | invocationFailed => "invocation failed"
  | nodeSkipped => "node skipped"
  | nodeCreated => "node created"
  | nodeRemoved => "node removed"
  | planWarning => "plan warning"
  | info => "info"
  | warning => "warning"
  | error => "error"

/-- Whether events of this kind report an edit of the tree. -/
def isStructural : EventKind → Bool
  | nodeCreated | nodeRemoved => true
  | _ => false

/-- Whether events of this kind are meant for whoever reads the log. -/
def isDiagnostic : EventKind → Bool
  | planWarning | info | warning | error => true
  | _ => false

end EventKind

structure Event where
  kind : EventKind
  unit : Option String
  node : Option NodeId
  message : String
  duration : Option Duration
  deriving DecidableEq

namespace Event

/-- An event about nothing but its message. -/
def remark (kind : EventKind) (message : String) : Event := ⟨kind, none, none, message, none⟩

def text (e : Event) : String := s!"[{e.kind.description}] {e.message}"

end Event

structure EventLog where
  events : List Event
  deriving DecidableEq

namespace EventLog

def empty : EventLog := ⟨[]⟩

variable (log : EventLog)

def record (e : Event) : EventLog := ⟨log.events ++ [e]⟩

def size : Nat := log.events.length

def isEmpty : Bool := log.events.isEmpty

def ofKind (k : EventKind) : List Event := log.events.filter (·.kind = k)

def has (k : EventKind) : Bool := log.events.any (·.kind = k)

def count (k : EventKind) : Nat := log.events.countP (·.kind = k)

def ofUnit (unit : String) : List Event := log.events.filter (·.unit = some unit)

def diagnostics : List Event := log.events.filter (·.kind.isDiagnostic)

/-- The kinds that occur, each with how often. -/
def counts : List (EventKind × Nat) :=
  (EventKind.all.map fun k => (k, log.count k)).filter (·.2 ≠ 0)

/-- Adds an event's duration to the time of its unit, if it is a completed invocation's. -/
def addTime (times : OrdMap String Duration) (e : Event) :
    Except Duration.Overflow (OrdMap String Duration) :=
  match e.kind, e.unit, e.duration with
  | .invocationCompleted, some unit, some d => do
    let total ← ((OrdMap.get? times unit).getD .zero).add d
    return OrdMap.set times unit total
  | _, _, _ => return times

/-- The time that completed invocations took, by unit. -/
def times : Except Duration.Overflow (OrdMap String Duration) := log.events.foldlM addTime ∅

/-- How many events of each kind there are, and the times by unit. -/
def summary : Except Duration.Overflow String := do
  if log.isEmpty then return "no events"
  let counts := log.counts.map fun c => s!"{c.2} {c.1.description}"
  let times := (← log.times).toList.map fun t => s!"{t.1}: {t.2.text}"
  return ", ".intercalate (counts ++ times)

end EventLog

end Trellis
