/-
  Trellis.Planner.Links — the search for causal links.

  The units to order are the nodes of a graph, with one more node for the start of the plan and
  one for its end. Every need is to be met by a link from one of its suppliers. A node that
  removes the fact threatens the link until it is known to come before the supplier or after
  the consumer. The search takes the needs in order, and for each its suppliers in order; it
  settles the threats to a link one by one, putting the threat after the consumer first
  (demotion) and before the supplier second (promotion), and goes back on a choice that leads
  nowhere. Precedences are only ever added, so a settled threat stays settled.

  Effort is bounded: each link, and each threat settled, costs one unit of a budget that one
  search shares. A search that finds it spent gives the branch up.
-/
import Trellis.Fact
import Trellis.Graph.Reach

namespace Trellis.Planner

/-- A fact that a node needs, the nodes that could supply it in the order they are tried, and
    the nodes that remove it. -/
structure Need where
  consumer : Nat
  fact : Fact
  suppliers : List Nat
  removers : List Nat
  deriving DecidableEq

/-- What precedes what, and the edges added to have it so. -/
structure Precedence where
  reach : Graph.Reach
  added : List Edge

namespace Precedence

def reaches (p : Precedence) (a b : Nat) : Bool := p.reach.reaches a b

def add (p : Precedence) (a b : Nat) : Precedence := ⟨p.reach.add a b, ⟨a, b⟩ :: p.added⟩

/-- The precedences of a graph. -/
def ofGraph (g : Graph) : Precedence := ⟨g.reach, []⟩

/-- Whether `remover` cannot come between a supplier and its consumer. -/
def settled (p : Precedence) (consumer supplier remover : Nat) : Bool :=
  remover = consumer || remover = supplier || p.reaches remover supplier
    || p.reaches consumer remover

end Precedence

/-- What a search has spent, and what it came to know. -/
structure Effort where
  spent : Nat
  /-- Whether a branch was given up because the budget was spent. -/
  exhausted : Bool
  /-- The first need found without support. -/
  unsupported : Option Need
  deriving DecidableEq

namespace Effort

def none : Effort := ⟨0, false, .none⟩

/-- The budget of one search. -/
def budget : Nat := 100000

/-- Spends one unit, if there is one left. -/
def charge (e : Effort) : Option Effort :=
  if e.spent = budget then .none else some { e with spent := e.spent + 1 }

def blame (e : Effort) (need : Need) : Effort := { e with unsupported := e.unsupported.or need }

end Effort

/-- A step of the search: the precedences it succeeds with, if any, and the effort so far. -/
abbrev Search := Precedence → Effort → Option Precedence × Effort

namespace Search

/-- `s`, at the cost of one unit. -/
def charged (s : Search) : Search := fun p e =>
  match e.charge with
  | some e => s p e
  | none => (none, { e with exhausted := true })

/-- `s`, or `t` if `s` does not succeed. -/
def orElse (s t : Search) : Search := fun p e =>
  match s p e with
  | (some found, e) => (some found, e)
  | (none, e) => t p e

/-- `s` with `a` put before `b`, unless `b` precedes `a`. -/
def ordering (a b : Nat) (s : Search) : Search := fun p e =>
  if p.reaches b a then (none, e) else s (p.add a b) e

end Search

/-- Settles the threats to a link one after the other, then goes on with `next`. -/
def protect (consumer supplier : Nat) (next : Search) : (threats : List Nat) → Search
  | [] => next
  | r :: threats => fun p e =>
    if p.settled consumer supplier r then protect consumer supplier next threats p e
    else
      let rest := (protect consumer supplier next threats).charged
      ((rest.ordering consumer r).orElse (rest.ordering r supplier)) p e

/-- Tries to meet a need from one of the suppliers, protects the link and goes on with
    `next`. -/
def link (need : Need) (next : Search) : (suppliers : List Nat) → Search
  | [] => fun _ e => (none, e.blame need)
  | s :: suppliers =>
    ((protect need.consumer s next need.removers).charged.ordering s need.consumer).orElse
      (link need next suppliers)

/-- Meets the needs one after the other. -/
def support : (needs : List Need) → Search
  | [] => fun p e => (some p, e)
  | need :: needs => link need (support needs) need.suppliers

end Trellis.Planner
