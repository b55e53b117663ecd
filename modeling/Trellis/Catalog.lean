/-
  Trellis.Catalog — the contracts that planning chooses from, by name.

  A name is taken once: registering a second unit under it fails and changes nothing. The
  catalog is a value ordered by name, so it does not depend on the order of registration, and
  its indexes are read off it.

  `validate` checks the catalog as a whole against the facts that hold initially. It fails on
  the first unit using an unregistered one, then on the first unit that needs and removes a
  fact no other unit adds; otherwise it reports every need that nothing can meet. The producers
  it asks for are those of an index, which may be kept elsewhere (`validateOn`).
-/
import Trellis.Contract

namespace Trellis

abbrev Catalog := Sorted Contract.name

namespace Catalog

variable (cat : Catalog)

/-- Takes a contract in, if it is valid and its name is not taken. -/
def register (c : Contract) : Except Error Catalog := do
  let c ← c.check
  if cat.hasKey c.name then throw (.duplicate c.name)
  return cat.insert c

def registerAll (cs : List Contract) : Except Error Catalog := cs.foldlM register cat

def names : List String := cat.toList.map Contract.name

def producersOf (f : Fact) : List String := (cat.toList.filter (f ∈ ·.adds)).map Contract.name

def consumersOf (f : Fact) : List String := (cat.toList.filter (f ∈ ·.needs)).map Contract.name

def atGranularity (k : Kind) : List String :=
  (cat.toList.filter (·.granularity = k)).map Contract.name

/-- The kinds at which some unit runs. -/
def granularities : List Kind := Kind.all.filter fun k => cat.toList.any (·.granularity = k)

/-! ## Validation -/

/-- The needs that nothing can meet, each with the unit that has it. -/
structure Report where
  unproducible : List (Fact × String)
  deriving DecidableEq

namespace Report

def isClean (r : Report) : Bool := r.unproducible.isEmpty

/-- The first finding, as an error. -/
def toExcept (r : Report) : Except Error Unit :=
  match r.unproducible with
  | (f, unit) :: _ => .error (.unproducible f unit)
  | [] => .ok ()

end Report

/-- The first unit that `c` uses and nobody registered. -/
def unresolved? (c : Contract) : Option String := c.uses.toList.find? (!cat.hasKey ·)

section

variable (producersOf : Fact → List String)

/-- The first fact that `c` needs and removes and no other unit adds. -/
def neverRestored? (c : Contract) : Option Fact :=
  c.needs.toList.find? fun f => f ∈ c.removes && !(producersOf f).any (· ≠ c.name)

def unproducible (initial : FactSet) (c : Contract) : List (Fact × String) :=
  (c.needs.toList.filter fun f => f ∉ initial && (producersOf f).isEmpty).map (·, c.name)

def validateOn (initial : FactSet) : Except Error Report :=
  match cat.toList.findSome? fun c => (unresolved? cat c).map (c.name, ·) with
  | some (unit, target) => .error (.unresolvedUses unit target)
  | none =>
    match cat.toList.findSome? fun c => (neverRestored? producersOf c).map (c.name, ·) with
    | some (unit, f) => .error (.contradictory unit (.neverRestored f))
    | none => .ok ⟨cat.toList.flatMap (unproducible producersOf initial)⟩

end

def validate (initial : FactSet) : Except Error Report := validateOn cat (producersOf cat) initial

end Catalog

end Trellis
