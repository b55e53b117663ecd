/-
  Trellis.Roster — a crew with indexes beside it.

  Who adds a fact, who needs it and who runs at a kind is filed call by call, in three maps that a
  registration changes by hand. From then on the maps are trusted: validating the roster and
  planning with it look producers up there and do not ask the contracts again.

  A plan can rely on the index of producers if it says what the contracts say (`Mirrors`), which
  is what a problem asks of its producers.
-/
import Trellis.Execution
import Trellis.Planner

namespace Trellis

open Std (TransOrd LawfulEqOrd)

/-! ## Names on file -/

/-- Names filed under keys. -/
abbrev Files (κ : Type) [Ord κ] := OrdMap κ (OrdSet String)

namespace Files

variable {κ : Type} [Ord κ] [DecidableEq κ]

/-- The names filed under `k`, of which there may be none. -/
def under (m : Files κ) (k : κ) : OrdSet String := (OrdMap.get? m k).getD ∅

/-- The keys under which something was filed, in their order. -/
def keys (m : Files κ) : List κ := m.toList.map Prod.fst

variable [TransOrd κ] [LawfulEqOrd κ]

def file (name : String) (m : Files κ) (k : κ) : Files κ := OrdMap.set m k ((under m k).insert name)

/-- Files a name under one key after the other. -/
def fileAll (m : Files κ) (name : String) (ks : List κ) : Files κ := ks.foldl (file name) m

end Files

/-! ## Registration -/

/-- A crew with its indexes beside it. -/
structure Roster (τ : Type) [MarkerFamily τ] where
  crew : Crew τ
  producers : Files Fact
  consumers : Files Fact
  runners : Files Kind

namespace Roster

variable {τ : Type} [MarkerFamily τ]

def empty : Roster τ := ⟨∅, ∅, ∅, ∅⟩

/-- The pass joins the crew, and its name goes under what it adds, what it needs and where it
    runs. -/
def take (r : Roster τ) (p : Pass τ) : Roster τ where
  crew := r.crew.insert p
  producers := r.producers.fileAll p.name p.contract.adds.toList
  consumers := r.consumers.fileAll p.name p.contract.needs.toList
  runners := r.runners.fileAll p.name [p.contract.granularity]

/-- Takes a pass on if its contract is valid and its name is new. A refusal comes before anything
    is filed. -/
def register (r : Roster τ) (p : Pass τ) : Except Error Unit × Roster τ :=
  match p.contract.check with
  | .error e => (.error e, r)
  | .ok c => if r.crew.hasKey c.name then (.error (.duplicate c.name), r) else (.ok (), r.take p)

/-- The roster after some calls, refused or not. -/
def registerEach (r : Roster τ) (ps : List (Pass τ)) : Roster τ :=
  ps.foldl (fun r p => (r.register p).2) r

def producersOf (r : Roster τ) (f : Fact) : List String := (r.producers.under f).toList

def consumersOf (r : Roster τ) (f : Fact) : List String := (r.consumers.under f).toList

def atGranularity (r : Roster τ) (k : Kind) : List String := (r.runners.under k).toList

def granularities (r : Roster τ) : List Kind := r.runners.keys

/-- Read, the maps are the indexes of the catalog. -/
structure Mirrors (r : Roster τ) : Prop where
  producers : ∀ f, r.producersOf f = r.crew.catalog.producersOf f
  consumers : ∀ f, r.consumersOf f = r.crew.catalog.consumersOf f
  runners : ∀ k, r.atGranularity k = r.crew.catalog.atGranularity k
  granularities : r.granularities = r.crew.catalog.granularities

end Roster

/-! ## Validation and planning -/

namespace Planner

/-- The units of some names, in line. -/
def pick (cat : Catalog) (names : List String) : List Contract :=
  (Sorted.ofList (names.filterMap cat.find?) : Lineup).toList

/-- Picked by the names that the catalog lists as producers, they are all that add the fact. -/
theorem pick_producersOf (cat : Catalog) (features : Features) (initial : FactSet) (f : Fact) :
    pick cat (cat.producersOf f) = adders (Problem.new cat features initial).lineup f := by
  have named (c : Contract) : c ∈ (cat.producersOf f).filterMap cat.find? ↔ c ∈ cat ∧ f ∈ c.adds := by
    simp only [List.mem_filterMap, Catalog.producersOf, List.mem_map, List.mem_filter,
      Sorted.mem_toList, decide_eq_true_eq, Sorted.find?_eq_some]
    constructor
    · rintro ⟨name, ⟨d, ⟨hd, hf⟩, rfl⟩, hc, hname⟩
      rw [Sorted.eq_of_key_eq hc hd hname]
      exact ⟨hd, hf⟩
    · rintro ⟨hc, hf⟩
      exact ⟨c.name, ⟨c, ⟨hc, hf⟩, rfl⟩, hc, rfl⟩
  have distinct : ∀ a ∈ (cat.producersOf f).filterMap cat.find?,
      ∀ b ∈ (cat.producersOf f).filterMap cat.find?, a.turn = b.turn → a = b := by
    intro a ha b hb h
    exact Sorted.eq_of_key_eq ((named a).1 ha).1 ((named b).1 hb).1 (congrArg Turn.name h)
  have same : (Sorted.ofList ((cat.producersOf f).filterMap cat.find?) : Lineup) =
      (Problem.new cat features initial).lineup.filter (f ∈ ·.adds) := by
    refine Sorted.ext_mem fun c => ?_
    rw [Sorted.mem_ofList distinct, named, Sorted.mem_filter, Problem.mem_lineup,
      decide_eq_true_eq]
  exact congrArg Sorted.toList same

end Planner

namespace Roster

variable {τ : Type} [MarkerFamily τ] (r : Roster τ)

def validate (initial : FactSet) : Except Error Catalog.Report :=
  r.crew.catalog.validateOn r.producersOf initial

open Planner

/-- What planning chooses from: the producers of a fact are those on file. -/
def problem (h : r.Mirrors) (features : Features) (initial : FactSet) : Problem :=
  let p := Problem.new r.crew.catalog features initial
  { p with
    producers := fun f => pick r.crew.catalog (r.producersOf f)
    producers_eq := funext fun f => by rw [h.producers, pick_producersOf _ features initial] }

def plan (h : r.Mirrors) (features : Features) (config : Config) (initial : FactSet) (goal : Goal) :
    Except Error Plan := do
  checked config (r.validate initial)
  (r.problem h features initial).planFor config.gatePolicy goal

end Roster

end Trellis
