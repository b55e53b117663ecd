/-
  Trellis.Contract — what a unit declares about itself; the planner knows nothing else of it.

  A unit needs facts before it runs, and adds and removes facts by running. It runs on the
  nodes of one kind, its granularity, and can change only tags of kinds that occur below such
  nodes. `check` accepts a contract exactly when it adds and removes different facts and all
  of them are in reach (`check_eq_ok`).
-/
import Trellis.Error

namespace Trellis

structure Contract where
  name : String
  description : String
  granularity : Kind
  needs : FactSet
  adds : FactSet
  removes : FactSet
  /-- All of these features have to be on for the unit to take part. -/
  features : OrdSet String
  /-- Units that run before this one wherever both are planned. -/
  uses : OrdSet String
  /-- Whether at most one invocation of an exclusive unit may run at a time. -/
  exclusive : Bool
  /-- Among units that could run next, the one with the least hint does. -/
  orderHint : Int
  deriving DecidableEq

namespace Contract

variable (c : Contract)

def addedAndRemoved? : Option Fact := c.adds.toList.find? (· ∈ c.removes)

def inReach (f : Fact) : Bool :=
  match f.scope? with
  | some scope => c.granularity.encloses scope
  | none => true

def outOfReach? : Option Fact := (c.adds.toList ++ c.removes.toList).find? (!c.inReach ·)

def check : Except Error Contract :=
  match c.addedAndRemoved? with
  | some f => .error (.contradictory c.name (.addedAndRemoved f))
  | none =>
    match c.outOfReach? with
    | some f => .error (.invalidScope c.name (.outOfReach f c.granularity))
    | none => .ok c

/-- What `check` asks for. -/
structure Valid : Prop where
  disjoint : ∀ f ∈ c.adds, f ∉ c.removes
  adds_inReach : ∀ f ∈ c.adds, c.inReach f
  removes_inReach : ∀ f ∈ c.removes, c.inReach f

theorem addedAndRemoved?_eq_none : c.addedAndRemoved? = none ↔ ∀ f ∈ c.adds, f ∉ c.removes := by
  simp [addedAndRemoved?, Sorted.mem_toList]

theorem outOfReach?_eq_none :
    c.outOfReach? = none ↔ ∀ f, f ∈ c.adds ∨ f ∈ c.removes → c.inReach f := by
  simp [outOfReach?, Sorted.mem_toList, or_imp, forall_and]

theorem check_eq_ok {c d : Contract} : c.check = .ok d ↔ d = c ∧ c.Valid := by
  rw [check]
  split
  · rename_i f h
    refine ⟨nofun, fun ⟨_, v⟩ => ?_⟩
    rw [c.addedAndRemoved?_eq_none.2 v.disjoint] at h
    cases h
  · rename_i hd
    split
    · rename_i f h
      refine ⟨nofun, fun ⟨_, v⟩ => ?_⟩
      rw [c.outOfReach?_eq_none.2 fun f hf => hf.elim (v.adds_inReach f) (v.removes_inReach f)] at h
      cases h
    · rename_i hr
      rw [addedAndRemoved?_eq_none] at hd
      rw [outOfReach?_eq_none] at hr
      constructor
      · rintro ⟨⟩
        exact ⟨rfl, hd, fun f h => hr f (.inl h), fun f h => hr f (.inr h)⟩
      · rintro ⟨rfl, _⟩
        rfl

end Contract

end Trellis
