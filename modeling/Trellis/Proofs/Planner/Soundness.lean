/-
  Trellis.Proofs.Planner.Soundness — what a plan promises.

  A plan that is answered comes of one ordering attempt: its steps are a solution of what was
  selected in the end (`solves_of_solve`), and carry the contracts of its units
  (`carries_of_solve`). `stateAfter` replays a plan by what its units declare in the catalog.

  - `plan_is_sound`: the steps are enabled units of the catalog, each once; every unit finds
    what it needs and comes after the units it uses; and the replay ends with the facts that
    the plan answers, the goal among them.
-/
import Trellis.Proofs.Planner.Completeness

namespace Trellis

open Planner Planner.Selection

namespace Plan

/-- What the units of some steps declare. -/
def declared (cat : Catalog) (steps : List Step) : List Contract :=
  steps.filterMap fun step => cat.find? step.unit

/-- The facts after the first `k` steps. -/
def stateAfter (q : Plan) (cat : Catalog) (k : Nat) : FactSet :=
  enact q.initial (declared cat (q.steps.take k))

variable {cat : Catalog} {order : List Contract} {q : Plan}

theorem declared_map (h : ∀ c ∈ order, c ∈ cat) : declared cat (order.map Step.ofContract) = order := by
  induction order with
  | nil => rfl
  | cons c order ih =>
    obtain ⟨hc, horder⟩ := List.forall_mem_cons.1 h
    have hfind : cat.find? (Step.ofContract c).unit = some c := Sorted.find?_eq_some.2 ⟨hc, rfl⟩
    rw [List.map_cons, declared, List.filterMap_cons, hfind]
    exact congrArg (c :: ·) (ih horder)

theorem stateAfter_eq (hs : q.steps = order.map Step.ofContract) (h : ∀ c ∈ order, c ∈ cat) (k : Nat) :
    q.stateAfter cat k = enact q.initial (order.take k) := by
  rw [stateAfter, hs, ← List.map_take, declared_map]
  exact fun c hc => h c (List.mem_of_mem_take hc)

end Plan

namespace Planner

variable {cat : Catalog} {features : Features} {config : Config} {initial : FactSet} {goal : Goal}
  {q : Plan} {order : List Contract}

theorem eligible_iff {c : Contract} :
    eligible features c = true ↔ ∀ name ∈ c.features, features.isEnabled name = true := by
  simp [eligible, Features.firstDisabled, Sorted.mem_toList]

/-- What is answered as a plan. -/
theorem solve_of_plan (h : plan cat features config initial goal = .ok q) :
    validated config cat initial = .ok () ∧
    ∃ settled order final, let p := Problem.new cat features initial
      (p.solve goal).outcome = .ok (settled, order, final) ∧
      q = ⟨goal, initial, order.map Step.ofContract, final,
        p.omissions config.gatePolicy goal settled⟩ := by
  unfold plan at h
  obtain ⟨u, hv, h⟩ := bind_eq_ok.1 h
  obtain ⟨⟨settled, order, final⟩, ho, h⟩ := bind_eq_ok.1 h
  cases h
  exact ⟨hv, settled, order, final, ho, rfl⟩

/-- The contracts of a plan's steps. -/
structure Carries (q : Plan) (cat : Catalog) (features : Features) (order : List Contract) : Prop where
  steps : q.steps = order.map Step.ofContract
  registered : ∀ c ∈ order, c ∈ cat ∧ eligible features c = true
  distinct : (order.map Contract.name).Nodup
  uses : ∀ before u after, order = before ++ u :: after →
    ∀ v ∈ order, v ≠ u → v.name ∈ u.uses → v ∈ before
  feasible : Feasible q.initial order
  final : q.final = enact q.initial order

section Solve

variable {settled : List Contract} {final : FactSet}
  (h : ((Problem.new cat features initial).solve goal).outcome = .ok (settled, order, final))

include h

/-- What is answered solves what was selected in the end. -/
theorem solves_of_solve :
    (Problem.new cat features initial).Drawn settled ∧
      Solves order ((Problem.new cat features initial).selection goal.required settled) ∧
      final = enact initial order := by
  obtain ⟨hdrawn, hdone⟩ := Problem.solve_ok h
  exact ⟨hdrawn, solves_of_done (named_selection cat features initial _ _) hdone⟩

/-- All that was selected is ordered, and nothing else. -/
theorem mem_order_iff {c : Contract} : c ∈ order ↔ c ∈ settled := by
  obtain ⟨hdrawn, hsolves, -⟩ := solves_of_solve h
  rw [hsolves.complete.mem_iff, Problem.mem_units_selection]
  exact and_iff_right_of_imp fun hc => (hdrawn c hc).1

/-- The units that are ordered are eligible units of the catalog. -/
theorem registered_of_solve : ∀ c ∈ order, c ∈ cat ∧ eligible features c = true := by
  intro c hc
  obtain ⟨hl, he⟩ := (solves_of_solve h).1 c ((mem_order_iff h).1 hc)
  exact ⟨Problem.mem_lineup.1 hl, he⟩

/-- What the steps made of an order carry. -/
theorem carries_of_solve (omissions : List Omission) :
    Carries ⟨goal, initial, order.map Step.ofContract, final, omissions⟩ cat features order := by
  obtain ⟨-, hsolves, hfinal⟩ := solves_of_solve h
  refine ⟨rfl, registered_of_solve h, ?_, hsolves.uses, hsolves.feasible, hfinal⟩
  rw [(hsolves.complete.map Contract.name).nodup_iff]
  exact named_selection cat features initial _ _

end Solve

theorem carries_of_plan (h : plan cat features config initial goal = .ok q) :
    q.goal = goal ∧ q.initial = initial ∧ (∀ f ∈ goal.required, f ∈ q.final) ∧
      ∃ order, Carries q cat features order := by
  obtain ⟨-, settled, order, final, hsolve, rfl⟩ := solve_of_plan h
  obtain ⟨-, hsolves, rfl⟩ := solves_of_solve hsolve
  exact ⟨rfl, rfl, hsolves.required, order, carries_of_solve hsolve _⟩

/-! ## The promises of a plan -/

/-- What a plan for a goal, from some initial facts, promises. -/
structure Sound (q : Plan) (cat : Catalog) (features : Features) (initial : FactSet) (goal : Goal) :
    Prop where
  starts : q.initial = initial
  distinct : q.units.Nodup
  registered : ∀ step ∈ q.steps, ∃ c ∈ cat, step = Step.ofContract c ∧
    ∀ name ∈ c.features, features.isEnabled name = true
  /-- What a unit needs holds when its turn comes. -/
  supplied : ∀ (k : Nat) step c, q.steps[k]? = some step → cat.find? step.unit = some c →
    ∀ f ∈ c.needs, f ∈ q.stateAfter cat k
  ends : q.stateAfter cat q.steps.length = q.final
  reaches : ∀ f ∈ goal.required, f ∈ q.final
  /-- Used units come before their users. -/
  ordered : ∀ (i j : Nat) c name, q.units[i]? = some c.name → q.units[j]? = some name → c ∈ cat →
    name ∈ c.uses → name ≠ c.name → j < i

namespace Carries

variable (h : Carries q cat features order)

include h

theorem mem_cat : ∀ c ∈ order, c ∈ cat := fun c hc => (h.registered c hc).1

theorem units : q.units = order.map Contract.name := by
  rw [Plan.units, h.steps, List.map_map]
  rfl

theorem getElem?_units {i : Nat} {c : Contract} (hc : c ∈ cat) (hi : q.units[i]? = some c.name) :
    order[i]? = some c := by
  rw [h.units, List.getElem?_map, Option.map_eq_some_iff] at hi
  obtain ⟨d, hd, hname⟩ := hi
  have hdc : d = c := Sorted.eq_of_key_eq (h.mem_cat d (List.mem_of_getElem? hd)) hc hname
  rw [hd, hdc]

theorem supplied {k : Nat} {step : Step} {c : Contract} (hk : q.steps[k]? = some step)
    (hc : cat.find? step.unit = some c) {f : Fact} (hf : f ∈ c.needs) : f ∈ q.stateAfter cat k := by
  obtain ⟨hcat, hname⟩ := Sorted.find?_eq_some.1 hc
  have hunit : q.units[k]? = some c.name := by
    rw [Plan.units, List.getElem?_map, hk, Option.map_some, hname]
  have hsplit := eq_take_cons_drop (h.getElem?_units hcat hunit)
  rw [Plan.stateAfter_eq h.steps h.mem_cat]
  exact h.feasible _ c _ hsplit f hf

theorem ordered {i j : Nat} {c : Contract} {name : String} (hi : q.units[i]? = some c.name)
    (hj : q.units[j]? = some name) (hc : c ∈ cat) (hu : name ∈ c.uses) (hne : name ≠ c.name) :
    j < i := by
  have hci := h.getElem?_units hc hi
  rw [h.units, List.getElem?_map, Option.map_eq_some_iff] at hj
  obtain ⟨d, hd, rfl⟩ := hj
  have hdc : d ≠ c := by
    intro e
    exact hne (by rw [e])
  have hb := h.uses _ c _ (eq_take_cons_drop hci) d (List.mem_of_getElem? hd) hdc hu
  obtain ⟨k, hk⟩ := List.mem_iff_getElem?.1 hb
  rw [List.getElem?_take] at hk
  split at hk
  · rename_i hki
    rwa [eq_of_getElem?_of_nodup h.distinct hd hk rfl]
  · cases hk

end Carries

/-- Every plan that is answered keeps its promises. -/
theorem plan_is_sound (cat : Catalog) (features : Features) (config : Config) (initial : FactSet)
    (goal : Goal) (q : Plan) (h : plan cat features config initial goal = .ok q) :
    Sound q cat features initial goal := by
  obtain ⟨-, hinitial, hgoal, order, hq⟩ := carries_of_plan h
  refine ⟨hinitial, ?_, ?_, fun _ _ _ hk hc _ hf => hq.supplied hk hc hf, ?_, hgoal,
    fun _ _ _ _ hi hj hc hu hne => hq.ordered hi hj hc hu hne⟩
  · rw [hq.units]
    exact hq.distinct
  · intro step hstep
    rw [hq.steps] at hstep
    obtain ⟨c, hc, rfl⟩ := List.mem_map.1 hstep
    obtain ⟨hcat, he⟩ := hq.registered c hc
    exact ⟨c, hcat, rfl, eligible_iff.1 he⟩
  · rw [Plan.stateAfter_eq hq.steps hq.mem_cat, hq.final, hq.steps, List.length_map,
      List.take_length]

theorem plan_is_sound_lowerAndCount :
    ∃ q, plan (Sorted.ofList [lower, count]) ∅ .default (Sorted.ofList [raw])
        (.facts (Sorted.ofList [lowered, counted])) = .ok q ∧
      q.units = ["count", "lower"] ∧
      Sound q (Sorted.ofList [lower, count]) ∅ (Sorted.ofList [raw])
        (.facts (Sorted.ofList [lowered, counted])) := by
  let goal : Goal := .facts (Sorted.ofList [lowered, counted])
  let q : Plan := ⟨goal, Sorted.ofList [raw], [.ofContract count, .ofContract lower],
    Sorted.ofList [lowered, counted], []⟩
  have h : plan (Sorted.ofList [lower, count]) ∅ .default (Sorted.ofList [raw]) goal = .ok q := by cbv
  exact ⟨q, h, rfl, plan_is_sound _ _ _ _ _ q h⟩

end Planner

end Trellis
