/-
  Trellis.Proofs.Planner.Gating — a unit whose features are off might as well not be registered.

  Two problems agree if they begin with the same facts and select from the same units in the same
  way: the line-up may differ in units that no selection ever holds (`Problem.Agrees`). Of two such
  problems one finds what the other finds, step by step: closing, enlarging and ordering a
  selection (`Agrees.close`, `Agrees.settle`, `Agrees.solve`). The relation is symmetric, so each of
  these is proved in one direction. They need not fail alike: a refusal names gated units.

  Taking the gated units out of the line-up (`Problem.gate`) leaves a problem that agrees with the
  one before, and it is the problem of the catalog without them (`new_gate`).

  - `gating_is_deleting`: with the catalog not validated, the plans are the same but for the
    omissions of gated units.
-/
import Trellis.Proofs.Planner.Soundness

namespace Trellis

/-- Whether a unit is left out because it cannot be reached. -/
def Omission.isUnreachable : Omission → Bool
  | featureGated .. => false
  | unreachable .. => true

/-- Two plans that differ at most in what they say of gated units. -/
structure Plan.SameButGated (q r : Plan) : Prop where
  goal : r.goal = q.goal
  initial : r.initial = q.initial
  steps : r.steps = q.steps
  final : r.final = q.final
  unreachable : r.omissions.filter Omission.isUnreachable = q.omissions.filter Omission.isUnreachable

namespace Planner

namespace Problem

variable {p q : Problem} {selected larger : List Contract} {c : Contract} {f : Fact}
  {requester : String}

/-! ## Problems that agree -/

/-- Both problems start with the same facts and select the same units. -/
structure Agrees (p q : Problem) : Prop where
  initial : p.initial = q.initial
  drawn : ∀ selected, p.Drawn selected ↔ q.Drawn selected
  reachable : p.lineup.toList.filter p.reachable = q.lineup.toList.filter q.reachable
  selection : ∀ required selected, p.Drawn selected →
    p.selection required selected = q.selection required selected
  choose : ∀ f requester passed c,
    p.chooseProducer f requester passed = .ok c ↔ q.chooseProducer f requester passed = .ok c

namespace Agrees

variable (h : p.Agrees q)

include h

theorem symm : q.Agrees p where
  initial := h.initial.symm
  drawn selected := (h.drawn selected).symm
  reachable := h.reachable.symm
  selection required selected hd := (h.selection required selected ((h.drawn selected).2 hd)).symm
  choose f requester passed c := (h.choose f requester passed c).symm

theorem covered : p.covered selected f = q.covered selected f := by
  rw [Problem.covered, Problem.covered, h.initial]

theorem close {queue : List Request} (hc : p.close queue selected = .ok larger) :
    q.close queue selected = .ok larger := by
  fun_induction p.close queue selected with
  | case1 selected =>
    rw [Problem.close]
    exact hc
  | case2 selected f r queue hcov ih =>
    rw [Problem.close, if_pos (h.covered ▸ hcov)]
    exact ih hc
  | case3 selected f r queue hcov c chosen ih =>
    have chosen' := (h.choose f r [] c).1 chosen
    rw [Problem.close, if_neg (h.covered ▸ hcov)]
    split
    · rename_i e
      cases chosen'.symm.trans e
      exact ih hc
    · rename_i e
      cases chosen'.symm.trans e
  | case4 => cases hc

theorem initialSelection {goal : Goal} (hs : p.initialSelection goal = .ok selected) :
    q.initialSelection goal = .ok selected := by
  cases goal with
  | maximal =>
    rw [Problem.initialSelection, ← h.reachable]
    exact hs
  | facts fs => exact h.close hs

theorem settle {required : FactSet} {answer : List Contract × List Contract × FactSet}
    (hd : p.Drawn selected) (hs : (p.settle required selected).outcome = .ok answer) :
    (q.settle required selected).outcome = .ok answer := by
  fun_induction p.settle required selected with
  | case1 => cases hs
  | case2 selected _ _ order final hdone =>
    replace hdone : (p.selection required selected).attempt.outcome = .ok (.done order final) := hdone
    rw [h.selection required selected hd] at hdone
    rw [settle_of_done hdone]
    exact hs
  | case3 => cases hs
  | case4 => cases hs
  | case5 selected _ _ f r hstuck c chosen larger closed _ ih =>
    replace hstuck : (p.selection required selected).attempt.outcome = .ok (.stuck f r) := hstuck
    rw [h.selection required selected hd] at hstuck
    rw [settle_of_stuck hstuck ((h.choose f r selected c).1 chosen) (h.close closed)]
    exact ih ((hd.cons chosen).close closed) hs

theorem solve {goal : Goal} {answer : List Contract × List Contract × FactSet}
    (hs : (p.solve goal).outcome = .ok answer) : (q.solve goal).outcome = .ok answer := by
  unfold Problem.solve at hs
  split at hs
  · cases hs
  · rename_i selected hsel
    rw [Problem.solve, h.initialSelection hsel]
    exact h.settle (drawn_initialSelection hsel) hs

end Agrees

/-! ## Without the gated units -/

theorem derivableFacts_filter (lineup : Lineup) (features : Features) (initial : FactSet) :
    derivableFacts (lineup.filter (Planner.eligible features)) features initial =
      derivableFacts lineup features initial := by
  rw [derivableFacts, derivableFacts, Sorted.filter, List.filter_filter]
  simp only [Bool.and_self]

/-- The problem without the units whose features are not all on. -/
def gate (p : Problem) : Problem where
  lineup := p.lineup.filter p.eligible
  features := p.features
  initial := p.initial
  derivable := p.derivable
  derivable_eq := p.derivable_eq.trans (derivableFacts_filter p.lineup p.features p.initial).symm
  producers := adders (p.lineup.filter p.eligible)
  producers_eq := rfl

theorem mem_lineup_gate : c ∈ p.gate.lineup ↔ c ∈ p.lineup ∧ p.eligible c = true := Sorted.mem_filter

theorem new_gate (cat : Catalog) (features : Features) (initial : FactSet) :
    new (cat.filter (Planner.eligible features)) features initial = (new cat features initial).gate := by
  refine ext (Sorted.ext_mem fun c => ?_) rfl rfl
  rw [mem_lineup, mem_lineup_gate, Sorted.mem_filter, mem_lineup]
  rfl

theorem units_gate : p.gate.lineup.toList = p.lineup.toList.filter p.eligible := rfl

theorem eligible_gate : p.gate.eligible = p.eligible := rfl

theorem reachable_gate : p.gate.reachable = p.reachable := rfl

theorem candidates_gate (passed : List Contract) : p.gate.candidates f passed = p.candidates f passed := by
  simp only [candidates, producers_eq, adders, units_gate, eligible_gate, List.filter_filter]
  refine List.filter_congr fun c _ => ?_
  cases p.eligible c <;> simp

/-- Which producer is chosen depends on the candidates and on which of them are reachable. -/
theorem chooseProducer_eq_ok {passed : List Contract} : p.chooseProducer f requester passed = .ok c ↔
    ((p.candidates f passed).find? p.reachable).or (p.candidates f passed).head? = some c := by
  rw [chooseProducer]
  cases (p.candidates f passed).find? p.reachable with
  | some d => simp
  | none => cases p.candidates f passed <;> simp

theorem agrees_gate (p : Problem) : p.Agrees p.gate where
  initial := rfl
  drawn selected := by
    refine forall₂_congr fun c _ => ?_
    rw [mem_lineup_gate, eligible_gate, and_assoc, and_self]
  reachable := by
    rw [units_gate, reachable_gate, List.filter_filter]
    refine List.filter_congr fun c _ => ?_
    rw [reachable]
    cases p.eligible c <;> simp
  selection required selected hd := by
    rw [selection, selection, units_gate, List.filter_filter]
    congr 1
    refine List.filter_congr fun c _ => ?_
    by_cases hc : c ∈ selected
    · simp [hc, (hd c hc).2]
    · simp [hc]
  choose f requester passed c := by
    rw [chooseProducer_eq_ok, chooseProducer_eq_ok, candidates_gate, reachable_gate]

/-! ## Omissions -/

theorem unreachable_gate : p.gate.unreachable = p.unreachable := by
  rw [unreachable, unreachable, units_gate, eligible_gate, List.filter_filter]
  simp only [Bool.and_self]
  rfl

theorem gated_gate (goal : Goal) (selected : List Contract) : p.gate.gated goal selected = [] := by
  refine List.filterMap_eq_nil_iff.2 fun c hc => ?_
  have hon : p.gate.firstDisabled c = none := Option.isNone_iff_eq_none.1 (mem_lineup_gate.1 hc).2
  rw [hon, Option.map_none, ite_self]

theorem isUnreachable_of_mem_unreachable : ∀ o ∈ p.unreachable, o.isUnreachable = true := by
  intro o ho
  obtain ⟨c, -, ho⟩ := List.mem_filterMap.1 ho
  obtain ⟨f, -, rfl⟩ := Option.map_eq_some_iff.1 ho
  rfl

theorem not_isUnreachable_of_mem_gated {goal : Goal} :
    ∀ o ∈ p.gated goal selected, ¬ o.isUnreachable = true := by
  intro o ho
  obtain ⟨c, -, ho⟩ := List.mem_filterMap.1 ho
  split at ho
  · obtain ⟨name, -, rfl⟩ := Option.map_eq_some_iff.1 ho
    exact Bool.false_ne_true
  · cases ho

/-- Without the gated units nothing is said of them, and all else is said as before. -/
theorem omissions_gate (policy : GatePolicy) (goal : Goal) (selected : List Contract) :
    p.gate.omissions policy goal selected =
      (p.omissions policy goal selected).filter Omission.isUnreachable := by
  have kept : (if goal = .maximal then p.unreachable else []).filter Omission.isUnreachable =
      if goal = .maximal then p.unreachable else [] := by
    split
    · exact List.filter_eq_self.2 isUnreachable_of_mem_unreachable
    · rfl
  have dropped : (if policy = .warn then p.gated goal selected else []).filter Omission.isUnreachable = [] := by
    split
    · exact List.filter_eq_nil_iff.2 not_isUnreachable_of_mem_gated
    · rfl
  rw [omissions, omissions, unreachable_gate, gated_gate, List.filter_append, kept, dropped, ite_self]

end Problem

/-! ## Plans -/

section Plans

variable {cat : Catalog} {features : Features} {policy : GatePolicy} {initial : FactSet} {goal : Goal}

theorem plan_unvalidated {q : Plan} : plan cat features ⟨policy, false⟩ initial goal = .ok q ↔
    ∃ settled order final, let p := Problem.new cat features initial
      (p.solve goal).outcome = .ok (settled, order, final) ∧
      q = ⟨goal, initial, order.map Step.ofContract, final, p.omissions policy goal settled⟩ := by
  constructor
  · intro h
    exact (solve_of_plan h).2
  · intro h
    obtain ⟨settled, order, final, hs, rfl⟩ := h
    exact bind_eq_ok.2 ⟨(), rfl, bind_eq_ok.2 ⟨_, hs, rfl⟩⟩

/-- The plans without the gated units are the plans with them, less what these say of gated units. -/
theorem plan_filter_eligible {r : Plan} :
    plan (cat.filter (eligible features)) features ⟨policy, false⟩ initial goal = .ok r ↔
      ∃ q, plan cat features ⟨policy, false⟩ initial goal = .ok q ∧
        r = { q with omissions := q.omissions.filter Omission.isUnreachable } := by
  have agrees := Problem.agrees_gate (.new cat features initial)
  rw [plan_unvalidated, Problem.new_gate]
  constructor
  · intro h
    obtain ⟨settled, order, final, hs, rfl⟩ := h
    refine ⟨_, plan_unvalidated.2 ⟨settled, order, final, agrees.symm.solve hs, rfl⟩, ?_⟩
    rw [Problem.omissions_gate]
  · intro h
    obtain ⟨q, hq, rfl⟩ := h
    obtain ⟨settled, order, final, hs, rfl⟩ := plan_unvalidated.1 hq
    refine ⟨settled, order, final, agrees.solve hs, ?_⟩
    rw [Problem.omissions_gate]

end Plans

/-- With the catalog not validated, there is a plan exactly if there is one without the gated
    units, and the two differ at most in what they say of gated units; the latter says nothing of
    them. -/
theorem gating_is_deleting (cat : Catalog) (features : Features) (policy : GatePolicy)
    (initial : FactSet) (goal : Goal) :
    ((∃ q, plan cat features ⟨policy, false⟩ initial goal = .ok q) ↔
      ∃ r, plan (cat.filter (eligible features)) features ⟨policy, false⟩ initial goal = .ok r) ∧
    ∀ q r, plan cat features ⟨policy, false⟩ initial goal = .ok q →
      plan (cat.filter (eligible features)) features ⟨policy, false⟩ initial goal = .ok r →
      q.SameButGated r ∧ ∀ o ∈ r.omissions, o.isUnreachable = true := by
  constructor
  · constructor
    · intro h
      obtain ⟨q, hq⟩ := h
      exact ⟨_, plan_filter_eligible.2 ⟨q, hq, rfl⟩⟩
    · intro h
      obtain ⟨r, hr⟩ := h
      obtain ⟨q, hq, -⟩ := plan_filter_eligible.1 hr
      exact ⟨q, hq⟩
  · intro q r hq hr
    obtain ⟨q', hq', rfl⟩ := plan_filter_eligible.1 hr
    cases hq.symm.trans hq'
    refine ⟨⟨rfl, rfl, rfl, rfl, ?_⟩, fun o ho => (List.mem_filter.1 ho).2⟩
    rw [List.filter_filter]
    simp only [Bool.and_self]

/-- Adds what `count` needs, after `restore` in line. -/
def reload : Contract := { restore with name := "reload", orderHint := 2 }

/-- The gated unit comes first in line among the producers of what `count` needs. -/
theorem gating_is_deleting_reload :
    ∃ q r, plan (Sorted.ofList [count, gatedRestore, reload]) ∅ ⟨.warn, false⟩ ∅
        (.facts (Sorted.ofList [counted])) = .ok q ∧
      plan (Sorted.filter (Sorted.ofList [count, gatedRestore, reload]) (eligible ∅)) ∅ ⟨.warn, false⟩ ∅
        (.facts (Sorted.ofList [counted])) = .ok r ∧
      q.units = ["reload", "count"] ∧ q.omissions = [.featureGated "restore" "restoring"] ∧
      r.omissions = [] ∧ q.SameButGated r := by
  let cat : Catalog := Sorted.ofList [count, gatedRestore, reload]
  let goal : Goal := .facts (Sorted.ofList [counted])
  let steps : List Step := [.ofContract reload, .ofContract count]
  let q : Plan := ⟨goal, ∅, steps, Sorted.ofList [raw, counted], [.featureGated "restore" "restoring"]⟩
  let r : Plan := ⟨goal, ∅, steps, Sorted.ofList [raw, counted], []⟩
  have hq : plan cat ∅ ⟨.warn, false⟩ ∅ goal = .ok q := by cbv
  have hr : plan (cat.filter (eligible ∅)) ∅ ⟨.warn, false⟩ ∅ goal = .ok r := by cbv
  exact ⟨q, r, hq, hr, rfl, rfl, rfl, ((gating_is_deleting cat ∅ .warn ∅ goal).2 q r hq hr).1⟩

end Planner

end Trellis
