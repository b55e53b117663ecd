/-
  Trellis.Proofs.Planner.Concerns — what is found wrong before anything runs.

  Validation fails of the configuration; planning fails of that or for want of a plan. Nothing
  else comes up (`plan_error`): an attempt at ordering ends with a cycle or with a verdict, never
  with the inconsistencies it keeps words for, since its search always knows what it got stuck on
  and its links always order the units.
-/
import Trellis.Proofs.Planner.Safety
import Trellis.Expansion
import Trellis.Planner

namespace Trellis

/-- The errors that are found out before anything is run. -/
def Error.Foreseen (e : Error) : Prop :=
  e.concern? = some .configuration ∨ e.concern? = some .planning

variable {e : Error}

/-! ## Configuration -/

namespace Catalog

theorem toExcept_error {report : Report} (h : report.toExcept = .error e) :
    e.concern? = some .configuration := by
  unfold Report.toExcept at h
  split at h
  · cases h
    rfl
  · cases h

theorem validate_error {cat : Catalog} {initial : FactSet} (h : cat.validate initial = .error e) :
    e.concern? = some .configuration := by
  rw [validate] at h
  unfold validateOn at h
  split at h
  · cases h
    rfl
  · split at h
    · cases h
      rfl
    · cases h

end Catalog

namespace AdapterSet

theorem chain_error {as : AdapterSet} {k : Kind} (h : as.chain k = .error e) : e = .missingAdapter k := by
  unfold chain at h
  split at h
  · cases h
  · cases h
    rfl

end AdapterSet

/-! ## Planning -/

namespace Planner

variable {p : Problem} {selected : List Contract} {required : FactSet}

/-- An attempt that comes to nothing has found a cycle. -/
theorem Selection.attempt_error {s : Selection} (h : s.attempt.outcome = .error e) :
    ∃ names, e = .dependencyCycle names := by
  rcases Selection.attempt_cases s with ⟨cycle, -, hs⟩ | ⟨-, ⟨need, _, -, hs⟩ | ⟨_, _, nodes, -, -, -, hs⟩⟩
  · rw [hs] at h
    cases h
    exact ⟨_, rfl⟩
  · rw [hs] at h
    cases h
  · rw [hs] at h
    cases h

namespace Problem

theorem foreseen_refusal (f : Fact) (requester : String) : (p.refusal f requester).Foreseen := by
  unfold refusal
  split
  · exact .inl rfl
  · split
    · exact .inr rfl
    · exact .inr rfl

theorem chooseProducer_error {f : Fact} {requester : String}
    (h : p.chooseProducer f requester selected = .error e) : e.Foreseen := by
  unfold chooseProducer at h
  dsimp only at h
  split at h
  · cases h
  · split at h
    · cases h
    · cases h
      exact foreseen_refusal f requester

theorem close_error {queue : List Request} (h : p.close queue selected = .error e) : e.Foreseen := by
  fun_induction p.close queue selected with
  | case1 => cases h
  | case2 _ _ _ _ _ ih => exact ih h
  | case3 _ _ _ _ _ _ _ ih => exact ih h
  | case4 _ _ _ _ _ _ chosen =>
    cases h
    exact chooseProducer_error chosen

theorem settle_error (h : (p.settle required selected).outcome = .error e) : e.Foreseen := by
  fun_induction p.settle required selected with
  | case1 selected _ _ _ failed =>
    cases h
    obtain ⟨names, rfl⟩ := Selection.attempt_error failed
    exact .inr rfl
  | case2 => cases h
  | case3 _ _ _ _ _ _ _ chosen =>
    cases h
    exact chooseProducer_error chosen
  | case4 _ _ _ _ _ _ _ _ _ closed =>
    cases h
    exact close_error closed
  | case5 _ _ _ _ _ _ _ _ _ _ _ ih => exact ih h

theorem solve_error {goal : Goal} (h : (p.solve goal).outcome = .error e) : e.Foreseen := by
  unfold solve at h
  split at h
  · rename_i e' failed
    cases h
    cases goal with
    | maximal => cases failed
    | facts fs => exact close_error failed
  · exact settle_error h

end Problem

theorem validated_error {config : Config} {cat : Catalog} {initial : FactSet}
    (h : validated config cat initial = .error e) : e.concern? = some .configuration := by
  rw [validated] at h
  unfold checked at h
  split at h
  · rcases bind_eq_error.1 h with h | ⟨report, -, h⟩
    · exact Catalog.validate_error h
    · exact Catalog.toExcept_error h
  · cases h

theorem plan_error {cat : Catalog} {features : Features} {config : Config} {initial : FactSet}
    {goal : Goal} (h : plan cat features config initial goal = .error e) : e.Foreseen := by
  rcases bind_eq_error.1 h with h | ⟨-, -, h⟩
  · exact .inl (validated_error h)
  · rcases bind_eq_error.1 h with h | ⟨found, -, h⟩
    · exact Problem.solve_error h
    · cases h

end Planner

end Trellis
