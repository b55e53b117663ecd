/-
  Trellis.Proofs.Planner.Shortage — what it means that nothing produces a fact.

  Planning says so where it wants a producer for a fact and no unit of the catalog adds it. A
  catalog that validates has a producer for whatever its units need and does not hold initially
  (`Catalog.exists_producer_of_clean`). That leaves two cases. The goal may ask for a fact that was
  never there. Or the fact was there, and ordering got stuck on it because somebody takes it away.

  - `unproducible_is_absent_or_removed`: there are no others, if no attempt ran out of its
    budget. What an attempt gets stuck on is the first need that its search found without support,
    wherever it then went on; that this one is contested is `Selection.stuck_cause`.
-/
import Trellis.Proofs.Planner.Diagnosis
import Trellis.Proofs.Planner.Rejection
import Trellis.Proofs.Planner.Relevance

namespace Trellis

/-- In a catalog that validates, whatever is needed holds initially or is added by some unit. -/
theorem Catalog.exists_producer_of_clean {cat : Catalog} {initial : FactSet} {c : Contract} {f : Fact}
    (h : cat.validate initial = .ok ⟨[]⟩) (hc : c ∈ cat) (hf : f ∈ c.needs) (hinit : f ∉ initial) :
    ∃ d ∈ cat, f ∈ d.adds := by
  rw [validate] at h
  unfold validateOn at h
  split at h
  · cases h
  · split at h
    · cases h
    · have hnone : cat.toList.flatMap (unproducible cat.producersOf initial) = [] :=
        congrArg Report.unproducible (Except.ok.inj h)
      have hproducers : producersOf cat f ≠ [] := by
        intro hempty
        have hreported : (f, c.name) ∈ unproducible cat.producersOf initial c := by
          simp [unproducible, Sorted.mem_toList, hf, hinit, hempty]
        have hin := List.mem_flatMap.2 ⟨c, hc, hreported⟩
        rw [hnone] at hin
        cases hin
      obtain ⟨name, hname⟩ := List.exists_mem_of_ne_nil _ hproducers
      obtain ⟨d, hd, -⟩ := List.mem_map.1 hname
      obtain ⟨hd, hadds⟩ := List.mem_filter.1 hd
      exact ⟨d, hd, of_decide_eq_true hadds⟩

namespace Planner

variable {cat : Catalog} {features : Features} {initial : FactSet}

theorem validated_of_clean (config : Config) (h : cat.validate initial = .ok ⟨[]⟩) :
    validated config cat initial = .ok () := by
  rw [validated]
  unfold checked
  split
  · exact bind_eq_ok.2 ⟨_, h, rfl⟩
  · rfl

theorem Problem.refused_of_unproducible {p : Problem} {f g : Fact} {requester unit : String}
    {passed : List Contract}
    (h : p.chooseProducer f requester passed = .error (.unproducible g unit)) :
    f = g ∧ requester = unit ∧ ∀ c ∈ p.lineup, f ∉ c.adds := by
  unfold chooseProducer at h
  dsimp only at h
  split at h
  · cases h
  · split at h
    · cases h
    · replace h : p.refusal f requester = .unproducible g unit := Except.error.inj h
      unfold refusal at h
      split at h
      · rename_i hnone
        cases h
        refine ⟨rfl, rfl, fun c hc hadds => ?_⟩
        have hproducer : c ∈ p.producers f := by
          rw [p.producers_eq]
          exact List.mem_filter.2 ⟨hc, decide_eq_true hadds⟩
        rw [hnone] at hproducer
        cases hproducer
      · split at h
        · cases h
        · cases h

/-- If planning from a catalog that validates ends with a fact that nothing produces, and no attempt
    ran out of its budget, then no unit adds the fact. Either the goal asks for it and it does not
    hold initially; or it does, the goal or the unit that is named asks for it, and an enabled unit
    takes it away. -/
theorem unproducible_is_absent_or_removed (cat : Catalog) (features : Features)
    (config : Config) (initial : FactSet) (goal : Goal) (f : Fact) (unit : String)
    (hclean : cat.validate initial = .ok ⟨[]⟩)
    (h : plan cat features config initial goal = .error (.unproducible f unit))
    (hb : ∀ t ∈ trials cat features initial goal, t.attempt.exhausted = false) :
    (∀ c ∈ cat, f ∉ c.adds) ∧
    ((unit = goalName ∧ f ∈ goal.required ∧ f ∉ initial) ∨
      (f ∈ initial ∧ AskedBy goal.required cat.toList f unit ∧
        ∃ d ∈ cat, Enabled features d ∧ f ∈ d.removes)) := by
  let p := Problem.new cat features initial
  have hsolve := solve_of_plan_error (validated_of_clean config hclean) h
  -- Whoever asks for what is not there, it is not a unit: its needs can all be met.
  have goal_asks {units : List Contract} (hunits : ∀ d ∈ units, d ∈ cat)
      (hnone : ∀ c ∈ p.lineup, f ∉ c.adds) (hasked : AskedBy goal.required units f unit)
      (hinit : f ∉ initial) : unit = goalName ∧ f ∈ goal.required := by
    refine hasked.resolve_right fun hunit => ?_
    obtain ⟨d, hd, -, hf⟩ := hunit
    obtain ⟨c, hc, hadds⟩ := Catalog.exists_producer_of_clean hclean (hunits d hd) hf hinit
    exact hnone c (Problem.mem_lineup.2 hc) hadds
  have registered {c : Contract} (hc : c ∈ p.lineup) : c ∈ cat := Problem.mem_lineup.1 hc
  rcases Problem.solve_failed hsolve with
    ⟨names, hcycle⟩ | ⟨before, t, g, requester, htrials, hstuck, hrefused⟩ |
      ⟨g, requester, hrefused, hinit, hasked⟩
  · cases hcycle
  · obtain ⟨rfl, rfl, hnone⟩ := Problem.refused_of_unproducible hrefused
    have ht : t ∈ trials cat features initial goal := by
      rw [trials, htrials]
      exact List.mem_append_right _ List.mem_cons_self
    obtain ⟨hdrawn, hattempt⟩ := Problem.trial_of_solve ht
    have hbudget := hb t ht
    rw [hattempt] at hbudget hstuck
    obtain ⟨hasked, hcontested⟩ := Selection.stuck_cause hbudget hstuck
    have hunits : ∀ d ∈ (p.selection goal.required t.selected).units, d ∈ cat ∧ Enabled features d := by
      intro d hd
      obtain ⟨hl, hs⟩ := Problem.mem_units_selection.1 hd
      exact ⟨registered hl, eligible_iff.1 (hdrawn d hs).2⟩
    refine ⟨fun c hc => hnone c (Problem.mem_lineup.2 hc), ?_⟩
    by_cases hinit : g ∈ initial
    · obtain ⟨d, hd, hremoves⟩ := hcontested.resolve_left fun hn => hn hinit
      refine .inr ⟨hinit, ?_, d, (hunits d hd).1, (hunits d hd).2, hremoves⟩
      exact hasked.imp_right fun ⟨d, hd, hname⟩ => ⟨d, (hunits d hd).1, hname⟩
    · obtain ⟨hgoal, hrequired⟩ := goal_asks (fun d hd => (hunits d hd).1) hnone hasked hinit
      exact .inl ⟨hgoal, hrequired, hinit⟩
  · obtain ⟨rfl, rfl, hnone⟩ := Problem.refused_of_unproducible hrefused
    obtain ⟨hgoal, hrequired⟩ := goal_asks (fun d hd => registered hd) hnone hasked hinit
    exact ⟨fun c hc => hnone c (Problem.mem_lineup.2 hc), .inl ⟨hgoal, hrequired, hinit⟩⟩

/-- `recount` runs after `lower`, which takes away what it needs, and nothing restores that. -/
theorem unproducible_is_absent_or_removed_recount :
    Catalog.validate (Sorted.ofList [lower, recount]) (Sorted.ofList [raw]) = .ok ⟨[]⟩ ∧
    plan (Sorted.ofList [lower, recount]) ∅ .default (Sorted.ofList [raw])
      (.facts (Sorted.ofList [lowered, counted])) = .error (.unproducible raw "recount") ∧
    (∀ c ∈ (Sorted.ofList [lower, recount] : Catalog), raw ∉ c.adds) ∧
    raw ∈ (Sorted.ofList [raw] : FactSet) ∧
    ∃ d ∈ (Sorted.ofList [lower, recount] : Catalog), Enabled ∅ d ∧ raw ∈ d.removes := by
  have hclean : Catalog.validate (Sorted.ofList [lower, recount]) (Sorted.ofList [raw]) = .ok ⟨[]⟩ := by
    cbv
  have h : plan (Sorted.ofList [lower, recount]) ∅ .default (Sorted.ofList [raw])
      (.facts (Sorted.ofList [lowered, counted])) = .error (.unproducible raw "recount") := by cbv
  have hb : ((trials (Sorted.ofList [lower, recount]) ∅ (Sorted.ofList [raw])
      (.facts (Sorted.ofList [lowered, counted]))).all fun t => !t.attempt.exhausted) = true := by cbv
  obtain ⟨hnone, hcause⟩ := unproducible_is_absent_or_removed _ ∅ .default _ _ raw "recount"
    hclean h fun t ht => by simpa using List.all_eq_true.1 hb t ht
  obtain ⟨hgoal, -⟩ | ⟨hinit, -, hremoved⟩ := hcause
  · exact absurd hgoal (by decide)
  · exact ⟨hclean, h, hnone, hinit, hremoved⟩

end Planner

end Trellis
