/-
  Trellis.Proofs.Planner.Diagnosis — what it means that a feature is said to be off.

  Planning gives this diagnosis where no producer can be chosen for a fact, but some producer would
  be eligible if its features were on (`gated_of_refused`). Producers are chosen in two
  places. To close a selection any eligible unit will do, so there is none. But where ordering got
  stuck on a fact, units that are selected already are passed over, and these may be all that are
  eligible.

  - `feature_disabled_is_gated`: the unit that is named adds the fact, and the feature named is the
    first of its features that is off; and either no enabled unit of the catalog adds the fact, or
    the last attempt got stuck on it, with all of them selected.

  So the fact need not come of gated units only: in `feature_disabled_of_parsed` an enabled unit
  adds it, another takes it away, and a unit that is off is called its only producer.
-/
import Trellis.Proofs.Planner.Accounting
import Trellis.Proofs.Planner.Blame
import Trellis.Proofs.Planner.Bounds
import Trellis.Proofs.Planner.Concerns

namespace Trellis.Planner

/-! ## Refusals -/

namespace Problem

variable {p : Problem} {f g : Fact} {requester unit feature : String} {passed selected : List Contract}
  {e : Error}

theorem refused_of_featureDisabled
    (h : p.chooseProducer f requester passed = .error (.featureDisabled g unit feature)) :
    f = g ∧ p.candidates f passed = [] ∧
      ∃ c ∈ p.lineup, f ∈ c.adds ∧ c.name = unit ∧ p.firstDisabled c = some feature := by
  unfold chooseProducer at h
  dsimp only at h
  split at h
  · cases h
  · split at h
    · cases h
    · rename_i hnone
      replace h : p.refusal f requester = .featureDisabled g unit feature := Except.error.inj h
      unfold refusal at h
      split at h
      · cases h
      · split at h
        · rename_i hfound
          cases h
          obtain ⟨c, hc, hnamed⟩ := List.exists_of_findSome?_eq_some hfound
          obtain ⟨name, hname, hpair⟩ := Option.map_eq_some_iff.1 hnamed
          cases hpair
          rw [p.producers_eq] at hc
          obtain ⟨hl, hadds⟩ := List.mem_filter.1 hc
          exact ⟨rfl, hnone, c, hl, of_decide_eq_true hadds, rfl, hname⟩
        · cases h

/-- A unit of the line-up asks for what it needs. -/
theorem askedBy_of_mem_requests {required : FactSet} {c : Contract} (hc : c ∈ p.lineup) :
    ∀ r ∈ requests c, AskedBy required p.lineup.toList r.1 r.2 := by
  intro r hr
  obtain ⟨f, hf, rfl⟩ := List.mem_map.1 hr
  exact .inr ⟨c, hc, rfl, hf⟩

/-- Closing a selection fails where no producer can be chosen for a fact that is asked for, and that
    does not hold initially. -/
theorem refused_of_close {required : FactSet} {queue : List Request}
    (hq : ∀ r ∈ queue, AskedBy required p.lineup.toList r.1 r.2)
    (h : p.close queue selected = .error e) :
    ∃ f requester, p.chooseProducer f requester [] = .error e ∧ f ∉ p.initial ∧
      AskedBy required p.lineup.toList f requester := by
  fun_induction p.close queue selected with
  | case1 => cases h
  | case2 _ _ _ _ _ ih => exact ih (List.forall_mem_cons.1 hq).2 h
  | case3 _ _ _ _ _ c chosen ih =>
    obtain ⟨⟨hc, -⟩, -⟩ := mem_candidates.1 (mem_candidates_of_chooseProducer chosen)
    refine ih (fun r hr => ?_) h
    rcases List.mem_append.1 hr with hr | hr
    · exact hq r (List.mem_cons_of_mem _ hr)
    · exact askedBy_of_mem_requests hc r hr
  | case4 _ f requester _ hcov _ refused =>
    cases h
    exact ⟨f, requester, refused, fun hf => hcov (by simp [covered, hf]),
      hq _ List.mem_cons_self⟩

/-- Settling fails of a cycle or where no producer can be chosen: none that is not selected for the
    fact that the last attempt got stuck on, or none at all for a fact that is asked for. -/
theorem settle_failed {required : FactSet} (h : (p.settle required selected).outcome = .error e) :
    (∃ names, e = .dependencyCycle names) ∨
    (∃ before t f requester, (p.settle required selected).trials = before ++ [t] ∧
      t.attempt.outcome = .ok (.stuck f requester) ∧ p.chooseProducer f requester t.selected = .error e) ∨
    ∃ f requester, p.chooseProducer f requester [] = .error e ∧ f ∉ p.initial ∧
      AskedBy required p.lineup.toList f requester := by
  fun_induction p.settle required selected with
  | case1 _ _ _ _ failed =>
    cases h
    exact .inl (Selection.attempt_error failed)
  | case2 => cases h
  | case3 _ _ trial f requester stuck _ refused =>
    cases h
    exact .inr (.inl ⟨[], trial, f, requester, rfl, stuck, refused⟩)
  | case4 _ _ _ _ _ _ c chosen _ failed =>
    cases h
    obtain ⟨⟨hc, -⟩, -⟩ := mem_candidates.1 (mem_candidates_of_chooseProducer chosen)
    exact .inr (.inr (refused_of_close (askedBy_of_mem_requests hc) failed))
  | case5 _ _ trial _ _ _ _ _ _ _ course ih =>
    rcases ih h with hcycle | ⟨before, t, f, requester, htrials, hlast⟩ | hrefused
    · exact .inl hcycle
    · exact .inr (.inl ⟨trial :: before, t, f, requester, congrArg (trial :: ·) htrials, hlast⟩)
    · exact .inr (.inr hrefused)

/-- The same of the whole run. -/
theorem solve_failed {goal : Goal} (h : (p.solve goal).outcome = .error e) :
    (∃ names, e = .dependencyCycle names) ∨
    (∃ before t f requester, (p.solve goal).trials = before ++ [t] ∧
      t.attempt.outcome = .ok (.stuck f requester) ∧ p.chooseProducer f requester t.selected = .error e) ∨
    ∃ f requester, p.chooseProducer f requester [] = .error e ∧ f ∉ p.initial ∧
      AskedBy goal.required p.lineup.toList f requester := by
  rcases p.solve_cases goal with ⟨e', hsel, hs⟩ | ⟨selected, -, hs⟩
  · rw [hs] at h
    cases h
    cases goal with
    | maximal => cases hsel
    | facts fs =>
      refine .inr (.inr (refused_of_close (fun r hr => ?_) hsel))
      obtain ⟨f, hf, rfl⟩ := List.mem_map.1 hr
      exact .inl ⟨rfl, hf⟩
  · rw [hs] at h ⊢
    exact settle_failed h

end Problem

/-! ## The diagnosis -/

variable {cat : Catalog} {features : Features} {config : Config} {initial : FactSet} {goal : Goal}
  {f : Fact} {unit feature : String}

/-- Where no producer can be chosen but for a feature, all enabled units that add the fact are passed
    over, and one that is not enabled is named. -/
theorem gated_of_refused {g : Fact} {requester : String} {passed : List Contract}
    (h : (Problem.new cat features initial).chooseProducer g requester passed =
      .error (.featureDisabled f unit feature)) :
    g = f ∧ (∃ c ∈ cat, c.name = unit ∧ f ∈ c.adds ∧
      IsFirst (features.isEnabled · = false) c.features.toList feature) ∧
      ∀ c ∈ cat, f ∈ c.adds → Enabled features c → c ∈ passed := by
  obtain ⟨rfl, hnone, c, hc, hadds, hname, hoff⟩ := Problem.refused_of_featureDisabled h
  refine ⟨rfl, ⟨c, Problem.mem_lineup.1 hc, hname, hadds, isFirst_of_firstDisabled hoff⟩, ?_⟩
  intro d hd hadds henabled
  refine Classical.byContradiction fun hn => ?_
  have hcandidate : d ∈ (Problem.new cat features initial).candidates g passed :=
    Problem.mem_candidates.2 ⟨⟨Problem.mem_lineup.2 hd, hadds⟩, eligible_iff.2 henabled, hn⟩
  rw [hnone] at hcandidate
  cases hcandidate

/-- Planning fails so where no producer can be chosen: none that is not selected for a fact that the
    last attempt got stuck on, or none at all for some fact. -/
theorem refused_of_plan
    (h : plan cat features config initial goal = .error (.featureDisabled f unit feature)) :
    (∃ before t g requester, trials cat features initial goal = before ++ [t] ∧
      t.attempt.outcome = .ok (.stuck g requester) ∧
      (Problem.new cat features initial).chooseProducer g requester t.selected =
        .error (.featureDisabled f unit feature)) ∨
    ∃ g requester, (Problem.new cat features initial).chooseProducer g requester [] =
      .error (.featureDisabled f unit feature) := by
  have hsolve : ((Problem.new cat features initial).solve goal).outcome =
      .error (.featureDisabled f unit feature) := by
    rcases bind_eq_error.1 h with h | ⟨-, -, h⟩
    · cases validated_error h
    · rcases bind_eq_error.1 h with h | ⟨found, -, h⟩
      · exact h
      · cases h
  rcases Problem.solve_failed hsolve with ⟨names, hcycle⟩ | hstuck | ⟨g, requester, hrefused, -⟩
  · cases hcycle
  · exact .inl hstuck
  · exact .inr ⟨g, requester, hrefused⟩

/-- The unit that is said to want a feature adds the fact, and wants this feature first. Either no
    enabled unit adds the fact, or the last attempt got stuck on it with all that do selected. -/
theorem feature_disabled_is_gated (cat : Catalog) (features : Features) (config : Config)
    (initial : FactSet) (goal : Goal) (f : Fact) (unit feature : String)
    (h : plan cat features config initial goal = .error (.featureDisabled f unit feature)) :
    (∃ c ∈ cat, c.name = unit ∧ f ∈ c.adds ∧
      IsFirst (features.isEnabled · = false) c.features.toList feature) ∧
    ((∀ c ∈ cat, f ∈ c.adds → ¬ Enabled features c) ∨
      ∃ before t requester, trials cat features initial goal = before ++ [t] ∧
        t.attempt.outcome = .ok (.stuck f requester) ∧
        ∀ c ∈ cat, f ∈ c.adds → Enabled features c → c ∈ t.selected) := by
  rcases refused_of_plan h with ⟨before, t, g, requester, htrials, hstuck, hrefused⟩ | ⟨g, requester, hrefused⟩
  · obtain ⟨rfl, hgated, hpassed⟩ := gated_of_refused hrefused
    exact ⟨hgated, .inr ⟨before, t, requester, htrials, hstuck, hpassed⟩⟩
  · obtain ⟨-, hgated, hpassed⟩ := gated_of_refused hrefused
    exact ⟨hgated, .inl fun c hc hadds henabled => absurd (hpassed c hc hadds henabled) List.not_mem_nil⟩

/-- Nothing but a unit that is off restores the fact. -/
theorem feature_disabled_is_gated_restore :
    plan (Sorted.ofList [lower, gatedRestore]) ∅ .default ∅ (.facts (Sorted.ofList [raw])) =
      .error (.featureDisabled raw "restore" "restoring") ∧
    ∃ c ∈ (Sorted.ofList [lower, gatedRestore] : Catalog), c.name = "restore" ∧ raw ∈ c.adds ∧
      IsFirst (Features.isEnabled ∅ · = false) c.features.toList "restoring" := by
  have h : plan (Sorted.ofList [lower, gatedRestore]) ∅ .default ∅ (.facts (Sorted.ofList [raw])) =
      .error (.featureDisabled raw "restore" "restoring") := by cbv
  exact ⟨h, (feature_disabled_is_gated _ ∅ .default ∅ _ raw "restore" "restoring" h).1⟩

/-! ## A fact that is taken away -/

def parse : Contract := { restore with name := "parse" }

/-- Takes away the fact that it needs. -/
def desugar : Contract := { lower with name := "desugar", needs := Sorted.ofList [raw] }

/-- The fact is not only produced by `restore`: `parse` is on and adds it. But `desugar`, which takes
    it away, needs it first, and ordering gets stuck with both of them selected. -/
theorem feature_disabled_of_parsed :
    plan (Sorted.ofList [parse, desugar, gatedRestore]) ∅ .default ∅
      (.facts (Sorted.ofList [lowered, raw])) = .error (.featureDisabled raw "restore" "restoring") ∧
    parse ∈ (Sorted.ofList [parse, desugar, gatedRestore] : Catalog) ∧ raw ∈ parse.adds ∧
      Enabled ∅ parse := by
  refine ⟨by cbv, by decide, by decide, fun name hname => ?_⟩
  exact absurd hname (Sorted.not_mem_empty name)

end Trellis.Planner
