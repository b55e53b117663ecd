/-
  Trellis.Proofs.Planner.Derivable — what can come about at all, were nothing ever removed.

  A fact is derivable if it holds initially, or if an eligible unit adds it all of whose needs
  are derivable. Saturating the initial facts finds exactly these (`mem_derivable`), so a unit is
  reachable if it is eligible and its needs are derivable (`reachable_iff`).

  A derivable fact that does not hold initially has a reachable producer that does not itself
  need it (`exists_producer`): the one that brought it about when it was new.
-/
import Trellis.Proofs.Planner.Choices

namespace Trellis.Planner

/-- The fact holds initially, or comes about by eligible units, nothing ever removed. -/
inductive Derivable (cat : Catalog) (features : Features) (initial : FactSet) : Fact → Prop
  | given {f : Fact} : f ∈ initial → Derivable cat features initial f
  | added {c : Contract} {f : Fact} : c ∈ cat → eligible features c = true →
    (∀ n ∈ c.needs, Derivable cat features initial n) → f ∈ c.adds →
    Derivable cat features initial f

/-! ## Saturation -/

section Saturation

variable {facts : FactSet} {waiting : List Contract} {c : Contract} {f : Fact}

theorem mem_met : c ∈ met facts waiting ↔ c ∈ waiting ∧ ∀ n ∈ c.needs, n ∈ facts := by
  rw [met, List.mem_filter, FactSet.holdsAll_iff]

theorem mem_unmet : c ∈ unmet facts waiting ↔ c ∈ waiting ∧ c ∉ met facts waiting := by
  rw [unmet, List.mem_filter, mem_met, ← FactSet.holdsAll_iff]
  constructor
  · intro h
    exact ⟨h.1, fun hm => by simp [hm.2] at h⟩
  · intro h
    exact ⟨h.1, by simpa [h.1] using h.2⟩

/-- The facts after one round. -/
theorem mem_round : f ∈ facts.insertAll ((met facts waiting).flatMap (·.adds.toList)) ↔
    (∃ c ∈ met facts waiting, f ∈ c.adds) ∨ f ∈ facts := by
  rw [OrdSet.mem_insertAll, List.mem_flatMap]
  rfl

theorem subset_saturate (h : f ∈ facts) : f ∈ saturate facts waiting := by
  fun_induction saturate facts waiting with
  | case1 => exact h
  | case2 facts waiting _ ih => exact ih (mem_round.2 (.inr h))

/-- A unit whose needs come about has come about itself. -/
theorem adds_subset_saturate (hc : c ∈ waiting) (hn : ∀ n ∈ c.needs, n ∈ saturate facts waiting)
    (hf : f ∈ c.adds) : f ∈ saturate facts waiting := by
  fun_induction saturate facts waiting with
  | case1 facts waiting hnone =>
    have : c ∈ met facts waiting := mem_met.2 ⟨hc, hn⟩
    rw [hnone] at this
    cases this
  | case2 facts waiting _ ih =>
    by_cases hm : c ∈ met facts waiting
    · exact subset_saturate (mem_round.2 (.inl ⟨c, hm, hf⟩))
    · exact ih (mem_unmet.2 ⟨hc, hm⟩) hn

/-- Whatever comes about was there, or was new when a unit added it. -/
theorem origin_of_mem_saturate (h : f ∈ saturate facts waiting) :
    f ∈ facts ∨ ∃ c ∈ waiting, f ∈ c.adds ∧ f ∉ c.needs ∧ ∀ n ∈ c.needs, n ∈ saturate facts waiting := by
  fun_induction saturate facts waiting with
  | case1 => exact .inl h
  | case2 facts waiting _ ih =>
    by_cases hold : f ∈ facts
    · exact .inl hold
    · refine .inr ?_
      rcases ih h with hnew | ⟨c, hc, hrest⟩
      · obtain ⟨c, hm, hf⟩ := (mem_round.1 hnew).resolve_right hold
        obtain ⟨hc, hn⟩ := mem_met.1 hm
        refine ⟨c, hc, hf, fun hneed => hold (hn f hneed), fun n hneed => ?_⟩
        exact subset_saturate (mem_round.2 (.inr (hn n hneed)))
      · exact ⟨c, (mem_unmet.1 hc).1, hrest⟩

theorem derivable_of_mem_saturate {cat : Catalog} {features : Features} {initial : FactSet}
    (hfacts : ∀ f ∈ facts, Derivable cat features initial f)
    (hwaiting : ∀ c ∈ waiting, c ∈ cat ∧ eligible features c = true) (h : f ∈ saturate facts waiting) :
    Derivable cat features initial f := by
  fun_induction saturate facts waiting with
  | case1 => exact hfacts f h
  | case2 facts waiting _ ih =>
    refine ih ?_ (fun c hc => hwaiting c (mem_unmet.1 hc).1) h
    intro n hn
    rcases mem_round.1 hn with ⟨c, hm, hadd⟩ | hn
    · obtain ⟨hc, hneeds⟩ := mem_met.1 hm
      obtain ⟨hcat, he⟩ := hwaiting c hc
      exact .added hcat he (fun m hm => hfacts m (hneeds m hm)) hadd
    · exact hfacts n hn

end Saturation

/-! ## Problems -/

namespace Problem

variable {cat : Catalog} {features : Features} {initial : FactSet} {p : Problem} {c : Contract}
  {f : Fact}

theorem mem_derivable : f ∈ (new cat features initial).derivable ↔ Derivable cat features initial f := by
  have waiting (c : Contract) : c ∈ (new cat features initial).lineup.toList.filter
      (Planner.eligible features) ↔ c ∈ cat ∧ Planner.eligible features c = true := by
    rw [List.mem_filter, Sorted.mem_toList, mem_lineup]
  constructor
  · exact derivable_of_mem_saturate (fun f hf => .given hf) fun c hc => (waiting c).1 hc
  · intro h
    induction h with
    | given hf => exact subset_saturate hf
    | added hc he _ hf ih => exact adds_subset_saturate ((waiting _).2 ⟨hc, he⟩) ih hf

theorem reachable_iff : p.reachable c = true ↔ p.eligible c = true ∧ ∀ f ∈ c.needs, f ∈ p.derivable := by
  rw [reachable, Bool.and_eq_true, FactSet.holdsAll_iff]

theorem exists_producer (hf : f ∈ p.derivable) (hnew : f ∉ p.initial) :
    ∃ c ∈ p.lineup, p.reachable c = true ∧ f ∈ c.adds ∧ f ∉ c.needs := by
  rw [p.derivable_eq] at hf
  obtain ⟨c, hc, hadd, hneed, hderiv⟩ := (origin_of_mem_saturate hf).resolve_left hnew
  obtain ⟨hl, he⟩ := List.mem_filter.1 hc
  refine ⟨c, hl, reachable_iff.2 ⟨he, fun n hn => ?_⟩, hadd, hneed⟩
  rw [p.derivable_eq]
  exact hderiv n hn

end Problem

end Trellis.Planner
