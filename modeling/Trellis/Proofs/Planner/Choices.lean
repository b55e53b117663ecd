/-
  Trellis.Proofs.Planner.Choices — which units planning selects.

  The line-up has no two units of one name (`nodup_names_lineup`). Selections are drawn from it,
  and from the eligible ones only; and what `settle` answers is the outcome of one ordering
  attempt, for a selection that contains the one it began with (`settle_ok`).
-/
import Trellis.Planner
import Trellis.Proofs.Places

namespace Trellis

/-! ## The line-up -/

namespace Planner.Problem

variable {cat : Catalog} {features : Features} {initial : FactSet} {c : Contract}

theorem nodup_names_lineup (cat : Catalog) (features : Features) (initial : FactSet) :
    ((new cat features initial).lineup.toList.map Contract.name).Nodup := by
  refine List.pairwise_map.2 ?_
  refine List.Pairwise.imp_of_mem ?_ (new cat features initial).lineup.ascending
  intro a b ha hb hlt hname
  have : a = b := Sorted.eq_of_key_eq (s := cat) (mem_lineup.1 ha) (mem_lineup.1 hb) hname
  exact Sorted.ne_of_compare_lt hlt (congrArg Contract.turn this)

/-! ## Selections -/

variable {p : Problem}

/-- All units of the selection are eligible units of the line-up. -/
def Drawn (p : Problem) (selected : List Contract) : Prop :=
  ∀ c ∈ selected, c ∈ p.lineup ∧ p.eligible c = true

theorem Drawn.cons {selected : List Contract} (h : p.Drawn selected) {f : Fact} {r : String}
    {passed : List Contract} (hc : p.chooseProducer f r passed = .ok c) : p.Drawn (c :: selected) := by
  obtain ⟨⟨hl, -⟩, he, -⟩ := mem_candidates.1 (mem_candidates_of_chooseProducer hc)
  exact List.forall_mem_cons.2 ⟨⟨hl, he⟩, h⟩

theorem Drawn.close {queue : List Request} {selected closed : List Contract}
    (h : p.Drawn selected) (hc : p.close queue selected = .ok closed) : p.Drawn closed := by
  fun_induction p.close queue selected with
  | case1 =>
    cases hc
    exact h
  | case2 _ _ _ _ _ ih => exact ih h hc
  | case3 _ _ _ _ _ c chosen ih => exact ih (h.cons chosen) hc
  | case4 => cases hc

theorem drawn_initialSelection {goal : Goal} {selected : List Contract}
    (h : p.initialSelection goal = .ok selected) : p.Drawn selected := by
  cases goal with
  | facts fs => exact Drawn.close (fun _ hc => absurd hc List.not_mem_nil) h
  | maximal =>
    cases h
    intro c hc
    obtain ⟨hl, hr⟩ := List.mem_filter.1 hc
    rw [reachable, Bool.and_eq_true] at hr
    exact ⟨hl, hr.1⟩

theorem mem_units_selection {required : FactSet} {selected : List Contract} :
    c ∈ (p.selection required selected).units ↔ c ∈ p.lineup ∧ c ∈ selected := by
  simp [selection, Sorted.mem_toList]

/-- What an enlarged selection is ordered to is what one attempt answers. -/
theorem settle_ok {required : FactSet} {selected settled order : List Contract} {final : FactSet}
    (hd : p.Drawn selected) (h : (p.settle required selected).outcome = .ok (settled, order, final)) :
    p.Drawn settled ∧ selected ⊆ settled ∧
      (p.selection required settled).attempt.outcome = .ok (.done order final) := by
  fun_induction p.settle required selected with
  | case1 => cases h
  | case2 selected _ _ order final hdone =>
    cases h
    exact ⟨hd, fun _ hc => hc, hdone⟩
  | case3 => cases h
  | case4 => cases h
  | case5 selected _ _ f r _ c chosen larger closed _ ih =>
    obtain ⟨hdrawn, hsub, hdone⟩ := ih ((hd.cons chosen).close closed) h
    refine ⟨hdrawn, fun x hx => hsub (closed_subset closed ?_), hdone⟩
    exact List.mem_cons_of_mem _ hx

/-- The first attempt is made for the selection as it is. -/
theorem settle_trials (p : Problem) (required : FactSet) (selected : List Contract) :
    ∃ later, (p.settle required selected).trials =
      ⟨selected, (p.selection required selected).attempt⟩ :: later := by
  fun_induction p.settle required selected with
  | case5 => exact ⟨_, rfl⟩
  | _ => exact ⟨[], rfl⟩

/-- Every attempt is one to order its own selection. -/
theorem attempt_of_trial {required : FactSet} {selected : List Contract} {t : Trial}
    (ht : t ∈ (p.settle required selected).trials) :
    t.attempt = (p.selection required t.selected).attempt := by
  fun_induction p.settle required selected with
  | case5 _ _ _ _ _ _ _ _ _ _ _ ih =>
    rcases List.mem_cons.1 ht with rfl | ht
    · rfl
    · exact ih ht
  | _ => rw [List.mem_singleton.1 ht]

/-- Every attempt is for eligible units, if the first is. -/
theorem drawn_of_trial {required : FactSet} {selected : List Contract} {t : Trial}
    (hd : p.Drawn selected) (ht : t ∈ (p.settle required selected).trials) : p.Drawn t.selected := by
  fun_induction p.settle required selected with
  | case5 _ _ _ _ _ _ _ chosen _ closed _ ih =>
    rcases List.mem_cons.1 ht with rfl | ht
    · exact hd
    · exact ih ((hd.cons chosen).close closed) ht
  | _ =>
    rw [List.mem_singleton.1 ht]
    exact hd

section Settle

variable {required : FactSet} {selected larger order : List Contract} {final : FactSet} {f : Fact}
  {requester : String}

theorem settle_of_done
    (h : (p.selection required selected).attempt.outcome = .ok (.done order final)) :
    p.settle required selected =
      ⟨.ok (selected, order, final), [⟨selected, (p.selection required selected).attempt⟩]⟩ := by
  rw [settle]
  split
  · rename_i e
    cases h.symm.trans e
  · rename_i e
    cases h.symm.trans e
    rfl
  · rename_i e
    cases h.symm.trans e

theorem settle_of_stuck
    (h : (p.selection required selected).attempt.outcome = .ok (.stuck f requester))
    (hc : p.chooseProducer f requester selected = .ok c) (hl : p.select c selected = .ok larger) :
    p.settle required selected = { p.settle required larger with
      trials := ⟨selected, (p.selection required selected).attempt⟩
        :: (p.settle required larger).trials } := by
  rw [settle]
  split
  · rename_i e
    cases h.symm.trans e
  · rename_i e
    cases h.symm.trans e
  · rename_i e
    cases h.symm.trans e
    split
    · rename_i e
      cases hc.symm.trans e
    · rename_i e
      cases hc.symm.trans e
      split
      · rename_i e
        cases hl.symm.trans e
      · rename_i e
        cases hl.symm.trans e
        rfl

end Settle

/-- Planning ends with what the goal asks for not to be had, or settles what it asks for. -/
theorem solve_cases (p : Problem) (goal : Goal) :
    (∃ e, p.initialSelection goal = .error e ∧ p.solve goal = ⟨.error e, []⟩) ∨
      ∃ selected, p.initialSelection goal = .ok selected ∧
        p.solve goal = p.settle goal.required selected := by
  unfold solve
  split
  · rename_i e he
    exact .inl ⟨e, he, rfl⟩
  · rename_i selected hsel
    exact .inr ⟨selected, hsel, rfl⟩

theorem trial_of_solve {goal : Goal} {t : Trial} (ht : t ∈ (p.solve goal).trials) :
    p.Drawn t.selected ∧ t.attempt = (p.selection goal.required t.selected).attempt := by
  rcases p.solve_cases goal with ⟨e, -, hs⟩ | ⟨selected, hsel, hs⟩
  · rw [hs] at ht
    cases ht
  · rw [hs] at ht
    exact ⟨drawn_of_trial (drawn_initialSelection hsel) ht, attempt_of_trial ht⟩

theorem solve_ok {goal : Goal} {settled order : List Contract} {final : FactSet}
    (h : (p.solve goal).outcome = .ok (settled, order, final)) :
    p.Drawn settled ∧
      (p.selection goal.required settled).attempt.outcome = .ok (.done order final) := by
  unfold solve at h
  split at h
  · cases h
  · rename_i selected hsel
    obtain ⟨hdrawn, -, hdone⟩ := settle_ok (drawn_initialSelection hsel) h
    exact ⟨hdrawn, hdone⟩

end Planner.Problem

end Trellis
