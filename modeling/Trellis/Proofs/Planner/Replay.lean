/-
  Trellis.Proofs.Planner.Replay — what holds while units run one after the other.

  `enact` are the facts after a list of units, `Feasible` says that each finds what it needs;
  replaying succeeds exactly on feasible lists and answers those facts (`replay_eq_ok`).

  A fact holds in the end exactly if the last to touch it was a unit that adds it, or if it held
  to begin with and none removed it (`mem_enact`).
-/
import Trellis.Planner.Ordering

namespace Trellis.Planner

/-- The facts after units have run one after the other. -/
def enact (state : FactSet) (cs : List Contract) : FactSet :=
  cs.foldl (fun state c => state.apply c.adds c.removes) state

/-- Whatever a unit needs holds when its turn comes. -/
def Feasible (state : FactSet) (cs : List Contract) : Prop :=
  ∀ before c after, cs = before ++ c :: after → ∀ f ∈ c.needs, f ∈ enact state before

variable {state final : FactSet} {c : Contract} {cs : List Contract} {f : Fact}

theorem feasible_nil : Feasible state [] := by
  intro before c after h
  simp at h

theorem feasible_cons : Feasible state (c :: cs) ↔
    (∀ f ∈ c.needs, f ∈ state) ∧ Feasible (state.apply c.adds c.removes) cs := by
  constructor
  · intro h
    refine ⟨fun f hf => h [] c cs rfl f hf, ?_⟩
    intro before d after hd f hf
    exact h (c :: before) d after (by rw [hd, List.cons_append]) f hf
  · intro h before d after hd f hf
    cases before with
    | nil =>
      cases hd
      exact h.1 f hf
    | cons b before =>
      cases hd
      exact h.2 before d after rfl f hf

theorem replay_eq_ok : replay state cs = .ok final ↔ Feasible state cs ∧ final = enact state cs := by
  induction cs generalizing state with
  | nil =>
    rw [replay]
    constructor
    · intro h
      cases h
      exact ⟨feasible_nil, rfl⟩
    · intro h
      rw [h.2]
      rfl
  | cons c cs ih =>
    rw [replay, feasible_cons]
    split
    · rename_i f hf
      constructor
      · intro h
        cases h
      · intro h
        rw [FactSet.firstMissing_eq_none.2 h.1.1] at hf
        cases hf
    · rename_i hf
      rw [ih]
      have := FactSet.firstMissing_eq_none.1 hf
      exact ⟨fun h => ⟨⟨this, h.1⟩, h.2⟩, fun h => ⟨h.1.2, h.2⟩⟩

theorem mem_enact : f ∈ enact state cs ↔
    (f ∈ state ∧ ∀ d ∈ cs, f ∉ d.removes) ∨
    ∃ before c after, cs = before ++ c :: after ∧ f ∈ c.adds ∧ ∀ d ∈ after, f ∉ d.removes := by
  induction cs generalizing state with
  | nil => simp [enact]
  | cons d cs ih =>
    show f ∈ enact (state.apply d.adds d.removes) cs ↔ _
    rw [ih, FactSet.mem_apply]
    constructor
    · intro h
      rcases h with ⟨ha | ⟨hs, hr⟩, hcs⟩ | ⟨before, c, after, rfl, ha, hr⟩
      · exact .inr ⟨[], d, cs, rfl, ha, hcs⟩
      · exact .inl ⟨hs, List.forall_mem_cons.2 ⟨hr, hcs⟩⟩
      · exact .inr ⟨d :: before, c, after, rfl, ha, hr⟩
    · intro h
      rcases h with ⟨hs, hcs⟩ | ⟨before, c, after, e, ha, hr⟩
      · obtain ⟨hr, hcs⟩ := List.forall_mem_cons.1 hcs
        exact .inl ⟨.inr ⟨hs, hr⟩, hcs⟩
      · cases before with
        | nil =>
          cases e
          exact .inl ⟨.inl ha, hr⟩
        | cons b before =>
          cases e
          exact .inr ⟨before, c, after, rfl, ha, hr⟩

end Trellis.Planner
