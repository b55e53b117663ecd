/-
  Trellis.Proofs.Planner.Relevance — a plan for facts holds no unit that it could do without.

  A unit of a plan contributes to the goal if it adds a fact of the goal, or a fact that a
  contributing unit needs, and the fact is contested: it does not hold initially, or some unit of
  the plan takes it away (`Contributes`).

  Units are selected for two reasons. Closing a selection takes a producer for a fact that was
  asked for and does not hold initially. Where an ordering attempt got stuck, it takes one for the
  fact it got stuck on, and `Selection.stuck_cause` tells that this one is contested as well. So
  selections stay relevant (`close_relevant`, `settle_relevant`): what contributes goes on to do so
  when more is selected.

  - `plan_is_relevant`: if no attempt ran out of its budget, every unit of the plan contributes.
    The budget is needed: a search that runs out of it may name a need that is given.
-/
import Trellis.Proofs.Planner.Blame
import Trellis.Proofs.Planner.Soundness

namespace Trellis.Planner

variable {initial required : FactSet} {units more : List Contract} {c : Contract} {f : Fact}

theorem Contested.mono (h : Contested initial units f) (hsub : units ⊆ more) :
    Contested initial more f := by
  rcases h with h | ⟨d, hd, hf⟩
  · exact .inl h
  · exact .inr ⟨d, hsub hd, hf⟩

/-- From the unit there is a chain of units, each adding a contested fact that the next one needs,
    to one that adds a contested fact of the goal. -/
inductive Contributes (initial required : FactSet) (units : List Contract) : Contract → Prop
  | goal {c : Contract} {f : Fact} : c ∈ units → f ∈ c.adds → f ∈ required →
    Contested initial units f → Contributes initial required units c
  | unit {c d : Contract} {f : Fact} : c ∈ units → f ∈ c.adds → f ∈ d.needs →
    Contested initial units f → Contributes initial required units d →
    Contributes initial required units c

theorem Contributes.mono (h : Contributes initial required units c) (hsub : units ⊆ more) :
    Contributes initial required more c := by
  induction h with
  | goal hc hadd hgoal hf => exact .goal (hsub hc) hadd hgoal (hf.mono hsub)
  | unit hc hadd hneed hf _ ih => exact .unit (hsub hc) hadd hneed (hf.mono hsub) ih

theorem Asked.mono (h : Asked required units f) (hsub : units ⊆ more) : Asked required more f := by
  rcases h with h | ⟨d, hd, hf⟩
  · exact .inl h
  · exact .inr ⟨d, hsub hd, hf⟩

/-- Every unit contributes. -/
def Relevant (initial required : FactSet) (units : List Contract) : Prop :=
  ∀ c ∈ units, Contributes initial required units c

/-- A producer of a contested fact that is asked for may join in. -/
theorem Relevant.cons (h : Relevant initial required units) (hadd : f ∈ c.adds)
    (hasked : Asked required units f) (hf : Contested initial (c :: units) f) :
    Relevant initial required (c :: units) := by
  have hsub := List.subset_cons_self c units
  refine List.forall_mem_cons.2 ⟨?_, fun d hd => (h d hd).mono hsub⟩
  rcases hasked with hgoal | ⟨d, hd, hneed⟩
  · exact .goal List.mem_cons_self hadd hgoal hf
  · exact .unit List.mem_cons_self hadd hneed hf ((h d hd).mono hsub)

namespace Problem

variable {p : Problem} {selected larger : List Contract}

theorem asked_of_mem_requests : ∀ r ∈ requests c, Asked required (c :: selected) r.1 := by
  intro r hr
  obtain ⟨f, hf, rfl⟩ := List.mem_map.1 hr
  exact .inr ⟨c, List.mem_cons_self, hf⟩

/-- A fact that is not covered does not hold initially, so its producer is welcome. -/
theorem close_relevant {queue : List Request} (h : Relevant p.initial required selected)
    (hq : ∀ r ∈ queue, Asked required selected r.1) (hc : p.close queue selected = .ok larger) :
    Relevant p.initial required larger := by
  fun_induction p.close queue selected with
  | case1 =>
    cases hc
    exact h
  | case2 _ _ _ _ _ ih => exact ih h (List.forall_mem_cons.1 hq).2 hc
  | case3 selected f r queue hcov c chosen ih =>
    obtain ⟨hf, hq⟩ := List.forall_mem_cons.1 hq
    obtain ⟨⟨-, hadd⟩, -⟩ := mem_candidates.1 (mem_candidates_of_chooseProducer chosen)
    have hnew : f ∉ p.initial := by
      intro hi
      exact hcov (by simp [covered, hi])
    refine ih (h.cons hadd hf (.inl hnew)) (fun q hm => ?_) hc
    rcases List.mem_append.1 hm with hm | hm
    · exact (hq q hm).mono (List.subset_cons_self c selected)
    · exact asked_of_mem_requests q hm
  | case4 => cases hc

/-- What one step of `settle` adds: a producer of the contested fact that the attempt got stuck on,
    and producers for what that one needs. -/
theorem select_relevant {requester : String} (h : Relevant p.initial required selected)
    (hb : (p.selection required selected).attempt.exhausted = false)
    (hstuck : (p.selection required selected).attempt.outcome = .ok (.stuck f requester))
    (hchosen : p.chooseProducer f requester selected = .ok c)
    (hclosed : p.select c selected = .ok larger) : Relevant p.initial required larger := by
  obtain ⟨hasked, hcontested⟩ := Selection.stuck_cause hb hstuck
  have hsub : (p.selection required selected).units ⊆ selected := fun d hd =>
    (mem_units_selection.1 hd).2
  have hf : Contested p.initial (c :: selected) f :=
    (hcontested.mono hsub).mono (List.subset_cons_self c selected)
  obtain ⟨⟨-, hadd⟩, -⟩ := mem_candidates.1 (mem_candidates_of_chooseProducer hchosen)
  exact close_relevant (h.cons hadd (hasked.asked.mono hsub) hf) asked_of_mem_requests hclosed

theorem settle_relevant {settled order : List Contract} {final : FactSet}
    (h : Relevant p.initial required selected)
    (hb : ∀ t ∈ (p.settle required selected).trials, t.attempt.exhausted = false)
    (hs : (p.settle required selected).outcome = .ok (settled, order, final)) :
    Relevant p.initial required settled := by
  fun_induction p.settle required selected with
  | case1 => cases hs
  | case2 =>
    cases hs
    exact h
  | case3 => cases hs
  | case4 => cases hs
  | case5 selected _ _ f r hf c chosen larger closed _ ih =>
    obtain ⟨hfirst, hb⟩ := List.forall_mem_cons.1 hb
    exact ih (select_relevant h hfirst hf chosen closed) hb hs

theorem solve_relevant {settled order : List Contract} {final : FactSet}
    (hb : ∀ t ∈ (p.solve (.facts required)).trials, t.attempt.exhausted = false)
    (hs : (p.solve (.facts required)).outcome = .ok (settled, order, final)) :
    Relevant p.initial required settled := by
  unfold solve at hs hb
  split at hs
  · cases hs
  · rename_i selected hsel
    rw [hsel] at hb
    refine settle_relevant (close_relevant (fun _ hc => absurd hc List.not_mem_nil) ?_ hsel) hb hs
    intro r hr
    obtain ⟨f, hf, rfl⟩ := List.mem_map.1 hr
    exact .inl hf

end Problem

/-- A plan for facts, found with no attempt running out of its budget: every step is of a unit that
    contributes to the goal, by steps of the plan. -/
theorem plan_is_relevant (cat : Catalog) (features : Features) (config : Config)
    (initial required : FactSet) (q : Plan)
    (h : plan cat features config initial (.facts required) = .ok q)
    (hbudget : ∀ t ∈ ((Problem.new cat features initial).solve (.facts required)).trials,
      t.attempt.exhausted = false) :
    ∀ step ∈ q.steps, ∃ c, cat.find? step.unit = some c ∧
      Contributes initial required (Plan.declared cat q.steps) c := by
  obtain ⟨-, settled, order, final, hsolve, rfl⟩ := solve_of_plan h
  have registered := registered_of_solve hsolve
  have relevant := Problem.solve_relevant hbudget hsolve
  intro step hstep
  obtain ⟨c, hc, rfl⟩ := List.mem_map.1 hstep
  rw [Plan.declared_map fun d hd => (registered d hd).1]
  refine ⟨c, Sorted.find?_eq_some.2 ⟨(registered c hc).1, rfl⟩, ?_⟩
  exact (relevant c ((mem_order_iff hsolve).1 hc)).mono fun d hd => (mem_order_iff hsolve).2 hd

/-- Counts what is raw, after lowering. -/
def recount : Contract := { count with name := "recount", uses := Sorted.ofList ["lower"] }

/-- Lowering and counting, where the fact that counting needs can be restored. -/
def relowering : Problem := .new (Sorted.ofList [lower, recount, restore]) ∅ (Sorted.ofList [raw])

def relowering.attempt (selected : List Contract) : Attempt :=
  (relowering.selection (Sorted.ofList [lowered, counted]) selected).attempt

/-- Closing the goal selects `lower` and `recount`, whose need holds initially; `restore` joins in
    when ordering gets stuck, and contributes because `lower` removes the fact. -/
theorem plan_is_relevant_restore :
    ∃ q, plan (Sorted.ofList [lower, recount, restore]) ∅ .default (Sorted.ofList [raw])
        (.facts (Sorted.ofList [lowered, counted])) = .ok q ∧
      q.units = ["lower", "restore", "recount"] ∧
      ∀ step ∈ q.steps, ∃ c, Sorted.find? (Sorted.ofList [lower, recount, restore] : Catalog) step.unit = some c ∧
        Contributes (Sorted.ofList [raw]) (Sorted.ofList [lowered, counted])
          (Plan.declared (Sorted.ofList [lower, recount, restore]) q.steps) c := by
  let goal : Goal := .facts (Sorted.ofList [lowered, counted])
  let q : Plan := ⟨goal, Sorted.ofList [raw], [.ofContract lower, .ofContract restore, .ofContract recount],
    Sorted.ofList [raw, lowered, counted], []⟩
  have selects : relowering.initialSelection goal = .ok [lower, recount] := by cbv
  have stuck : (relowering.attempt [lower, recount]).outcome = .ok (.stuck raw "recount") := by cbv
  have done : (relowering.attempt [restore, lower, recount]).outcome =
      .ok (.done [lower, restore, recount] q.final) := by cbv
  have chosen : relowering.chooseProducer raw "recount" [lower, recount] = .ok restore := by cbv
  have closed : relowering.select restore [lower, recount] = .ok [restore, lower, recount] := by cbv
  have solves : relowering.solve goal = ⟨.ok ([restore, lower, recount], [lower, restore, recount], q.final),
      [⟨[lower, recount], relowering.attempt [lower, recount]⟩,
        ⟨[restore, lower, recount], relowering.attempt [restore, lower, recount]⟩]⟩ := by
    rw [Problem.solve, selects]
    refine (Problem.settle_of_stuck stuck chosen closed).trans ?_
    rw [Problem.settle_of_done done]
    rfl
  have h : plan (Sorted.ofList [lower, recount, restore]) ∅ .default (Sorted.ofList [raw]) goal = .ok q := by
    refine bind_eq_ok.2 ⟨(), by cbv, bind_eq_ok.2 ⟨_, congrArg Course.outcome solves, ?_⟩⟩
    cbv
  refine ⟨q, h, rfl, plan_is_relevant _ ∅ .default _ _ q h fun trial htrial => ?_⟩
  replace htrial : trial ∈ (relowering.solve goal).trials := htrial
  rw [solves] at htrial
  rcases List.mem_cons.1 htrial with rfl | htrial
  · cbv
  · cases List.mem_singleton.1 htrial
    cbv

end Trellis.Planner
