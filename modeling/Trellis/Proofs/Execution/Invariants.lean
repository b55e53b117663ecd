/-
  Trellis.Proofs.Execution.Invariants — carrying a property through the invocations of a step.

  However an invocation ends, it ends with what its body has left, less a lock that a crash may
  have broken, and one event about its target. What these keep is kept by all the invocations
  of a step (`invokeAll_snd`); what commits keep as well, by the step (`runStep_snd`), and what
  steps keep, by a run of them (`runSteps_snd`).
-/
import Trellis.Execution

namespace Trellis

variable {τ : Type} [MarkerFamily τ] {r : Run τ}

namespace Pass

variable (p : Pass τ) (step : Step) {target : NodeId}

theorem runBody_snd {P : Invocation τ → Prop} (start : P ⟨r.session, .none, r.notes⟩)
    (body : P ((p.body ⟨step.unit, target, step.granularity⟩).run
      ⟨step.unit, target, step.granularity⟩ ⟨r.session, .none, r.notes⟩).2)
    (lock : ∀ inv broken, P inv → P { inv with session := { inv.session with lockBroken := broken } }) :
    P (p.runBody step target r).2 := by
  unfold runBody
  dsimp only
  split
  · exact start
  · split
    · rename_i message after hrun
      rw [hrun] at body
      exact lock after _ body
    · exact body

theorem invoke_snd {I : Session τ → Prop} (start : I r.session)
    (body : I (p.runBody step target r).2.session)
    (record : ∀ s event, event.node = some target → I s → I (s.record event)) :
    I (p.invoke step r target).2.session := by
  unfold invoke
  split
  · split
    · rename_i inv hrun
      rw [hrun] at body
      exact record _ _ rfl body
    · rename_i source inv hrun
      rw [hrun] at body
      exact record _ _ rfl body
    · rename_i message inv hrun
      rw [hrun] at body
      exact body
  · exact record _ _ rfl start

theorem invokeAll_snd {I : Session τ → Prop} {targets : List NodeId} (start : I r.session)
    (invoke : ∀ n ∈ targets, ∀ r : Run τ, I r.session → I (p.invoke step r n).2.session) :
    I (p.invokeAll step targets r).2.session := by
  induction targets generalizing r with
  | nil => exact start
  | cons n targets ih =>
    obtain ⟨hn, htargets⟩ := List.forall_mem_cons.1 invoke
    have first := hn r start
    rw [invokeAll]
    split
    · rename_i hinv
      rw [hinv] at first
      exact first
    · rename_i hinv
      rw [hinv] at first
      exact first
    · rename_i hinv
      rw [hinv] at first
      have rest := ih first htargets
      split
      · rename_i hrest
        rw [hrest] at rest
        exact rest
      · rename_i hrest
        rw [hrest] at rest
        exact rest

theorem runStep_snd {I : Session τ → Prop} {targets : List NodeId} {expected : FactSet}
    (start : I r.session) (record : ∀ s event, I s → I (s.record event))
    (invoke : ∀ n ∈ targets, ∀ r : Run τ, I r.session → I (p.invoke step r n).2.session)
    (commit : ∀ s o, I s → I (s.commit p.contract expected o)) :
    I (p.runStep step targets expected r).2.session := by
  have commitAll (outcomes : List (NodeId × Outcome τ)) (s : Session τ) (hs : I s) :
      I (outcomes.foldl (Session.commit p.contract expected) s) := by
    induction outcomes generalizing s with
    | nil => exact hs
    | cons o outcomes ih => exact ih _ (commit s o hs)
  unfold runStep
  dsimp only
  have invoked := p.invokeAll_snd step (r := r.announce step targets.length) (record _ _ start) invoke
  split
  · rename_i hinv
    rw [hinv] at invoked
    exact invoked
  · rename_i outcomes r₁ hinv
    rw [hinv] at invoked
    have committed := commitAll outcomes _ invoked
    split
    · exact committed
    · exact record _ _ committed

end Pass

theorem Engine.runSteps_snd {e : Engine τ} {I : Session τ → Prop} {steps : List Step} {st : Standing}
    (start : I r.session) (runStep : ∀ (p : Pass τ) step targets expected (r : Run τ), I r.session →
      I (p.runStep step targets expected r).2.session) :
    I (e.runSteps steps st r).2.session := by
  induction steps generalizing st r with
  | nil => exact start
  | cons step steps ih =>
    rw [runSteps]
    split
    · exact start
    · rename_i p targets hprep
      have first := runStep p step targets st.expected r start
      split
      · rename_i hstep
        rw [hstep] at first
        exact first
      · rename_i hstep
        rw [hstep] at first
        have rest : I (e.runSteps steps (st.after p.contract) _).2.session := ih first
        split
        · rename_i hrest
          rw [hrest] at rest
          exact rest
        · rename_i hrest
          rw [hrest] at rest
          exact rest

end Trellis
