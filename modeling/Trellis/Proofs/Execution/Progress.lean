/-
  Trellis.Proofs.Execution.Progress — the moments of an execution, and what ends it early.

  `Pass.InTurn` is the course of the invocations of a step that do not crash, one after another up
  to the first that fails; what holds of them is shown by induction on it. How a step can end is
  said once (`runStep_cases`): an invocation is what a step fails of (`invokeAll_failure`), so its
  error names the unit and the node (`runStep_failed`). `Engine.Reaches` says that some steps have
  been run and committed and the rest is still to be run. A run that ends early ends at such a
  moment: the next step could not be prepared, or could not be completed (`runSteps_error`).
-/
import Trellis.Execution

namespace Trellis

variable {τ : Type} [MarkerFamily τ]

/-! ## Invocations in turn -/

namespace Outcome

omit [MarkerFamily τ] in
theorem failure?_cons {n : NodeId} {outcome : Outcome τ} (h : ∀ staged e, outcome ≠ .failed staged e)
    (outcomes : List (NodeId × Outcome τ)) : failure? ((n, outcome) :: outcomes) = failure? outcomes := by
  cases outcome with
  | failed staged e => exact absurd rfl (h staged e)
  | _ => rfl

end Outcome

namespace Pass

/-- The invocations on some nodes in turn, with the outcomes and the runs between which they take
    place. One that fails is the last. -/
inductive InTurn (p : Pass τ) (step : Step) :
    List NodeId → Run τ → List (NodeId × Outcome τ) → Run τ → Prop
  | nil (r : Run τ) : InTurn p step [] r [] r
  | failed {n : NodeId} {nodes : List NodeId} {r r' : Run τ} {staged : Staged τ} {error : Error} :
    p.invoke step r n = (.ok (.failed staged error), r') →
    InTurn p step (n :: nodes) r [(n, .failed staged error)] r'
  | next {n : NodeId} {nodes : List NodeId} {r r₁ r' : Run τ} {outcome : Outcome τ}
    {outcomes : List (NodeId × Outcome τ)} :
    (∀ staged error, outcome ≠ .failed staged error) → p.invoke step r n = (.ok outcome, r₁) →
    InTurn p step nodes r₁ outcomes r' → InTurn p step (n :: nodes) r ((n, outcome) :: outcomes) r'

variable {p : Pass τ} {step : Step} {targets : List NodeId} {r r' : Run τ}
  {outcomes : List (NodeId × Outcome τ)}

theorem invokeAll_ok :
    p.invokeAll step targets r = (.ok outcomes, r') ↔ p.InTurn step targets r outcomes r' := by
  constructor
  · intro h
    induction targets generalizing r outcomes with
    | nil =>
      cases h
      exact .nil _
    | cons n targets ih =>
      rw [invokeAll] at h
      split at h
      · cases h
      · rename_i hinv
        cases h
        exact .failed hinv
      · rename_i hne hinv
        split at h
        · rename_i hrest
          cases h
          exact .next hne hinv (ih hrest)
        · cases h
  · intro h
    induction h with
    | nil => rfl
    | failed hinv => rw [invokeAll, hinv]
    | @next n nodes r r₁ r' outcome outcomes hne hinv _ ih =>
      rw [invokeAll, hinv]
      cases outcome with
      | failed staged error => exact absurd rfl (hne staged error)
      | _ => simp only [ih]

end Pass

/-! ## Steps -/

namespace Pass

variable {p : Pass τ} {step : Step} {target : NodeId} {targets before : List NodeId} {r r₁ r' : Run τ}
  {staged : Staged τ} {error : Error} {outcomes : List (NodeId × Outcome τ)} {expected : FactSet}

/-- Unless one of its invocations crashes, a step commits what they came to, and it fails if one of
    them failed and is completed otherwise. -/
theorem runStep_cases {result : Except Stop StepReport}
    (h : p.runStep step targets expected r = (result, r')) :
    (∃ message, result = .error (.crashed message)) ∨ ∃ outcomes r₁,
      p.invokeAll step targets (r.announce step targets.length) = (.ok outcomes, r₁) ∧
      ((∃ error, Outcome.failure? outcomes = some error ∧ result = .error (.failed error) ∧
          r' = r₁.settle p.contract expected outcomes) ∨
        Outcome.failure? outcomes = none ∧ ∃ report,
          report = (outcomes.map Prod.snd).foldl .count (.empty step targets.length) ∧
          result = .ok report ∧ r' = (r₁.settle p.contract expected outcomes).conclude step report) := by
  unfold runStep at h
  dsimp only at h
  split at h
  · cases h
    exact .inl ⟨_, rfl⟩
  · rename_i outcomes r₁ hinv
    refine .inr ⟨outcomes, r₁, hinv, ?_⟩
    split at h
    · rename_i error hf
      cases h
      exact .inl ⟨error, hf, rfl, rfl⟩
    · rename_i hf
      cases h
      exact .inr ⟨hf, _, rfl, rfl, rfl⟩

/-- A failed invocation is one whose body failed. -/
theorem invoke_failed (h : p.invoke step r target = (.ok (.failed staged error), r')) :
    ∃ source inv, r.session.appliesTo p target = true ∧
      p.runBody step target r = (.error (.failed source), inv) ∧ inv.staged = staged ∧
      error = .invocation step.unit target source ∧
      r'.session = inv.session.record
        ⟨.invocationFailed, step.unit, target, error.message, unmeasured⟩ ∧
      r'.signals = r.signals ++ [.invocationFailed step.unit target error] := by
  unfold invoke at h
  split at h
  · rename_i happlies
    split at h
    · cases h
    · rename_i source inv hrun
      cases h
      exact ⟨source, inv, happlies, hrun, rfl, rfl, rfl, rfl⟩
    · cases h
  · cases h

/-- The invocations of a step fail with the first one that does. -/
theorem invokeAll_failure (h : p.invokeAll step targets r = (.ok outcomes, r'))
    (hf : Outcome.failure? outcomes = some error) :
    ∃ before target after done r₁ staged, targets = before ++ target :: after ∧
      p.invokeAll step before r = (.ok done, r₁) ∧ Outcome.failure? done = none ∧
      p.invoke step r₁ target = (.ok (.failed staged error), r') ∧
      outcomes = done ++ [(target, .failed staged error)] := by
  rw [invokeAll_ok] at h
  induction h with
  | nil => cases hf
  | @failed n nodes r _ staged _ hinv =>
    cases hf
    exact ⟨[], n, nodes, [], r, staged, rfl, rfl, rfl, hinv, rfl⟩
  | @next n _ _ _ _ outcome _ hne hinv _ ih =>
    rw [Outcome.failure?_cons hne] at hf
    obtain ⟨before, target, after, done, r₁, staged, rfl, hdone, hnone, hfail, rfl⟩ := ih hf
    refine ⟨n :: before, target, after, (n, outcome) :: done, r₁, staged, rfl, ?_, ?_, hfail, rfl⟩
    · exact invokeAll_ok.2 (.next hne hinv (invokeAll_ok.1 hdone))
    · rw [Outcome.failure?_cons hne, hnone]

/-- What the invocations of a step come to, seen from one of its nodes. -/
theorem invokeAll_split {after : List NodeId}
    (h : p.invokeAll step (before ++ target :: after) r = (.ok outcomes, r'))
    (hf : Outcome.failure? outcomes = none) : ∃ done r₁ outcome r₂ rest,
      p.invokeAll step before r = (.ok done, r₁) ∧ Outcome.failure? done = none ∧
      p.invoke step r₁ target = (.ok outcome, r₂) ∧ p.invokeAll step after r₂ = (.ok rest, r') ∧
      outcomes = done ++ (target, outcome) :: rest := by
  rw [invokeAll_ok] at h
  induction before generalizing r outcomes with
  | nil =>
    cases h with
    | failed hinv => cases hf
    | next _ hinv rest => exact ⟨[], r, _, _, _, rfl, rfl, hinv, invokeAll_ok.2 rest, rfl⟩
  | cons n before ih =>
    cases h with
    | failed hinv => cases hf
    | @next _ _ _ _ _ first _ hne hinv more =>
      rw [Outcome.failure?_cons hne] at hf
      obtain ⟨done, r₁, outcome, r₂, rest, hdone, hnone, htarget, hrest, rfl⟩ := ih more hf
      refine ⟨(n, first) :: done, r₁, outcome, r₂, rest, ?_, ?_, htarget, hrest, rfl⟩
      · exact invokeAll_ok.2 (.next hne hinv (invokeAll_ok.1 hdone))
      · rw [Outcome.failure?_cons hne, hnone]

/-- An invocation that fails is the last one of its step. -/
theorem invokeAll_of_failed (hbefore : p.invokeAll step before r = (.ok outcomes, r₁))
    (hnone : Outcome.failure? outcomes = none)
    (hfail : p.invoke step r₁ target = (.ok (.failed staged error), r')) (after : List NodeId) :
    p.invokeAll step (before ++ target :: after) r =
      (.ok (outcomes ++ [(target, .failed staged error)]), r') := by
  rw [invokeAll_ok] at hbefore ⊢
  induction hbefore with
  | nil => exact .failed hfail
  | failed => cases hnone
  | next hne hinv _ ih =>
    rw [Outcome.failure?_cons hne] at hnone
    exact .next hne hinv (ih hnone hfail)

/-- What becomes of a step of which an invocation fails: what there is by then is committed. -/
theorem runStep_of_failed (after : List NodeId) (expected : FactSet)
    (hbefore : p.invokeAll step before (r.announce step (before ++ target :: after).length) =
      (.ok outcomes, r₁)) (hnone : Outcome.failure? outcomes = none)
    (hfail : p.invoke step r₁ target = (.ok (.failed staged error), r')) :
    p.runStep step (before ++ target :: after) expected r = (.error (.failed error), { r' with
      session := (outcomes ++ [(target, Outcome.failed staged error)]).foldl
        (Session.commit p.contract expected) r'.session }) := by
  have failed : Outcome.failure? (outcomes ++ [(target, .failed staged error)]) = some error := by
    rw [Outcome.failure?, List.findSome?_append, ← Outcome.failure?, hnone, Option.none_or]
    rfl
  have invoked := invokeAll_of_failed hbefore hnone hfail after
  rw [runStep]
  simp only [invoked, failed]
  rfl

/-- A step that fails does so by the body of its pass on one of its nodes. -/
theorem runStep_failed (h : p.runStep step targets expected r = (.error (.failed error), r')) :
    ∃ target ∈ targets, ∃ source, error = .invocation step.unit target source := by
  obtain ⟨_, ⟨⟩⟩ | ⟨outcomes, r₁, hinv, ⟨_, hf, ⟨⟩, -⟩ | ⟨-, _, -, ⟨⟩, -⟩⟩ := runStep_cases h
  obtain ⟨before, target, after, -, r₂, staged, rfl, -, -, hfail, -⟩ := invokeAll_failure hinv hf
  obtain ⟨source, -, -, -, -, rfl, -⟩ := invoke_failed hfail
  exact ⟨target, by simp, source, rfl⟩

end Pass

/-! ## Runs -/

namespace Engine

/-- From a run of some steps one can come to a run of the rest of them, the others having been
    prepared and completed one after the other. -/
inductive Reaches (e : Engine τ) :
    List Step → Standing → Run τ → List Step → Standing → Run τ → Prop
  | here (steps : List Step) (st : Standing) (r : Run τ) : Reaches e steps st r steps st r
  | next {step : Step} {steps rest : List Step} {st st' : Standing} {r r₁ r' : Run τ} {p : Pass τ}
    {targets : List NodeId} {report : StepReport} :
    e.prepare r.session st step = .ok (p, targets) →
    p.runStep step targets st.expected r = (.ok report, r₁) →
    Reaches e steps (st.after p.contract) r₁ rest st' r' →
    Reaches e (step :: steps) st r rest st' r'

variable {e : Engine τ} {steps rest : List Step} {st st' : Standing} {r r' r'' : Run τ}
  {stop : Stop} {error : Error} {s : Session τ} {q : Plan}

theorem verify_error {p : Pass τ} {targets : List NodeId} {assumed : OrdSet String}
    (h : s.verify p targets assumed = .error error) : ∃ why, error = .inconsistent why := by
  unfold Session.verify at h
  split at h
  · cases h
    exact ⟨_, rfl⟩
  · cases h

/-- A step cannot be prepared because no adapters lead to its granularity, or because something
    does not fit. -/
theorem prepare_error {step : Step} (h : e.prepare s st step = .error error) :
    (error = .missingAdapter step.granularity ∧
      ∀ chain, e.adapters.chain step.granularity ≠ .ok chain) ∨
    ∃ why, error = .inconsistent why := by
  unfold prepare at h
  split at h
  · cases h
    exact .inr ⟨_, rfl⟩
  · rcases bind_eq_error.1 h with h | ⟨targets, -, h⟩
    · cases hchain : e.adapters.chain step.granularity with
      | ok chain =>
        rw [Adapters.expandRoot, hchain] at h
        cases h
      | error missing =>
        rw [Adapters.expandRoot, hchain] at h
        cases h
        refine .inl ⟨?_, nofun⟩
        unfold Adapters.chain AdapterSet.chain at hchain
        split at hchain
        · cases hchain
        · cases hchain
          rfl
    · split at h
      · rcases bind_eq_error.1 h with h | ⟨_, -, h⟩
        · exact .inr (verify_error h)
        · cases h
      · cases h

/-- A run ends with a step that does. -/
theorem runSteps_of_error {step : Step} {p : Pass τ} {targets : List NodeId}
    (hprep : e.prepare r.session st step = .ok (p, targets))
    (hstep : p.runStep step targets st.expected r = (.error stop, r')) :
    e.runSteps (step :: rest) st r = (.error stop, r') := by
  rw [runSteps, hprep]
  simp only [hstep]

/-- After a step that is completed a run goes on as the rest of it does. -/
theorem runSteps_of_ok {step : Step} {p : Pass τ} {targets : List NodeId} {report : StepReport}
    (hprep : e.prepare r.session st step = .ok (p, targets))
    (hstep : p.runStep step targets st.expected r = (.ok report, r')) :
    e.runSteps (step :: rest) st r = ((e.runSteps rest (st.after p.contract) r').1.map (report :: ·),
      (e.runSteps rest (st.after p.contract) r').2) := by
  rw [runSteps, hprep]
  simp only [hstep]
  rcases e.runSteps rest (st.after p.contract) r' with ⟨_ | reports, r''⟩
  · rfl
  · rfl

/-- A run ends early as it does from any moment that it comes to. -/
theorem Reaches.runSteps_error (h : e.Reaches steps st r rest st' r')
    (he : e.runSteps rest st' r' = (.error stop, r'')) : e.runSteps steps st r = (.error stop, r'') := by
  induction h with
  | here => exact he
  | next hprep hstep _ ih =>
    rw [runSteps_of_ok hprep hstep, ih he]
    rfl

/-- A run that ends early comes to a step that cannot be prepared or is not completed. -/
theorem runSteps_error (h : e.runSteps steps st r = (.error stop, r')) :
    ∃ step rest st₁ r₁, e.Reaches steps st r (step :: rest) st₁ r₁ ∧
      ((∃ error, e.prepare r₁.session st₁ step = .error error ∧ stop = .failed error) ∨
        ∃ p targets, e.prepare r₁.session st₁ step = .ok (p, targets) ∧
          p.runStep step targets st₁.expected r₁ = (.error stop, r')) := by
  induction steps generalizing st r with
  | nil => cases h
  | cons step steps ih =>
    rw [runSteps] at h
    split at h
    · rename_i error hprep
      cases h
      exact ⟨step, steps, st, _, .here _ _ _, .inl ⟨error, hprep, rfl⟩⟩
    · rename_i p targets hprep
      split at h
      · rename_i stop r₁ hstep
        cases h
        exact ⟨step, steps, st, r, .here _ _ _, .inr ⟨p, targets, hprep, hstep⟩⟩
      · rename_i report r₁ hstep
        split at h
        · cases h
        · rename_i stop r₂ hrest
          cases h
          obtain ⟨step', rest, st₁, r₂, hreach, hend⟩ := ih hrest
          exact ⟨step', rest, st₁, r₂, .next hprep hstep hreach, hend⟩

/-- What becomes of an execution whose run fails: the error is told, and the session is poisoned. -/
theorem execute_of_runPlan_failed (hs : s.poisoned = false)
    (h : e.runPlan q s = (.error (.failed error), r)) :
    e.execute q s = (.error (.failed error), poison q error r) := by
  rw [execute, hs, if_neg Bool.false_ne_true, h]

/-- An execution fails on a poisoned session, or because the run of the plan fails. -/
theorem execute_failed (h : e.execute q s = (.error (.failed error), r')) :
    error = .sessionPoisoned ∨ ∃ r, e.runPlan q s = (.error (.failed error), r) := by
  unfold execute at h
  split at h
  · cases h
    exact .inl rfl
  · split at h
    · rename_i error' r hrun
      cases h
      exact .inr ⟨r, hrun⟩
    · rename_i hne
      exact absurd h (hne error r')

end Engine

end Trellis
