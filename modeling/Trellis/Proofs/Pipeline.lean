/-
  Trellis.Proofs.Pipeline — what running a pipeline can do to a session.

  A run touches the session only by executing a plan, and only a failed execution poisons it:
  1. What is found out before execution is `Error.Foreseen`, and the session is as it was.
  2. Every granularity of the catalog is checked for a chain of adapters, and the steps of a plan
     run on granularities of the catalog. So the nodes of a step are always found, and execution
     fails of an invocation or of an inconsistency, never of what is foreseen (`executes_error`).
  3. No move of a step reaches the poisoning (`lasting_poisoned`), so a run that completes has met
     none and leaves none; and on a poisoned session nothing is executed any more.

  `run_all_or_nothing` puts these together, for every pipeline with any adapters, every session, and
  by however many the steps are made. Crashes are left out: a body that crashes ends the run where it
  stands, and poisons nothing.
-/
import Trellis.Proofs.Execution.Alone
import Trellis.Proofs.Execution.Failure
import Trellis.Proofs.Planner.Concerns

namespace Trellis

variable {τ : Type} [MarkerFamily τ] {α : Type}

/-! ## Nobody but execution poisons -/

theorem Session.lasting_poisoned (poisoned : Bool) :
    Session.Lasting fun s : Session τ => s.poisoned = poisoned where
  congr h _ _ hpoisoned := hpoisoned.trans h
  answer site r h := (r.fixed_answer site _).poisoned.trans h
  copy h _ := h
  close := by
    intro s c expected task h
    rcases task with ⟨target, (_ | staged | ⟨staged, e⟩) | staged | _⟩ <;> exact h

namespace Engine

variable {e : Engine τ} {workers : Workers} {q : Plan} {s : Session τ} {r : Run τ} {error : Error}
  {answer : Except Stop (List StepReport)} {reports : List StepReport}

theorem poisoned_opening (q : Plan) (s : Session τ) : (opening q s).session.poisoned = s.poisoned := by
  have recorded (os : List Omission) (s : Session τ) :
      (os.foldl (fun s o => s.record (.remark .planWarning o.text)) s).poisoned = s.poisoned := by
    induction os generalizing s with
    | nil => rfl
    | cons o os ih => exact ih _
  exact recorded q.omissions (s.seed q.initial)

/-- An execution that completes begins and ends without poison. -/
theorem poisoned_of_executes_ok (h : e.Executes workers q s (.ok reports) r) :
    s.poisoned = false ∧ r.session.poisoned = false := by
  cases h with
  | ended hs hruns =>
    refine ⟨hs, lasting_runsSteps (Session.lasting_poisoned false) hruns ?_⟩
    rw [poisoned_opening, hs]

theorem executes_poisoned (hs : s.poisoned = true) (h : e.Executes workers q s answer r) :
    answer = .error (.failed .sessionPoisoned) ∧ r = .ofSession s := by
  cases h with
  | refused => exact ⟨rfl, rfl⟩
  | failed hs' => cases hs.symm.trans hs'
  | ended hs' => cases hs.symm.trans hs'

/-- An execution whose steps can all be expanded fails of an invocation or of an inconsistency; it
    poisons the session and tells of the failure last. -/
theorem executes_error (hchains : ∀ step ∈ q.steps, ∃ chain, e.adapters.chain step.granularity = .ok chain)
    (hs : s.poisoned = false) (h : e.Executes workers q s (.error (.failed error)) r) :
    ((∃ unit node source, error = .invocation unit node source) ∨ ∃ why, error = .inconsistent why) ∧
      r.session.poisoned = true ∧
      ∃ event, r.session.events.events.getLast? = some event ∧ event.kind = .error := by
  cases h with
  | refused hs' => cases hs.symm.trans hs'
  | ended _ _ hanswer => exact absurd rfl (hanswer error)
  | failed _ hruns =>
    refine ⟨?_, rfl, _, List.getLast?_concat, rfl⟩
    rcases runsSteps_failed hruns with ⟨step, hstep, _, _, hprep⟩ | ⟨unit, node, source, rfl⟩
    · obtain ⟨chain, hchain⟩ := hchains step hstep
      exact .inr ((prepare_error hprep).resolve_left fun missing => missing.2 chain hchain)
    · exact .inl ⟨unit, node, source, rfl⟩

end Engine

/-! ## What is found out before execution -/

section Checks

variable {ε : Type} {f : α → Except ε Unit} {xs : List α}

theorem forM_eq_ok (h : xs.forM f = .ok ()) : ∀ x ∈ xs, f x = .ok () := by
  induction xs with
  | nil => exact fun _ hx => absurd hx List.not_mem_nil
  | cons x xs ih =>
    obtain ⟨_, hx, hxs⟩ := bind_eq_ok.1 h
    exact List.forall_mem_cons.2 ⟨hx, ih hxs⟩

theorem forM_eq_error {e : ε} (h : xs.forM f = .error e) : ∃ x ∈ xs, f x = .error e := by
  induction xs with
  | nil => cases h
  | cons x xs ih =>
    rcases bind_eq_error.1 h with h | ⟨_, -, h⟩
    · exact ⟨x, List.mem_cons_self, h⟩
    · obtain ⟨y, hy, hf⟩ := ih h
      exact ⟨y, List.mem_cons_of_mem _ hy, hf⟩

end Checks

namespace Pipeline

variable {p : Pipeline τ} {s : Session τ} {initial : FactSet} {goal : Goal} {q : Plan} {e : Error}
  {c : Contract}

theorem mem_granularities (hc : c ∈ p.catalog) : c.granularity ∈ p.catalog.granularities :=
  List.mem_filter.2 ⟨Kind.mem_all _, List.any_eq_true.2 ⟨c, hc, decide_eq_true rfl⟩⟩

theorem checkChains_ok (h : p.checkChains = .ok ()) (hc : c ∈ p.catalog) :
    ∃ chain, p.engine.adapters.chain c.granularity = .ok chain := by
  obtain ⟨chain, hchain, -⟩ := bind_eq_ok.1 (forM_eq_ok h c.granularity (mem_granularities hc))
  exact ⟨chain, hchain⟩

theorem checkChains_error (h : p.checkChains = .error e) : e.Foreseen := by
  obtain ⟨k, -, hk⟩ := forM_eq_error h
  rcases bind_eq_error.1 hk with hk | ⟨_, -, hk⟩
  · rw [AdapterSet.chain_error hk]
    exact .inl rfl
  · cases hk

theorem validate_error (h : p.validate initial = .error e) : e.Foreseen := by
  rcases bind_eq_error.1 h with h | ⟨report, -, h⟩
  · exact .inl (Catalog.validate_error h)
  · rcases bind_eq_error.1 h with h | ⟨_, -, h⟩
    · exact checkChains_error h
    · cases h

theorem prepare_error (h : p.prepare s initial goal = .error e) : e.Foreseen := by
  rcases bind_eq_error.1 h with h | ⟨report, -, h⟩
  · exact validate_error h
  · rcases bind_eq_error.1 h with h | ⟨_, -, h⟩
    · exact .inl (Catalog.toExcept_error h)
    · exact Planner.plan_error h

/-- Every step of a plan that comes of a pipeline can be expanded by its adapters. -/
theorem prepare_ok (h : p.prepare s initial goal = .ok q) :
    ∀ step ∈ q.steps, ∃ chain, p.engine.adapters.chain step.granularity = .ok chain := by
  obtain ⟨report, hvalid, h⟩ := bind_eq_ok.1 h
  obtain ⟨_, -, hplan⟩ := bind_eq_ok.1 h
  obtain ⟨report, -, hvalid⟩ := bind_eq_ok.1 hvalid
  obtain ⟨_, hchains, -⟩ := bind_eq_ok.1 hvalid
  obtain ⟨-, -, -, order, hq⟩ := Planner.carries_of_plan hplan
  intro step hstep
  rw [hq.steps] at hstep
  obtain ⟨c, hc, rfl⟩ := List.mem_map.1 hstep
  exact checkChains_ok hchains (hq.registered c hc).1

/-! ## Runs -/

variable {workers : Workers} {answer : Except Stop (List StepReport)} {r : Run τ}

/-- The errors of a run that is not let near the session. -/
def Refusal (e : Error) : Prop := e.Foreseen ∨ e = .sessionPoisoned

theorem not_refusal_invocation (unit : String) (node : NodeId) (source : Error) :
    ¬ Refusal (.invocation unit node source) := by
  rintro ((h | h) | h) <;> cases h

theorem not_refusal_inconsistent (why : Inconsistency) : ¬ Refusal (.inconsistent why) := by
  rintro ((h | h) | h) <;> cases h

/-- What a run that ended with `answer` and left `r` has done to the session it was made on. -/
structure Settled (s : Session τ) (answer : Except Stop (List StepReport)) (r : Run τ) : Prop where
  /-- Nothing, if it was refused. -/
  refused : ∀ e, answer = .error (.failed e) → Refusal e → r = .ofSession s
  /-- Poisoned it for good, and said so, if the execution failed. -/
  failed : ∀ e, answer = .error (.failed e) → ¬ Refusal e →
    ((∃ unit node source, e = .invocation unit node source) ∨ ∃ why, e = .inconsistent why) ∧
      s.poisoned = false ∧ r.session.poisoned = true ∧
      ∃ event, r.session.events.events.getLast? = some event ∧ event.kind = .error
  completed : ∀ reports, answer = .ok reports → s.poisoned = false ∧ r.session.poisoned = false

theorem settled_of_refused (h : Refusal e) : Settled s (.error (.failed e)) (.ofSession s) where
  refused _ _ _ := rfl
  failed e' he hnot := by
    cases he
    exact absurd h hnot
  completed := nofun

theorem settled_runs (h : p.Runs workers s initial goal answer r) : Settled s answer r := by
  cases h with
  | refused hprep => exact settled_of_refused (.inl (prepare_error hprep))
  | @executed q _ _ hprep hexec =>
    cases hs : s.poisoned with
    | true =>
      obtain ⟨rfl, rfl⟩ := Engine.executes_poisoned hs hexec
      exact settled_of_refused (.inr rfl)
    | false =>
      refine ⟨?_, ?_, ?_⟩
      · rintro e rfl hrefused
        obtain ⟨⟨unit, node, source, rfl⟩ | ⟨why, rfl⟩, -⟩ :=
          Engine.executes_error (prepare_ok hprep) hs hexec
        · exact absurd hrefused (not_refusal_invocation unit node source)
        · exact absurd hrefused (not_refusal_inconsistent why)
      · rintro e rfl -
        obtain ⟨hcause, hpoisoned, htold⟩ := Engine.executes_error (prepare_ok hprep) hs hexec
        exact ⟨hcause, hs, hpoisoned, htold⟩
      · rintro reports rfl
        exact Engine.poisoned_of_executes_ok hexec

/-- A run that is asked for: on which pipeline, by how many, from which facts on and what for. -/
structure Job (τ : Type) [MarkerFamily τ] where
  pipeline : Pipeline τ
  workers : Workers
  initial : FactSet
  goal : Goal

def Job.Runs (j : Job τ) (s : Session τ) : Except Stop (List StepReport) → Run τ → Prop :=
  j.pipeline.Runs j.workers s j.initial j.goal

/-- Jobs done one after the other, however each of them ended, lead from a session to another. -/
inductive Jobs : Session τ → List (Job τ) → Session τ → Prop
  | nil {s : Session τ} : Jobs s [] s
  | cons {s s' : Session τ} {j : Job τ} {jobs : List (Job τ)} {answer : Except Stop (List StepReport)}
    {r : Run τ} : j.Runs s answer r → Jobs r.session jobs s' → Jobs s (j :: jobs) s'

/-- On a poisoned session every job is refused. -/
theorem Job.runs_poisoned {j : Job τ} (hs : s.poisoned = true) (h : j.Runs s answer r) :
    r = .ofSession s ∧ ∃ e, answer = .error (.failed e) ∧ Refusal e := by
  cases h with
  | refused hprep => exact ⟨rfl, _, rfl, .inl (prepare_error hprep)⟩
  | executed _ hexec =>
    obtain ⟨rfl, rfl⟩ := Engine.executes_poisoned hs hexec
    exact ⟨rfl, _, rfl, .inr rfl⟩

theorem jobs_poisoned {s' : Session τ} {jobs : List (Job τ)} (hs : s.poisoned = true)
    (h : Jobs s jobs s') : s' = s := by
  induction h with
  | nil => rfl
  | cons hrun _ ih =>
    obtain ⟨rfl, -⟩ := Job.runs_poisoned hs hrun
    exact ih hs

/-- A run of a pipeline leaves the session exactly as it was if it is refused, and poisons it if the
    execution fails; no step of it fails for want of adapters. Once a session is poisoned, jobs are
    refused and it stays as it is, however many are tried. All this by however many the steps are made,
    and whatever the adapters do. -/
theorem run_all_or_nothing (p : Pipeline τ) (workers : Workers) (s : Session τ) (initial : FactSet)
    (goal : Goal) :
    (∀ answer r, p.Runs workers s initial goal answer r → Settled s answer r) ∧
    (∀ q, p.prepare s initial goal = .ok q →
      ∀ k r, ¬ p.engine.Executes workers q s (.error (.failed (.missingAdapter k))) r) ∧
    (∀ (before after : List (Job τ)) (s₁ s₂ : Session τ), Jobs s before s₁ → s₁.poisoned = true →
      Jobs s₁ after s₂ → s₂ = s₁ ∧
        ∀ (j : Job τ) (answer : Except Stop (List StepReport)) (r : Run τ), j.Runs s₁ answer r →
          r = .ofSession s₁ ∧ ∃ e, answer = .error (.failed e) ∧ Refusal e) ∧
    (s.Tidy → ∃ answer r, p.Runs workers s initial goal answer r) := by
  refine ⟨fun _ _ => settled_runs, ?_, ?_, p.exists_runs workers initial goal⟩
  · intro q hprep k r hexec
    cases hs : s.poisoned with
    | true => cases (Engine.executes_poisoned hs hexec).1
    | false =>
      obtain ⟨⟨_, _, _, h⟩ | ⟨_, h⟩, -⟩ := Engine.executes_error (prepare_ok hprep) hs hexec
      · cases h
      · cases h
  · intro before after s₁ s₂ _ hs hafter
    exact ⟨jobs_poisoned hs hafter, fun j answer r => Job.runs_poisoned hs⟩

open Engine in
/-- Outlining the types of a package fails on the second, and trying again does not help. -/
theorem run_all_or_nothing_outlining : ∃ r : Run StockMarker,
    Pipeline.Runs ⟨.alone .outlining, .default⟩ .many (.new Tree.trio ∅) ∅ .maximal
      (.error (.failed (.invocation "outline" 4 (.other "no outline")))) r ∧
    r.session.poisoned = true ∧
    ∀ s, Jobs r.session [⟨⟨.alone .outlining, .default⟩, .many, ∅, .maximal⟩] s → s = r.session := by
  let p : Pipeline StockMarker := ⟨.alone .outlining, .default⟩
  let s : Session StockMarker := .new Tree.trio ∅
  have hprep : p.prepare s ∅ .maximal = .ok outlines := by cbv
  have hstarts : (alone .outlining).prepare (opening outlines s).session (.ofInitial ∅)
      (.ofContract outline) = .ok (.outlining, [2, 4, 5]) := by cbv
  obtain ⟨r₁, hstep⟩ : ∃ r₁, Pass.outlining.runStep (.ofContract outline) [2, 4, 5] ∅ (opening outlines s) =
    (.error (.failed (.invocation "outline" 4 (.other "no outline"))), r₁) := ⟨_, rfl⟩
  have hexec := execute_of_runPlan_failed (s := s) rfl (runPlan_outlines hstarts hstep)
  have htidy : s.Tidy := Session.tidy_new Tree.built_trio.wellFormed ∅
  have hrun : p.Runs .many s ∅ .maximal _ _ := .executed hprep ((executes_one_iff htidy).2 hexec).widen
  have settled := (run_all_or_nothing p .many s ∅ .maximal).1 _ _ hrun
  have hpoisoned := (settled.failed _ rfl (not_refusal_invocation _ _ _)).2.2.1
  exact ⟨_, hrun, hpoisoned, fun s' hjobs =>
    ((run_all_or_nothing p .many _ ∅ .maximal).2.2.1 [] _ _ s' .nil hpoisoned hjobs).1⟩

end Pipeline

end Trellis
