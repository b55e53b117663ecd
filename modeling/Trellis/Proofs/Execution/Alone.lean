/-
  Trellis.Proofs.Execution.Alone — a step with one worker is the step made in order.

  One worker takes the tasks in order, and they get to where the invocations in order get to. As with
  one worker there is at most one move at any time (`move_unique`), they can get nowhere else.

  - `performs_one_iff`, `executes_one_iff`: with one worker the relations of `Schedule.lean` are the
    functions of `Execution.lean`.
  - `exists_executes`, `exists_runs`: what one worker can do any number can, so there is always a way.
-/
import Trellis.Proofs.Execution.Solo

namespace Trellis

variable {τ : Type} [MarkerFamily τ]

open Relation (ReflTransGen)

/-! ## No other way -/

namespace Pass

variable {p : Pass τ} {step : Step} {target : NodeId} {targets : List NodeId} {c c' : Common τ}
  {r : Run τ}

theorem not_ended {stage stage' : Stage τ} (h : p.advance step target c stage = some (stage', c'))
    (ending : Ending τ) : stage ≠ .ended ending := by
  rintro rfl
  cases h

/-- There is only one task with all before it ended and not ended itself. -/
theorem first_unended {before before' after after' : List (NodeId × Stage τ)} {task task' : NodeId × Stage τ}
    (hb : Workers.one.admit before) (hb' : Workers.one.admit before')
    (ht : ∀ ending, task.2 ≠ .ended ending) (ht' : ∀ ending, task'.2 ≠ .ended ending)
    (h : before ++ task :: after = before' ++ task' :: after') :
    before = before' ∧ task = task' ∧ after = after' := by
  induction before generalizing before' with
  | nil =>
    cases before' with
    | nil =>
      cases h
      exact ⟨rfl, rfl, rfl⟩
    | cons first before' =>
      cases h
      obtain ⟨ending, h⟩ := hb' task List.mem_cons_self
      exact absurd h (ht ending)
  | cons first before ih =>
    cases before' with
    | nil =>
      cases h
      obtain ⟨ending, h⟩ := hb task' List.mem_cons_self
      exact absurd h (ht' ending)
    | cons first' before' =>
      rw [List.cons_append, List.cons_append, List.cons.injEq] at h
      obtain ⟨rfl, h⟩ := h
      obtain ⟨rfl, rest⟩ := ih (List.forall_mem_cons.1 hb).2 (List.forall_mem_cons.1 hb').2 h
      exact ⟨rfl, rest⟩

/-- One worker never has a choice. -/
theorem move_unique : Relator.RightUnique (p.Move step .one) := by
  rintro ⟨c, tasks⟩ a b ha hb
  generalize htasks : tasks = tasks' at hb
  cases ha with
  | task hw h =>
    cases hb with
    | task hw' h' =>
      obtain ⟨rfl, htask, rfl⟩ := first_unended hw hw' (not_ended h) (not_ended h') htasks
      cases htask
      cases h.symm.trans h'
      rfl

/-- With one worker, tasks begin in order. -/
def InOrder : List (NodeId × Stage τ) → Prop :=
  List.Pairwise fun a b => (∃ ending, a.2 = .ended ending) ∨ b.2 = .waiting

theorem InOrder.move {a b : Round τ} (h : InOrder a.tasks) (hmove : p.Move step .one a b) :
    InOrder b.tasks := by
  cases hmove with
  | @task c c' before after target stage stage' hw hstage =>
    obtain ⟨hbefore, hafter, hacross⟩ := List.pairwise_append.1 h
    obtain ⟨hnext, hafter⟩ := List.pairwise_cons.1 hafter
    refine List.pairwise_append.2 ⟨hbefore, List.pairwise_cons.2 ⟨fun task htask => .inr ?_, hafter⟩,
      fun task htask _ _ => .inl (hw task htask)⟩
    rcases hnext task htask with ⟨ending, h⟩ | h
    · exact absurd h (not_ended hstage ending)
    · exact h

theorem inOrder_start (r : Run τ) (targets : List NodeId) : InOrder (Round.start r targets).tasks := by
  rw [InOrder, Round.start, List.pairwise_map]
  exact List.pairwise_of_forall fun _ _ => .inr rfl

theorem inOrder_of_moves {b : Round τ}
    (h : ReflTransGen (p.Move step .one) (.start r targets) b) : InOrder b.tasks := by
  induction h with
  | refl => exact inOrder_start r targets
  | tail _ hmove ih => exact ih.move hmove

/-- A step with one worker that is over can go no further. -/
theorem over_of_ended {a b : Round τ} (h : ∀ task ∈ a.tasks, ∃ ending, task.2 = .ended ending) :
    ¬ p.Move step .one a b := by
  intro hmove
  cases hmove with
  | task hw hstage =>
    obtain ⟨ending, hending⟩ := h _ (List.mem_append_right _ List.mem_cons_self)
    exact not_ended hstage ending hending

/-- So one that has crashed. -/
theorem over_of_crashed {a b : Round τ} {n : NodeId} {message : String} (h : InOrder a.tasks)
    (hcrash : (n, .crashed message) ∈ a.tasks)
    (hrest : ∀ task ∈ a.tasks, task.2 = .waiting ∨ (∃ ending, task.2 = .ended ending) ∨
      ∃ message, task.2 = .crashed message) :
    ¬ p.Move step .one a b := by
  intro hmove
  cases hmove with
  | @task c c' before after target stage stage' hw hstage =>
    rcases hrest _ (List.mem_append_right _ List.mem_cons_self) with hwait | ⟨ending, hended⟩ | ⟨_, hcrashed⟩
    · obtain ⟨-, hafter, -⟩ := List.pairwise_append.1 h
      rcases List.mem_append.1 hcrash with hbefore | hhere
      · obtain ⟨ending, hended⟩ := hw _ hbefore
        cases hended
      · rcases List.mem_cons.1 hhere with heq | hafter'
        · cases heq
          cases hwait
        · rcases (List.pairwise_cons.1 hafter).1 _ hafter' with ⟨ending, hended⟩ | hwaiting
          · exact not_ended hstage ending hended
          · cases hwaiting
    · exact not_ended hstage ending hended
    · change stage = .crashed _ at hcrashed
      rw [hcrashed] at hstage
      cases hstage

/-- Where one worker comes to the end of a step is settled. -/
theorem moves_unique {a b b' : Round τ} (h : ReflTransGen (p.Move step .one) a b)
    (h' : ReflTransGen (p.Move step .one) a b') (hb : ∀ d, ¬ p.Move step .one b d)
    (hb' : ∀ d, ¬ p.Move step .one b' d) : b = b' := by
  rcases Relation.ReflTransGen.total_of_right_unique move_unique h h' with h | h
  · rcases h.cases_head with rfl | ⟨d, hd, -⟩
    · rfl
    · exact absurd hd (hb d)
  · rcases h.cases_head with rfl | ⟨d, hd, -⟩
    · rfl
    · exact absurd hd (hb' d)

end Pass

/-! ## The end of a step -/

namespace Ending

omit [MarkerFamily τ] in
theorem failure?_cancelled (nodes : List NodeId) :
    failure? (nodes.map (·, (.cancelled : Ending τ))) = none := by
  induction nodes with
  | nil => rfl
  | cons n nodes ih => rw [List.map_cons, failure?_cons, ih]; rfl

theorem stages_injective {endings endings' : List (NodeId × Ending τ)}
    (h : stages endings = stages endings') : endings = endings' :=
  List.map_injective_iff.2 (fun a b hab => by
    cases a
    cases b
    cases hab
    rfl) h

end Ending

namespace Pass

variable {p : Pass τ} {step : Step} {targets : List NodeId} {r r' : Run τ}
  {outcomes : List (NodeId × Outcome τ)} {expected : FactSet}

theorem InTurn.failure?_endings (h : p.InTurn step targets r outcomes r') (rest : List NodeId) :
    Ending.failure? (endings outcomes rest) = Outcome.failure? outcomes := by
  induction h with
  | nil r => exact Ending.failure?_cancelled rest
  | failed hinv =>
    rw [endings, List.map_cons, List.map_nil, List.cons_append, List.nil_append, Ending.failure?_cons,
      Ending.failure?_cancelled]
    rfl
  | @next n nodes r r₁ r' outcome outcomes hne hinv _ ih =>
    rw [Outcome.failure?_cons hne, ← ih, endings, List.map_cons, List.cons_append, Ending.failure?_cons]
    cases outcome with
    | failed staged error => exact absurd rfl (hne staged error)
    | _ => exact Option.or_none

theorem close_endings (s : Session τ) (outcomes : List (NodeId × Outcome τ)) (rest : List NodeId) :
    (endings outcomes rest).foldl (Session.close p.contract expected) s =
      outcomes.foldl (Session.commit p.contract expected) s := by
  have cancelled (s : Session τ) :
      (rest.map (·, (.cancelled : Ending τ))).foldl (Session.close p.contract expected) s = s := by
    induction rest with
    | nil => rfl
    | cons n rest ih => exact ih
  rw [endings, List.foldl_append, cancelled, List.foldl_map]
  rfl

omit [MarkerFamily τ] in
theorem count_endings (report : StepReport) (outcomes : List (NodeId × Outcome τ)) (rest : List NodeId) :
    ((endings outcomes rest).map Prod.snd).foldl .countEnding report =
      (outcomes.map Prod.snd).foldl .count report := by
  have cancelled (report : StepReport) :
      (rest.map (·, (.cancelled : Ending τ))).foldl (fun report task => report.countEnding task.2) report =
        report := by
    induction rest with
    | nil => rfl
    | cons n rest ih => exact ih
  rw [List.foldl_map, List.foldl_map, endings, List.foldl_append, cancelled, List.foldl_map]
  rfl

/-- What a step comes to whose tasks were taken in order. -/
theorem closeStep_endings {rest : List NodeId} (h : p.InTurn step targets (r.announce step targets.length) outcomes r')
    (hrest : targets = outcomes.map Prod.fst ++ rest) :
    p.closeStep step expected (endings outcomes rest) r' = p.runStep step targets expected r := by
  have hlength : (endings outcomes rest).length = targets.length := by
    rw [hrest, endings, List.length_append, List.length_append, List.length_map, List.length_map,
      List.length_map]
  rw [runStep, invokeAll_ok.2 h, closeStep, h.failure?_endings, close_endings, count_endings, hlength]
  rfl

variable {c : Common τ} {answer : Except Stop StepReport}

/-- A step that one worker can bring to its end comes to no other. -/
theorem performs_of_ended {endings : List (NodeId × Ending τ)}
    (path : ReflTransGen (p.Move step .one) (.start (r.announce step targets.length) targets)
      ⟨c, Ending.stages endings⟩) :
    p.Performs .one step targets expected r answer r' ↔
      p.closeStep step expected endings c.run = (answer, r') := by
  have settled {c : Common τ} {endings : List (NodeId × Ending τ)} (d : Round τ) :
      ¬ p.Move step .one ⟨c, Ending.stages endings⟩ d :=
    over_of_ended fun task htask => admit_stages endings task htask
  constructor
  · intro h
    cases h with
    | closed moves =>
      have same := moves_unique path moves settled settled
      rw [Round.mk.injEq] at same
      rw [same.1, Ending.stages_injective same.2]
    | crashed moves hcrash hrest =>
      cases moves_unique path moves settled fun d => over_of_crashed (inOrder_of_moves moves) hcrash hrest
      obtain ⟨ending, h⟩ := admit_stages endings _ hcrash
      cases h
  · intro h
    have closed : p.Performs .one step targets expected r _ _ := .closed path
    rwa [h] at closed

/-- Nor does one that it can bring to a crash. -/
theorem performs_of_crashed {done : List (NodeId × Ending τ)} {n : NodeId} {message : String}
    {rest : List NodeId}
    (path : ReflTransGen (p.Move step .one) (.start (r.announce step targets.length) targets)
      ⟨c, Ending.stages done ++ (n, .crashed message) :: rest.map (·, .waiting)⟩) :
    p.Performs .one step targets expected r answer r' ↔
      (.error (.crashed message), c.run) = (answer, r') := by
  have hcrash : (n, Stage.crashed message) ∈
      Ending.stages done ++ (n, .crashed message) :: rest.map (·, .waiting) :=
    List.mem_append_right _ List.mem_cons_self
  have hrest : ∀ task ∈ Ending.stages done ++ (n, .crashed message) :: rest.map (·, .waiting),
      task.2 = .waiting ∨ (∃ ending, task.2 = .ended ending) ∨ task.2 = .crashed message := by
    intro task htask
    rcases List.mem_append.1 htask with hdone | htask
    · exact .inr (.inl (admit_stages _ task hdone))
    · rcases List.mem_cons.1 htask with rfl | hwaiting
      · exact .inr (.inr rfl)
      · obtain ⟨m, -, rfl⟩ := List.mem_map.1 hwaiting
        exact .inl rfl
  have hrest' : ∀ task ∈ Ending.stages done ++ (n, .crashed message) :: rest.map (·, .waiting),
      task.2 = .waiting ∨ (∃ ending, task.2 = .ended ending) ∨ ∃ message, task.2 = .crashed message :=
    fun task htask => (hrest task htask).imp_right (Or.imp_right fun h => ⟨message, h⟩)
  have settled (d : Round τ) : ¬ p.Move step .one ⟨c, _⟩ d :=
    over_of_crashed (inOrder_of_moves path) hcrash hrest'
  constructor
  · intro h
    cases h with
    | @closed c endings moves =>
      have hended : ∀ task ∈ Ending.stages endings, ∃ ending, task.2 = .ended ending := admit_stages endings
      have same := moves_unique path moves settled fun d => over_of_ended hended
      rw [Round.mk.injEq] at same
      obtain ⟨ending, h⟩ := hended _ (same.2 ▸ hcrash)
      cases h
    | @crashed round m message' moves hcrash' hdone =>
      cases moves_unique path moves settled fun d => over_of_crashed (inOrder_of_moves moves) hcrash' hdone
      rcases hrest _ hcrash' with h | ⟨ending, h⟩ | h
      · cases h
      · cases h
      · cases h
        rfl
  · rintro ⟨⟩
    exact .crashed path hcrash hrest'

/-- With one worker a step can be performed in one way: in order. -/
theorem performs_one_iff (h : r.session.Tidy) :
    p.Performs .one step targets expected r answer r' ↔
      p.runStep step targets expected r = (answer, r') := by
  have announced : (r.announce step targets.length).session.Tidy := h.congr rfl fun _ => rfl
  rcases hinvoke : p.invokeAll step targets (r.announce step targets.length) with ⟨message | outcomes, r₁⟩
  · obtain ⟨done, n, rest, path⟩ := moves_crashed hinvoke announced []
    rw [performs_of_crashed path, runStep, hinvoke]
  · have hturn := invokeAll_ok.1 hinvoke
    obtain ⟨rest, hrest, path⟩ := moves_inTurn hturn announced []
    rw [performs_of_ended path, List.nil_append, closeStep_endings hturn hrest]

end Pass

/-! ## The end of a plan -/

namespace Engine

variable {e : Engine τ} {workers : Workers} {st : Standing} {r r' : Run τ} {plan : Plan} {s : Session τ}
  {answer : Except Stop (List StepReport)}

theorem runsSteps_unprepared {step : Step} {steps : List Step} {error : Error}
    (hprep : e.prepare r.session st step = .error error) :
    e.RunsSteps workers (step :: steps) st r answer r' ↔ (.error (.failed error), r) = (answer, r') := by
  constructor
  · intro hruns
    cases hruns with
    | unprepared hprep' => cases hprep.symm.trans hprep'; rfl
    | stopped hprep' => cases hprep.symm.trans hprep'
    | next hprep' => cases hprep.symm.trans hprep'
  · rintro ⟨⟩
    exact .unprepared hprep

/-- Where a step is prepared, a run ends with it or goes on after it. -/
theorem runsSteps_prepared {step : Step} {steps : List Step} {p : Pass τ} {targets : List NodeId}
    (hprep : e.prepare r.session st step = .ok (p, targets)) :
    e.RunsSteps workers (step :: steps) st r answer r' ↔
      (∃ stop, p.Performs workers step targets st.expected r (.error stop) r' ∧ answer = .error stop) ∨
      ∃ report r₁ rest, p.Performs workers step targets st.expected r (.ok report) r₁ ∧
        e.RunsSteps workers steps (st.after p.contract) r₁ rest r' ∧ answer = rest.map (report :: ·) := by
  constructor
  · intro hruns
    cases hruns with
    | unprepared hprep' => cases hprep.symm.trans hprep'
    | stopped hprep' hstep =>
      cases hprep.symm.trans hprep'
      exact .inl ⟨_, hstep, rfl⟩
    | next hprep' hstep hrest =>
      cases hprep.symm.trans hprep'
      exact .inr ⟨_, _, _, hstep, hrest, rfl⟩
  · rintro (⟨stop, hstep, rfl⟩ | ⟨report, r₁, rest, hstep, hrest, rfl⟩)
    · exact .stopped hprep hstep
    · exact .next hprep hstep hrest

theorem runsSteps_one_iff {steps : List Step} (h : r.session.Tidy) :
    e.RunsSteps .one steps st r answer r' ↔ e.runSteps steps st r = (answer, r') := by
  induction steps generalizing st r answer with
  | nil =>
    constructor
    · rintro ⟨⟩
      rfl
    · rintro ⟨⟩
      exact .nil
  | cons step steps ih =>
    cases hprep : e.prepare r.session st step with
    | error error => rw [runsSteps_unprepared hprep, runSteps, hprep]
    | ok found =>
      obtain ⟨p, targets⟩ := found
      rw [runsSteps_prepared hprep]
      simp only [Pass.performs_one_iff h]
      rcases hstep : p.runStep step targets st.expected r with ⟨stop | report, r₁⟩
      · rw [runSteps_of_error hprep hstep]
        constructor
        · rintro (⟨stop', ⟨⟩, rfl⟩ | ⟨report, r₂, rest, hok, -⟩)
          · rfl
          · cases hok
        · rintro ⟨⟩
          exact .inl ⟨stop, rfl, rfl⟩
      · have hr₁ : r₁.session.Tidy := by
          have := h.runStep p step targets st.expected
          rwa [hstep] at this
        rw [runSteps_of_ok hprep hstep]
        constructor
        · rintro (⟨stop, hfail, -⟩ | ⟨report', r₂, rest, ⟨⟩, hrest, rfl⟩)
          · cases hfail
          · rw [(ih hr₁).1 hrest]
        · rintro ⟨⟩
          exact .inr ⟨report, r₁, _, rfl, (ih hr₁).2 rfl, rfl⟩

/-- With one worker a plan can be executed in one way. -/
theorem executes_one_iff (h : s.Tidy) :
    e.Executes .one plan s answer r ↔ e.execute plan s = (answer, r) := by
  have opened : (opening plan s).session.Tidy := (h.seed plan.initial).records plan.omissions
  cases hs : s.poisoned with
  | true =>
    rw [execute, if_pos hs]
    constructor
    · intro hexec
      cases hexec with
      | refused => rfl
      | failed hs' => cases hs.symm.trans hs'
      | ended hs' => cases hs.symm.trans hs'
    · rintro ⟨⟩
      exact .refused hs
  | false =>
    rw [execute, hs, if_neg Bool.false_ne_true]
    constructor
    · intro hexec
      cases hexec with
      | refused hs' => cases hs.symm.trans hs'
      | failed _ hruns =>
        rw [runPlan, (runsSteps_one_iff opened).1 hruns]
      | ended _ hruns hanswer =>
        rw [runPlan, (runsSteps_one_iff opened).1 hruns]
        split
        · rename_i heq
          cases heq
          exact absurd rfl (hanswer _)
        · rfl
    · intro hexec
      split at hexec
      · rename_i hrun
        cases hexec
        exact .failed hs ((runsSteps_one_iff opened).2 hrun)
      · rename_i hne
        exact .ended hs ((runsSteps_one_iff opened).2 hexec) fun error herror =>
          hne error r (by rw [hexec, herror])

end Engine

/-- With one worker a pipeline can be run in one way. -/
theorem Pipeline.runs_one_iff {p : Pipeline τ} {s : Session τ} {initial : FactSet} {goal : Goal}
    {answer : Except Stop (List StepReport)} {r : Run τ} (h : s.Tidy) :
    p.Runs .one s initial goal answer r ↔ p.run s initial goal = (answer, r) := by
  rw [run]
  cases hprep : p.prepare s initial goal with
  | error e =>
    constructor
    · intro hruns
      cases hruns with
      | refused hprep' => cases hprep.symm.trans hprep'; rfl
      | executed hprep' => cases hprep.symm.trans hprep'
    · rintro ⟨⟩
      exact .refused hprep
  | ok plan =>
    constructor
    · intro hruns
      cases hruns with
      | refused hprep' => cases hprep.symm.trans hprep'
      | executed hprep' hexec =>
        cases hprep.symm.trans hprep'
        exact (Engine.executes_one_iff h).1 hexec
    · exact fun hrun => .executed hprep ((Engine.executes_one_iff h).2 hrun)

/-! ## There is always a way -/

variable {workers : Workers}

theorem Pass.Move.widen {p : Pass τ} {step : Step} {a b : Round τ} (h : p.Move step .one a b) :
    p.Move step workers a b := by
  cases h with
  | task hw h =>
    refine .task ?_ h
    cases workers with
    | one => exact hw
    | many => trivial

theorem Pass.Performs.widen {p : Pass τ} {step : Step} {targets : List NodeId} {expected : FactSet}
    {r r' : Run τ} {answer : Except Stop StepReport}
    (h : p.Performs .one step targets expected r answer r') :
    p.Performs workers step targets expected r answer r' := by
  cases h with
  | closed moves => exact .closed (moves.lift id fun _ _ => Pass.Move.widen)
  | crashed moves hcrash hrest => exact .crashed (moves.lift id fun _ _ => Pass.Move.widen) hcrash hrest

namespace Engine

variable {e : Engine τ} {r r' : Run τ} {plan : Plan} {s : Session τ}
  {answer : Except Stop (List StepReport)}

theorem RunsSteps.widen {steps : List Step} {st : Standing} (h : e.RunsSteps .one steps st r answer r') :
    e.RunsSteps workers steps st r answer r' := by
  induction h with
  | nil => exact .nil
  | unprepared hprep => exact .unprepared hprep
  | stopped hprep hstep => exact .stopped hprep hstep.widen
  | next hprep hstep _ ih => exact .next hprep hstep.widen ih

theorem Executes.widen (h : e.Executes .one plan s answer r) : e.Executes workers plan s answer r := by
  cases h with
  | refused hs => exact .refused hs
  | failed hs h => exact .failed hs h.widen
  | ended hs h hanswer => exact .ended hs h.widen hanswer

/-- By however many, a plan can be executed. -/
theorem exists_executes (e : Engine τ) (workers : Workers) (plan : Plan) (h : s.Tidy) :
    ∃ answer r, e.Executes workers plan s answer r :=
  ⟨_, _, ((executes_one_iff h).2 rfl).widen⟩

end Engine

/-- So a pipeline can be run. -/
theorem Pipeline.exists_runs (p : Pipeline τ) (workers : Workers) {s : Session τ} (initial : FactSet)
    (goal : Goal) (h : s.Tidy) : ∃ answer r, p.Runs workers s initial goal answer r := by
  cases hprep : p.prepare s initial goal with
  | error e => exact ⟨_, _, .refused hprep⟩
  | ok plan =>
    obtain ⟨answer, r, hexec⟩ := p.engine.exists_executes workers plan h
    exact ⟨answer, r, .executed hprep hexec⟩

end Trellis
