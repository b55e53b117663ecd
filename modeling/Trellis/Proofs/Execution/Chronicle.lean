/-
  Trellis.Proofs.Execution.Chronicle — the log and the onlooker are told the same story.

  The engine has its own kinds of event, and a body that records none of them by hand can neither
  open nor close a bracket. So what a run adds to the log has a grammar: a step begins, then comes
  node by node what the body has to tell and how the invocation ended, and the step is completed
  unless an invocation failed, which is then the last that was told of. `Pass.Scenes` is the grammar
  of the invocations of a step and `Engine.Tells` that of a run, each with the signals that go with
  the events and the error it ends with.
  - `Pass.scenes_invokeAll`, `Engine.tells_runSteps`: the grammar describes every run that does not
    crash.
  - `Engine.Tells.brackets`, `Engine.Tells.gists`: what follows of the numbers of events, and of the
    signals.
  - `log_and_signals_agree`: the whole of an execution.
-/
import Trellis.Proofs.Execution.Events
import Trellis.Proofs.Execution.Failure

namespace Trellis

variable {τ : Type} [MarkerFamily τ]

/-! ## What is told -/

/-- Whether events of this kind are the engine's to record. -/
def EventKind.isEngines : EventKind → Bool
  | stepStarted | stepCompleted | invocationCompleted | invocationFailed | nodeSkipped
  | planWarning | error => true
  | nodeCreated | nodeRemoved | info | warning => false

namespace Step

variable (step : Step)

/-! The events of a step, and of its invocations on a node. -/

def begun (nodes : Nat) : Event :=
  ⟨.stepStarted, step.unit, none, s!"{step.text} on {nodes} nodes", none⟩

def finished (report : StepReport) : Event :=
  ⟨.stepCompleted, step.unit, none, s!"{step.text}: {report.invoked} invoked, {report.skipped} skipped, " ++
    s!"{report.created} created, {report.removed} removed", unmeasured⟩

def skips (n : NodeId) : Event :=
  ⟨.nodeSkipped, step.unit, n, EventKind.nodeSkipped.description, none⟩

def completes (n : NodeId) : Event :=
  ⟨.invocationCompleted, step.unit, n, EventKind.invocationCompleted.description, unmeasured⟩

def fails (n : NodeId) (error : Error) : Event :=
  ⟨.invocationFailed, step.unit, n, error.message, unmeasured⟩

end Step

/-- What a log and an onlooker can both be told: what happened, and the unit and node it is about. -/
abbrev Gist := EventKind × Option String × Option NodeId

def Signal.gist : Signal → Gist
  | stepStarted step _ => (.stepStarted, step.unit, none)
  | stepFinished step => (.stepCompleted, step.unit, none)
  | invocationFinished unit n => (.invocationCompleted, unit, n)
  | invocationFailed unit n _ => (.invocationFailed, unit, n)

/-- The gist of an event of a kind that is signalled. -/
def Event.gist? (e : Event) : Option Gist :=
  if e.kind ∈ [.stepStarted, .invocationCompleted, .invocationFailed, .stepCompleted] then
    some (e.kind, e.unit, e.node)
  else none

/-- From the one moment to the other the log took in some events, and the onlooker some signals. -/
structure Run.Adds (r : Run τ) (events : List Event) (signals : List Signal) (r' : Run τ) : Prop where
  events : r'.session.events.events = r.session.events.events ++ events
  signals : r'.signals = r.signals ++ signals

namespace Run.Adds

variable {r r₁ r₂ : Run τ} {events events' : List Event} {signals signals' : List Signal}

theorem nothing (r : Run τ) : r.Adds [] [] r := ⟨(List.append_nil _).symm, (List.append_nil _).symm⟩

theorem trans (h : r.Adds events signals r₁) (k : r₁.Adds events' signals' r₂) :
    r.Adds (events ++ events') (signals ++ signals') r₂ where
  events := by rw [k.events, h.events, List.append_assoc]
  signals := by rw [k.signals, h.signals, List.append_assoc]

end Run.Adds

/-! ## Invocations -/

namespace Pass

/-- What a body has to tell of its work on a node: an event it records or one of an edit, and of no
    kind that is the engine's. -/
structure Told (p : Pass τ) (step : Step) (n : NodeId) (e : Event) : Prop where
  source : (p.body ⟨step.unit, n, step.granularity⟩).Records e ∨ e.kind.isStructural = true
  plain : e.kind.isEngines = false

/-- The events and signals of the invocations on some nodes in order, and the error of the one that
    failed, after which nothing is told of the nodes that are left. -/
inductive Scenes (p : Pass τ) (step : Step) :
    List NodeId → List Event → List Signal → Option Error → Prop
  | nil : Scenes p step [] [] [] none
  | skipped {n : NodeId} {nodes : List NodeId} {events : List Event} {signals : List Signal}
    {failure? : Option Error} :
    Scenes p step nodes events signals failure? →
    Scenes p step (n :: nodes) (step.skips n :: events) signals failure?
  | completed {n : NodeId} {nodes : List NodeId} {told events : List Event} {signals : List Signal}
    {failure? : Option Error} :
    (∀ e ∈ told, p.Told step n e) → Scenes p step nodes events signals failure? →
    Scenes p step (n :: nodes) (told ++ step.completes n :: events)
      (.invocationFinished step.unit n :: signals) failure?
  | failed {n : NodeId} {nodes : List NodeId} {told : List Event} {error source : Error} :
    (∀ e ∈ told, p.Told step n e) → error = .invocation step.unit n source →
    Scenes p step (n :: nodes) (told ++ [step.fails n error])
      [.invocationFailed step.unit n error] (some error)

/-- By hand the bodies of the pass record nothing of a kind that is the engine's. -/
def Discreet (p : Pass τ) : Prop :=
  ∀ site e, (p.body site).Records e → e.kind.isEngines = false

variable {p : Pass τ} {step : Step} {n : NodeId} {targets : List NodeId} {r r' : Run τ}
  {outcome : Outcome τ} {outcomes : List (NodeId × Outcome τ)}

theorem told_of_discreet (hp : p.Discreet) {e : Event}
    (h : (p.body ⟨step.unit, n, step.granularity⟩).Records e ∨ e.kind.isStructural = true) :
    p.Told step n e where
  source := h
  plain := by
    rcases h with h | h
    · exact hp _ _ h
    · cases hk : e.kind <;> rw [hk] at h <;> first | rfl | cases h

/-- An invocation tells of its node once, and before that what its body has to tell. -/
theorem adds_invocation (hp : p.Discreet) (h : p.invoke step r n = (.ok outcome, r')) :
    outcome = .skipped ∧ r.Adds [step.skips n] [] r' ∨
    ∃ told, (∀ e ∈ told, p.Told step n e) ∧
      ((∃ staged, outcome = .completed staged ∧
          r.Adds (told ++ [step.completes n]) [.invocationFinished step.unit n] r') ∨
        ∃ staged error source, outcome = .failed staged error ∧
          error = .invocation step.unit n source ∧
          r.Adds (told ++ [step.fails n error]) [.invocationFailed step.unit n error] r') := by
  unfold invoke at h
  split at h
  · obtain ⟨told, hevents, hsource⟩ := p.adds_body step r n
    have honest : ∀ e ∈ told, p.Told step n e := fun e he => told_of_discreet hp (hsource e he)
    -- What follows the body is one event.
    have closed {inv : Invocation τ} {log : EventLog} (event : Event)
        (hinv : inv.session.events.events = r.session.events.events ++ told)
        (hlog : log = inv.session.events.record event) :
        log.events = r.session.events.events ++ (told ++ [event]) := by
      rw [hlog, EventLog.record, hinv, List.append_assoc]
    split at h
    · rename_i inv hrun
      rw [hrun] at hevents
      cases h
      exact .inr ⟨told, honest, .inl ⟨_, rfl, closed _ hevents rfl, rfl⟩⟩
    · rename_i source inv hrun
      rw [hrun] at hevents
      cases h
      exact .inr ⟨told, honest, .inr ⟨_, _, source, rfl, rfl, closed _ hevents rfl, rfl⟩⟩
    · cases h
  · cases h
    exact .inl ⟨rfl, rfl, (List.append_nil _).symm⟩

theorem scenes_invokeAll (hp : p.Discreet) (h : p.invokeAll step targets r = (.ok outcomes, r')) :
    ∃ events signals, p.Scenes step targets events signals (Outcome.failure? outcomes) ∧
      r.Adds events signals r' := by
  rw [invokeAll_ok] at h
  induction h with
  | nil => exact ⟨[], [], .nil, .nothing _⟩
  | failed hinv =>
    rcases adds_invocation hp hinv with ⟨ho, -⟩ | ⟨told, honest, ⟨_, ho, -⟩ | ⟨_, _, source, ho, hcause, adds⟩⟩
    · cases ho
    · cases ho
    · cases ho
      exact ⟨_, _, .failed honest hcause, adds⟩
  | next hne hinv _ ih =>
    obtain ⟨events, signals, scenes, more⟩ := ih
    rw [Outcome.failure?_cons hne]
    rcases adds_invocation hp hinv with ⟨-, adds⟩ | ⟨told, honest, ⟨_, -, adds⟩ | ⟨_, _, _, ho, -, -⟩⟩
    · exact ⟨_, _, .skipped scenes, adds.trans more⟩
    · refine ⟨_, _, .completed honest scenes, ?_⟩
      have both := adds.trans more
      rw [List.append_assoc] at both
      exact both
    · exact absurd ho (hne _ _)

/-- What a step tells that does not crash. -/
theorem scenes_runStep {expected : FactSet} {result : Except Stop StepReport} (hp : p.Discreet)
    (h : p.runStep step targets expected r = (result, r'))
    (hcrash : ∀ message, result ≠ .error (.crashed message)) : ∃ events signals,
      (∃ report, result = .ok report ∧ p.Scenes step targets events signals none ∧
        r.Adds (step.begun targets.length :: events ++ [step.finished report])
          (.stepStarted step targets.length :: signals ++ [.stepFinished step]) r') ∨
      ∃ error, result = .error (.failed error) ∧ p.Scenes step targets events signals (some error) ∧
        r.Adds (step.begun targets.length :: events) (.stepStarted step targets.length :: signals) r' := by
  obtain ⟨message, rfl⟩ | ⟨outcomes, r₁, hinv, ended⟩ := runStep_cases h
  · exact absurd rfl (hcrash message)
  obtain ⟨events, signals, scenes, adds⟩ := scenes_invokeAll hp hinv
  -- Neither does announcing the step tell more than that, nor does committing it.
  have told : r.Adds (step.begun targets.length :: events)
      (.stepStarted step targets.length :: signals) (r₁.settle p.contract expected outcomes) := by
    have announced : r.Adds [step.begun targets.length] [.stepStarted step targets.length]
      (r.announce step targets.length) := ⟨rfl, rfl⟩
    obtain ⟨hevents, hsignals⟩ := announced.trans adds
    refine ⟨?_, hsignals⟩
    rw [Run.settle, Session.commitAll_eq, hevents]
    rfl
  refine ⟨events, signals, ?_⟩
  rcases ended with ⟨error, hf, rfl, rfl⟩ | ⟨hf, report, -, rfl, rfl⟩
  · rw [hf] at scenes
    exact .inr ⟨error, rfl, scenes, told⟩
  · rw [hf] at scenes
    exact .inl ⟨report, rfl, scenes, told.trans ⟨rfl, rfl⟩⟩

end Pass

/-! ## Runs -/

namespace Engine

/-- The events and signals of a run of steps, and the error it ends with: step by step, each on the
    nodes it expands to when it begins, up to the first that cannot begin or is not completed. -/
inductive Tells (e : Engine τ) :
    List Step → Standing → Run τ → List Event → List Signal → Option Error → Prop
  | nil (st : Standing) (r : Run τ) : Tells e [] st r [] [] none
  | unprepared {step : Step} {steps : List Step} {st : Standing} {r : Run τ} {error : Error} :
    e.prepare r.session st step = .error error → Tells e (step :: steps) st r [] [] (some error)
  | failed {step : Step} {steps : List Step} {st : Standing} {r : Run τ} {p : Pass τ}
    {targets : List NodeId} {events : List Event} {signals : List Signal} {error : Error} :
    e.prepare r.session st step = .ok (p, targets) →
    p.Scenes step targets events signals (some error) →
    Tells e (step :: steps) st r (step.begun targets.length :: events)
      (.stepStarted step targets.length :: signals) (some error)
  | completed {step : Step} {steps : List Step} {st : Standing} {r r₁ : Run τ} {p : Pass τ}
    {targets : List NodeId} {report : StepReport} {events events' : List Event}
    {signals signals' : List Signal} {failure? : Option Error} :
    e.prepare r.session st step = .ok (p, targets) →
    p.Scenes step targets events signals none →
    p.runStep step targets st.expected r = (.ok report, r₁) →
    Tells e steps (st.after p.contract) r₁ events' signals' failure? →
    Tells e (step :: steps) st r
      (step.begun targets.length :: events ++ step.finished report :: events')
      (.stepStarted step targets.length :: signals ++ .stepFinished step :: signals') failure?

/-- The error that is returned, if it is one. -/
def failure? {α : Type} : Except Stop α → Option Error
  | .error (.failed error) => some error
  | _ => none

variable {e : Engine τ} {steps : List Step} {st : Standing} {r r' : Run τ}
  {result : Except Stop (List StepReport)}

theorem tells_runSteps (hp : ∀ p ∈ e.crew, p.Discreet) (h : e.runSteps steps st r = (result, r'))
    (hcrash : ∀ message, result ≠ .error (.crashed message)) :
    ∃ events signals, e.Tells steps st r events signals (failure? result) ∧
      r.Adds events signals r' := by
  induction steps generalizing st r r' result with
  | nil =>
    cases h
    exact ⟨[], [], .nil _ _, .nothing _⟩
  | cons step steps ih =>
    rw [runSteps] at h
    split at h
    · rename_i error hprep
      cases h
      exact ⟨[], [], .unprepared hprep, .nothing _⟩
    · rename_i p targets hprep
      have discreet := hp p (Sorted.find?_eq_some.1 (prepare_ok hprep).1).1
      split at h
      · rename_i stop r₁ hstep
        cases h
        have alive (message : String) :
            (Except.error stop : Except Stop StepReport) ≠ .error (.crashed message) := by
          rintro ⟨⟩
          exact hcrash _ rfl
        obtain ⟨events, signals, ⟨_, ⟨⟩, -⟩ | ⟨error, ⟨⟩, scenes, adds⟩⟩ :=
          p.scenes_runStep discreet hstep alive
        exact ⟨_, _, .failed hprep scenes, adds⟩
      · rename_i report r₁ hstep
        obtain ⟨events, signals, ⟨_, ⟨⟩, scenes, adds⟩ | ⟨_, ⟨⟩, -⟩⟩ :=
          p.scenes_runStep discreet hstep fun _ => by simp
        have joined {result : Except Stop (List StepReport)} {r₂ : Run τ}
            (hrest : e.runSteps steps (st.after p.contract) r₁ = (result, r₂))
            (alive : ∀ message, result ≠ .error (.crashed message)) : ∃ events signals,
            e.Tells (step :: steps) st r events signals (failure? result) ∧
              r.Adds events signals r₂ := by
          obtain ⟨events', signals', tells, more⟩ := ih hrest alive
          have both := adds.trans more
          rw [List.append_assoc, List.append_assoc] at both
          exact ⟨_, _, .completed hprep scenes hstep tells, both⟩
        split at h
        · rename_i reports r₂ hrest
          cases h
          have finished := joined hrest fun _ => by simp
          exact finished
        · rename_i stop r₂ hrest
          cases h
          exact joined hrest hcrash

end Engine

/-! ## What follows of the grammar -/

theorem Event.gist?_eq_none {e : Event} (h : e.kind.isEngines = false) : e.gist? = none := by
  rw [gist?, if_neg]
  intro hk
  simp only [List.mem_cons, List.not_mem_nil, or_false] at hk
  rcases hk with hk | hk | hk | hk <;> rw [hk] at h <;> cases h

namespace Pass.Scenes

variable {p : Pass τ} {step : Step} {targets : List NodeId} {events : List Event}
  {signals : List Signal} {failure? : Option Error}

/-- No step begins or is completed between the invocations of one. -/
theorem between (h : p.Scenes step targets events signals failure?) :
    ∀ event ∈ events, event.kind ≠ .stepStarted ∧ event.kind ≠ .stepCompleted := by
  have plain {n : NodeId} {event : Event} (ht : p.Told step n event) :
      event.kind ≠ .stepStarted ∧ event.kind ≠ .stepCompleted := by
    constructor <;> intro hk <;> have := ht.plain <;> rw [hk] at this <;> cases this
  induction h with
  | nil => exact fun _ he => nomatch he
  | skipped _ ih => exact List.forall_mem_cons.2 ⟨⟨nofun, nofun⟩, ih⟩
  | completed ht _ ih =>
    refine List.forall_mem_append.2 ⟨fun event he => plain (ht event he), ?_⟩
    exact List.forall_mem_cons.2 ⟨⟨nofun, nofun⟩, ih⟩
  | failed ht _ =>
    refine List.forall_mem_append.2 ⟨fun event he => plain (ht event he), ?_⟩
    exact List.forall_mem_singleton.2 ⟨nofun, nofun⟩

theorem gists (h : p.Scenes step targets events signals failure?) :
    signals.map Signal.gist = events.filterMap Event.gist? := by
  have unsaid {n : NodeId} {told : List Event} (ht : ∀ event ∈ told, p.Told step n event) :
      told.filterMap Event.gist? = [] :=
    List.filterMap_eq_nil_iff.2 fun event he => Event.gist?_eq_none (ht event he).plain
  induction h with
  | nil => rfl
  | skipped _ ih => exact ih
  | completed ht _ ih =>
    rw [List.filterMap_append, unsaid ht, List.map_cons, ih]
    rfl
  | failed ht _ =>
    rw [List.filterMap_append, unsaid ht]
    rfl

theorem failure_eq (h : p.Scenes step targets events signals failure?) :
    ∀ error ∈ failure?, ∃ n source, error = .invocation step.unit n source := by
  induction h with
  | nil => exact fun _ he => nomatch he
  | skipped _ ih => exact ih
  | completed _ _ ih => exact ih
  | failed _ hcause =>
    rintro _ ⟨⟩
    exact ⟨_, _, hcause⟩

end Pass.Scenes

namespace Engine.Tells

variable {e : Engine τ} {steps : List Step} {st : Standing} {r : Run τ} {events : List Event}
  {signals : List Signal} {failure? : Option Error}

/-- Every step that begins is completed, but for one if the run ends with a failed invocation. -/
theorem brackets (h : e.Tells steps st r events signals failure?) :
    (∃ unit n source, failure? = some (.invocation unit n source)) ∧
      events.countP (·.kind = .stepStarted) = events.countP (·.kind = .stepCompleted) + 1 ∨
    (¬ ∃ unit n source, failure? = some (.invocation unit n source)) ∧
      events.countP (·.kind = .stepStarted) = events.countP (·.kind = .stepCompleted) := by
  have none_begins {p : Pass τ} {step : Step} {targets : List NodeId} {events : List Event}
      {signals : List Signal} {failure? : Option Error}
      (h : p.Scenes step targets events signals failure?) :
      events.countP (·.kind = .stepStarted) = 0 ∧ events.countP (·.kind = .stepCompleted) = 0 := by
    constructor
    · exact List.countP_eq_zero.2 fun event he => by simpa using (h.between event he).1
    · exact List.countP_eq_zero.2 fun event he => by simpa using (h.between event he).2
  induction h with
  | nil => exact .inr ⟨nofun, rfl⟩
  | unprepared hprep =>
    refine .inr ⟨?_, rfl⟩
    rintro ⟨unit, n, source, ⟨⟩⟩
    rcases prepare_error hprep with ⟨h, -⟩ | ⟨why, h⟩
    · cases h
    · cases h
  | failed _ scenes =>
    obtain ⟨n, source, rfl⟩ := scenes.failure_eq _ rfl
    obtain ⟨begun, completed⟩ := none_begins scenes
    refine .inl ⟨⟨_, n, source, rfl⟩, ?_⟩
    simp [begun, completed, Step.begun]
  | completed _ scenes _ _ ih =>
    obtain ⟨begun, completed⟩ := none_begins scenes
    refine ih.imp (And.imp_right fun h => ?_) (And.imp_right fun h => ?_)
    · simp [begun, completed, Step.begun, Step.finished, h]
    · simp [begun, completed, Step.begun, Step.finished, h]

/-- The signals are the events that are signalled, with the same units and nodes. -/
theorem gists (h : e.Tells steps st r events signals failure?) :
    signals.map Signal.gist = events.filterMap Event.gist? := by
  induction h with
  | nil => rfl
  | unprepared => rfl
  | failed _ scenes =>
    rw [List.map_cons, scenes.gists]
    rfl
  | completed _ scenes _ _ ih =>
    rw [List.map_append, List.map_cons, List.map_cons, scenes.gists, ih, List.filterMap_append]
    rfl

end Engine.Tells

/-! ## Executions -/

namespace Engine

variable {e : Engine τ} {q : Plan} {s : Session τ} {r : Run τ} {result : Except Stop (List StepReport)}

/-- Before the steps come the warnings of the plan. -/
theorem adds_opening (q : Plan) (s : Session τ) : (Run.ofSession s).Adds
    (q.omissions.map fun o => Event.remark .planWarning o.text) [] (opening q s) := by
  have recorded (os : List Omission) (s : Session τ) :
      (os.foldl (fun s o => s.record (.remark .planWarning o.text)) s).events.events =
        s.events.events ++ os.map fun o => Event.remark .planWarning o.text := by
    induction os generalizing s with
    | nil => exact (List.append_nil _).symm
    | cons o os ih =>
      rw [List.foldl_cons, ih, List.map_cons, ← List.singleton_append, ← List.append_assoc]
      rfl
  exact ⟨recorded q.omissions (s.seed q.initial), rfl⟩

/-- After them comes the error, if there is one. -/
theorem adds_execute (hs : s.poisoned = false) (he : e.execute q s = (result, r)) :
    ∃ r₁, e.runPlan q s = (result, r₁) ∧ r₁.Adds ((failure? result).toList.map fun error =>
      Event.remark .error s!"Execution of {q.text} failed: {error.message}") [] r := by
  rcases hrun : e.runPlan q s with ⟨(⟨error⟩ | message) | reports, r₁⟩
  · rw [execute_of_runPlan_failed hs hrun] at he
    cases he
    exact ⟨r₁, rfl, rfl, (List.append_nil _).symm⟩
  all_goals
    rw [execute, hs, if_neg Bool.false_ne_true, hrun] at he
    cases he
    exact ⟨_, rfl, .nothing _⟩

end Engine

open Engine in
/-- Execute any plan on a session that is not poisoned, with bodies that by hand record nothing of a
    kind that is the engine's, and let none of them crash. The events that are added are the warnings
    of the plan in their order, then those of its steps, then one error if the execution fails. The
    steps are told as the grammar has it, each one that begins is completed but the one that an
    invocation failed of, and the onlooker is told the same: of the events of its four kinds, in the
    order of the log, about the same units and nodes. -/
theorem log_and_signals_agree (e : Engine τ) (q : Plan) (s : Session τ) (hs : s.poisoned = false)
    (hdiscreet : ∀ p ∈ e.crew, p.Discreet) (result : Except Stop (List StepReport)) (r : Run τ)
    (he : e.execute q s = (result, r)) (hcrash : ∀ message, result ≠ .error (.crashed message)) :
    ∃ story added, r.session.events.events = s.events.events ++ added ∧
      added = (q.omissions.map fun o => Event.remark .planWarning o.text) ++ story ++
        ((failure? result).toList.map fun error =>
          Event.remark .error s!"Execution of {q.text} failed: {error.message}") ∧
      e.Tells q.steps (.ofInitial q.initial) (opening q s) story r.signals (failure? result) ∧
      ((∃ unit n source, failure? result = some (.invocation unit n source)) ∧
          added.countP (·.kind = .stepStarted) = added.countP (·.kind = .stepCompleted) + 1 ∨
        (¬ ∃ unit n source, failure? result = some (.invocation unit n source)) ∧
          added.countP (·.kind = .stepStarted) = added.countP (·.kind = .stepCompleted)) ∧
      r.signals.map Signal.gist = added.filterMap Event.gist? := by
  obtain ⟨r₁, hrun, closing⟩ := adds_execute hs he
  rw [runPlan_eq] at hrun
  obtain ⟨story, signals, tells, adds⟩ := tells_runSteps hdiscreet hrun hcrash
  have all := ((adds_opening q s).trans adds).trans closing
  obtain rfl : r.signals = signals := by
    rw [all.signals, List.append_nil]
    rfl
  -- Neither the warnings nor the error are of a kind that is counted or signalled.
  have aside (remarks : List Event)
      (h : ∀ event ∈ remarks, event.kind = .planWarning ∨ event.kind = .error) :
      remarks.countP (·.kind = .stepStarted) = 0 ∧ remarks.countP (·.kind = .stepCompleted) = 0 ∧
        remarks.filterMap Event.gist? = [] := by
    refine ⟨List.countP_eq_zero.2 ?_, List.countP_eq_zero.2 ?_, List.filterMap_eq_nil_iff.2 ?_⟩
    all_goals
      intro event hevent
      rcases h event hevent with hk | hk <;> simp [Event.gist?, hk]
  have warned := aside (q.omissions.map fun o => Event.remark .planWarning o.text)
    (by simp [Event.remark])
  have ended := aside ((failure? result).toList.map fun error =>
    Event.remark .error s!"Execution of {q.text} failed: {error.message}") (by simp [Event.remark])
  refine ⟨story, _, all.events, rfl, tells, ?_, ?_⟩
  · simp only [List.countP_append, warned, ended, Nat.zero_add, Nat.add_zero]
    exact tells.brackets
  · rw [List.filterMap_append, List.filterMap_append, warned.2.2, ended.2.2, List.nil_append,
      List.append_nil, tells.gists]

/-- A plan that leaves a unit out. -/
def outlinesOnly : Plan := { outlines with omissions := [.featureGated "inline" "fast"] }

/-- The second of three types fails, and the third is not told of. -/
theorem log_and_signals_agree_outlines : ∃ r : Run StockMarker,
    (Engine.alone .outlining).execute outlinesOnly (.new Tree.trio ∅) =
      (.error (.failed (.invocation "outline" 4 (.other "no outline"))), r) ∧
    r.session.events.events.map Event.kind = [.planWarning, .stepStarted, .nodeCreated,
      .invocationCompleted, .nodeCreated, .invocationFailed, .error] ∧
    r.signals.map Signal.gist = [(EventKind.stepStarted, some "outline", none),
      (EventKind.invocationCompleted, some "outline", some 2),
      (EventKind.invocationFailed, some "outline", some 4)] := by
  have hdiscreet : ∀ p ∈ (Engine.alone .outlining).crew, p.Discreet := by
    intro p hp site event h
    cases List.mem_singleton.1 (show p ∈ [Pass.outlining] from hp)
    cases h with
    | later reply h => cases h
  let s : Session StockMarker := .new Tree.trio ∅
  let step : Step := .ofContract outline
  have hprep : (Engine.alone .outlining).prepare (Engine.opening outlinesOnly s).session (.ofInitial ∅)
      step = .ok (.outlining, [2, 4, 5]) := by cbv
  obtain ⟨r, hstep, hkinds, hgists⟩ : ∃ r,
      Pass.outlining.runStep step [2, 4, 5] ∅ (Engine.opening outlinesOnly s) =
        (.error (.failed (.invocation "outline" 4 (.other "no outline"))), r) ∧
      r.session.events.events.map Event.kind = [.planWarning, .stepStarted, .nodeCreated,
        .invocationCompleted, .nodeCreated, .invocationFailed] ∧
      r.session.events.events.filterMap Event.gist? = [(EventKind.stepStarted, some "outline", none),
        (EventKind.invocationCompleted, some "outline", some 2),
        (EventKind.invocationFailed, some "outline", some 4)] := ⟨_, rfl, rfl, rfl⟩
  have hrun : (Engine.alone .outlining).runPlan outlinesOnly s =
      (.error (.failed (.invocation "outline" 4 (.other "no outline"))), r) := by
    rw [Engine.runPlan_eq]
    exact Engine.runSteps_of_error hprep hstep
  have he := Engine.execute_of_runPlan_failed rfl hrun
  obtain ⟨story, added, hevents, -, -, -, agree⟩ := log_and_signals_agree (.alone .outlining)
    outlinesOnly s rfl hdiscreet _ _ he fun _ => by simp
  obtain rfl : r.session.events.events ++ [_] = added := hevents
  refine ⟨_, he, ?_, ?_⟩
  · show (r.session.events.events ++ [_]).map Event.kind = _
    rw [List.map_append, hkinds]
    rfl
  · rw [agree, List.filterMap_append, hgists]
    rfl

end Trellis
