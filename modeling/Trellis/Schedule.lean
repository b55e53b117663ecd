/-
  Trellis.Schedule — a step shared out among workers.

  Each node of a step is a task. Tasks are begun by whatever worker is free and go on side by side;
  what they have in common is the session, a flag that the first failure sets, and the lock for
  exclusive units. A task goes on in moves, and between two moves of one there may be any number of
  moves of the others (`Pass.advance`, `Pass.Move`).

  A request of a body is answered in one move, since what it reads and writes belongs to its own
  subtree or is read as a whole. Only a clone takes several, one for each node: what it copies may
  be anywhere, and may change while it is being copied. When a node that it has still to copy is
  gone, the clone fails, and the copies it has made stay where they are, known to nobody.

  A task that finds the flag set is cancelled. A failure that comes after the first is recorded,
  but it is not what the step fails of. When all tasks have ended, they are committed in the order
  of the nodes, whatever the order in which they ended.

  With one worker the tasks are taken in order, each when those before it have ended. Then nothing
  comes in between, and the step is the one of `Execution.lean` (`Proofs/Execution/Alone`).
-/
import Mathlib.Logic.Relation
import Trellis.Pipeline

namespace Trellis

variable {τ : Type} [MarkerFamily τ]

/-- How a task ended. -/
inductive Ending (τ : Type) where
  | outcome (outcome : Outcome τ)
  /-- It failed, but another had failed before. -/
  | failedLate (staged : Staged τ)
  /-- It had not begun when another failed. -/
  | cancelled

/-- How far a task is. -/
inductive Stage (τ : Type) [MarkerFamily τ] where
  | waiting
  /-- A worker has taken it, and no failure was known. -/
  | taken
  | skipping
  | entering
  | working (staged : Staged τ) (rest : Work τ (Except Stop Unit))
  /-- In the middle of a clone: `left` are the nodes still to be copied, with the parents of their
      copies. -/
  | copying (staged : Staged τ) (source : NodeId) (pairs left : List (NodeId × NodeId))
      (next : Except Error NodeId → Work τ (Except Stop Unit))
  | failing (staged : Staged τ) (cause : Error)
  | recording (event : Event) (signal : Signal) (ending : Ending τ)
  | signalling (signal : Signal) (ending : Ending τ)
  | ended (ending : Ending τ)
  | crashed (message : String)

/-- What the tasks of a step have in common. -/
structure Common (τ : Type) [MarkerFamily τ] where
  run : Run τ
  /-- Set by the first failure. -/
  cancelled : Bool
  /-- Whether a task holds the exclusive lock. -/
  locked : Bool

namespace Common

variable (c : Common τ)

/-- The session as an invocation has it that has staged something. -/
def invocation (staged : Staged τ) : Invocation τ := ⟨c.run.session, staged, c.run.notes⟩

/-- When an invocation has done something to the session. -/
def update (inv : Invocation τ) : Common τ :=
  { c with run := { c.run with session := inv.session, notes := inv.notes } }

def withTree (tree : Tree) : Common τ :=
  { c with run := { c.run with session := { c.run.session with tree } } }

def release (step : Step) : Common τ := { c with locked := c.locked && !step.exclusive }

/-- A crash under the lock breaks it. -/
def crash (step : Step) : Common τ :=
  { c.release step with run := { c.run with session := { c.run.session with
      lockBroken := c.run.session.lockBroken || step.exclusive } } }

end Common

/-! ## Moves -/

section Moves

variable (site : Site) (staged : Staged τ) (c : Common τ)

/-- A clone begins by looking whether it may. -/
def beginClone (source parent : NodeId) (next : Except Error NodeId → Work τ (Except Stop Unit)) :
    Stage τ × Common τ :=
  match (c.invocation staged).checkOwned site parent with
  | .error e => (.working staged (next (.error e)), c)
  | .ok () =>
    if c.run.session.tree.isWithin parent source then
      (.working staged (next (.error (.tree (.cloneIntoItself source)))), c)
    else (.copying staged source [] [(source, parent)] next, c)

/-- The next node of a clone is copied, or else it comes to its end. -/
def advanceClone (source : NodeId) (pairs : List (NodeId × NodeId))
    (next : Except Error NodeId → Work τ (Except Stop Unit)) :
    List (NodeId × NodeId) → Stage τ × Common τ
  | (n, parent) :: left =>
    match c.run.session.tree.copyNode n parent with
    | .ok (node, copy, tree) =>
      (.copying staged source (pairs ++ [(n, copy)]) (node.children.map (·, copy) ++ left) next,
        c.withTree tree)
    | .error e => (.working staged (next (.error (.tree e))), c)
  | [] =>
    match pairs with
    | (_, copy) :: _ =>
      let inv := (c.invocation staged).adopt site source copy pairs
      (.working inv.staged (next (.ok copy)), c.update inv)
    | [] => (.working staged (next (.error (.tree (.nothingCloned source)))), c)

/-- A request is answered at once, unless it is for a clone. -/
def Request.begin : (r : Request τ) → (r.Reply → Work τ (Except Stop Unit)) → Stage τ × Common τ
  | clone source parent, next => beginClone site staged c source parent next
  | r, next =>
    let (reply, inv) := r.answer site (c.invocation staged)
    (.working inv.staged (next reply), c.update inv)

end Moves

/-- The next move of the task on `target`, if it has one and need not wait for the lock. -/
def Pass.advance (p : Pass τ) (step : Step) (target : NodeId) (c : Common τ) :
    Stage τ → Option (Stage τ × Common τ)
  | .waiting => some (if c.cancelled then .ended .cancelled else .taken, c)
  | .taken => some (if c.run.session.appliesTo p target then .entering else .skipping, c)
  | .skipping => some (.ended (.outcome .skipped), { c with
      run := c.run.record
        ⟨.nodeSkipped, step.unit, target, EventKind.nodeSkipped.description, none⟩ })
  | .entering =>
    if step.exclusive then
      if c.locked then none
      else if c.run.session.lockBroken then some (.failing .none .lockBroken, c)
      else some (.working .none (p.body ⟨step.unit, target, step.granularity⟩), { c with locked := true })
    else some (.working .none (p.body ⟨step.unit, target, step.granularity⟩), c)
  | .working staged (.ask r next) => some (r.begin ⟨step.unit, target, step.granularity⟩ staged c next)
  | .working staged (.done (.ok ())) =>
    let event : Event := ⟨.invocationCompleted, step.unit, target,
      EventKind.invocationCompleted.description, unmeasured⟩
    some (.recording event (.invocationFinished step.unit target) (.outcome (.completed staged)),
      c.release step)
  | .working staged (.done (.error (.failed cause))) => some (.failing staged cause, c.release step)
  | .working _ (.done (.error (.crashed message))) => some (.crashed message, c.crash step)
  | .copying staged source pairs left next =>
    some (advanceClone ⟨step.unit, target, step.granularity⟩ staged c source pairs next left)
  | .failing staged cause =>
    let error : Error := .invocation step.unit target cause
    let event : Event := ⟨.invocationFailed, step.unit, target, error.message, unmeasured⟩
    let ending := if c.cancelled then .failedLate staged else .outcome (.failed staged error)
    some (.recording event (.invocationFailed step.unit target error) ending, { c with cancelled := true })
  | .recording event signal ending => some (.signalling signal ending, { c with run := c.run.record event })
  | .signalling signal ending => some (.ended ending, { c with run := c.run.signal signal })
  | .ended _ => none
  | .crashed _ => none

/-- How many make the invocations of a step. -/
inductive Workers where
  | one
  | many
  deriving DecidableEq

/-- Whether a task may go on, with those before it as far as they are. -/
def Workers.admit (before : List (NodeId × Stage τ)) : Workers → Prop
  | .one => ∀ task ∈ before, ∃ ending, task.2 = .ended ending
  | .many => True

/-- A step on its way. -/
structure Round (τ : Type) [MarkerFamily τ] where
  common : Common τ
  tasks : List (NodeId × Stage τ)

def Round.start (r : Run τ) (targets : List NodeId) : Round τ :=
  ⟨⟨r, false, false⟩, targets.map (·, .waiting)⟩

/-- Tasks that have ended. -/
def Ending.stages (endings : List (NodeId × Ending τ)) : List (NodeId × Stage τ) :=
  endings.map fun task => (task.1, .ended task.2)

/-- One of the tasks goes on. -/
inductive Pass.Move (p : Pass τ) (step : Step) (workers : Workers) : Round τ → Round τ → Prop
  | task {c c' : Common τ} {before after : List (NodeId × Stage τ)} {target : NodeId}
    {stage stage' : Stage τ} (hw : workers.admit before)
    (h : p.advance step target c stage = some (stage', c')) :
    Move p step workers ⟨c, before ++ (target, stage) :: after⟩ ⟨c', before ++ (target, stage') :: after⟩

/-! ## Steps -/

/-- Commits what became of a task. -/
def Session.close (c : Contract) (expected : FactSet) (s : Session τ) : NodeId × Ending τ → Session τ
  | (n, .outcome outcome) => s.commit c expected (n, outcome)
  | (_, .failedLate staged) => { s with store := dropAll s.store staged.removed }
  | (_, .cancelled) => s

def StepReport.countEnding (report : StepReport) : Ending τ → StepReport
  | .outcome outcome => report.count outcome
  | .failedLate _ => { report with invoked := report.invoked + 1 }
  | .cancelled => report

/-- The error that an ending has for the step, if any. -/
def Ending.error? : Ending τ → Option Error
  | .outcome (.failed _ error) => some error
  | _ => none

/-- The error a step failed with: of several, the last. -/
def Ending.failure? (endings : List (NodeId × Ending τ)) : Option Error :=
  endings.foldl (fun failure task => task.2.error?.or failure) none

/-- Commits the tasks of a step, in the order of the nodes. -/
def Pass.closeStep (p : Pass τ) (step : Step) (expected : FactSet) (endings : List (NodeId × Ending τ))
    (r : Run τ) : Except Stop StepReport × Run τ :=
  let r := { r with session := endings.foldl (Session.close p.contract expected) r.session }
  match Ending.failure? endings with
  | some error => (.error (.failed error), r)
  | none =>
    let report := (endings.map Prod.snd).foldl .countEnding (.empty step endings.length)
    (.ok report, r.conclude step report)

/-- A step can be performed with this answer, leaving this run. It is over when all tasks have ended.
    Where one has crashed, those that have begun are brought to an end, and nothing is committed. -/
inductive Pass.Performs (p : Pass τ) (workers : Workers) (step : Step) (targets : List NodeId)
    (expected : FactSet) (r : Run τ) : Except Stop StepReport → Run τ → Prop
  | closed {c : Common τ} {endings : List (NodeId × Ending τ)}
    (moves : Relation.ReflTransGen (p.Move step workers) (.start (r.announce step targets.length) targets)
      ⟨c, Ending.stages endings⟩) :
    Performs p workers step targets expected r (p.closeStep step expected endings c.run).1
      (p.closeStep step expected endings c.run).2
  | crashed {round : Round τ} {n : NodeId} {message : String}
    (moves : Relation.ReflTransGen (p.Move step workers) (.start (r.announce step targets.length) targets)
      round)
    (hcrash : (n, .crashed message) ∈ round.tasks)
    (hrest : ∀ task ∈ round.tasks, task.2 = .waiting ∨ (∃ ending, task.2 = .ended ending) ∨
      ∃ message, task.2 = .crashed message) :
    Performs p workers step targets expected r (.error (.crashed message)) round.common.run

/-! ## Plans -/

namespace Engine

variable (e : Engine τ) (workers : Workers)

inductive RunsSteps : List Step → Standing → Run τ → Except Stop (List StepReport) → Run τ → Prop
  | nil {st : Standing} {r : Run τ} : RunsSteps [] st r (.ok []) r
  | unprepared {step : Step} {steps : List Step} {st : Standing} {r : Run τ} {error : Error}
    (hprep : e.prepare r.session st step = .error error) :
    RunsSteps (step :: steps) st r (.error (.failed error)) r
  | stopped {step : Step} {steps : List Step} {st : Standing} {r r' : Run τ} {p : Pass τ}
    {targets : List NodeId} {stop : Stop} (hprep : e.prepare r.session st step = .ok (p, targets))
    (hstep : p.Performs workers step targets st.expected r (.error stop) r') :
    RunsSteps (step :: steps) st r (.error stop) r'
  | next {step : Step} {steps : List Step} {st : Standing} {r r₁ r' : Run τ} {p : Pass τ}
    {targets : List NodeId} {report : StepReport} {answer : Except Stop (List StepReport)}
    (hprep : e.prepare r.session st step = .ok (p, targets))
    (hstep : p.Performs workers step targets st.expected r (.ok report) r₁)
    (hrest : RunsSteps steps (st.after p.contract) r₁ answer r') :
    RunsSteps (step :: steps) st r (answer.map (report :: ·)) r'

/-- A plan can be executed with this answer, leaving this run. -/
inductive Executes (plan : Plan) (s : Session τ) : Except Stop (List StepReport) → Run τ → Prop
  | refused (hs : s.poisoned = true) : Executes plan s (.error (.failed .sessionPoisoned)) (.ofSession s)
  | failed {error : Error} {r : Run τ} (hs : s.poisoned = false)
    (h : e.RunsSteps workers plan.steps (.ofInitial plan.initial) (opening plan s)
      (.error (.failed error)) r) :
    Executes plan s (.error (.failed error)) (poison plan error r)
  | ended {answer : Except Stop (List StepReport)} {r : Run τ} (hs : s.poisoned = false)
    (h : e.RunsSteps workers plan.steps (.ofInitial plan.initial) (opening plan s) answer r)
    (hanswer : ∀ error, answer ≠ .error (.failed error)) : Executes plan s answer r

end Engine

/-- A pipeline can be run with this answer, leaving this run. -/
inductive Pipeline.Runs (p : Pipeline τ) (workers : Workers) (s : Session τ) (initial : FactSet)
    (goal : Goal) : Except Stop (List StepReport) → Run τ → Prop
  | refused {e : Error} (h : p.prepare s initial goal = .error e) :
    Runs p workers s initial goal (.error (.failed e)) (.ofSession s)
  | executed {plan : Plan} {answer : Except Stop (List StepReport)} {r : Run τ}
    (h : p.prepare s initial goal = .ok plan) (hexec : p.engine.Executes workers plan s answer r) :
    Runs p workers s initial goal answer r

end Trellis
