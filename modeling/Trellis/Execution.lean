/-
  Trellis.Execution — running a plan.

  The steps run one after the other, each on the nodes its granularity expands to at that
  moment, in order. The body is run on the nodes the pass applies to; the others are skipped.
  After the last invocation of a step its effects are committed, node by node in the same
  order: staged markers, and the effects its contract declares on the whole subtree, for
  skipped nodes as well. So no invocation sees what another of its step has staged.

  The first failing invocation ends the step: the nodes after it are left alone, what the ones
  before it did is committed, of its own only that what it removed is forgotten, and the
  session is poisoned. A crash ends everything where it stands and commits nothing of the step.

  Here the invocations of a step are made by one worker. `Schedule.lean` has a step that is
  shared out among several, whose invocations come between each other.
-/
import Trellis.Expansion
import Trellis.Invocation
import Trellis.Pass
import Trellis.Plan

namespace Trellis

variable {τ : Type} [MarkerFamily τ]

/-- What an onlooker is told of an execution. -/
inductive Signal where
  | stepStarted (step : Step) (nodes : Nat)
  | stepFinished (step : Step)
  | invocationFinished (unit : String) (node : NodeId)
  | invocationFailed (unit : String) (node : NodeId) (error : Error)
  deriving DecidableEq

structure StepReport where
  unit : String
  granularity : Kind
  nodes : Nat
  invoked : Nat
  skipped : Nat
  created : Nat
  removed : Nat
  deriving DecidableEq

/-- A session with an execution going on in it. -/
structure Run (τ : Type) [MarkerFamily τ] where
  session : Session τ
  signals : List Signal
  notes : List Note

namespace Run

def ofSession (s : Session τ) : Run τ := ⟨s, [], []⟩

def record (r : Run τ) (e : Event) : Run τ := { r with session := r.session.record e }

def signal (r : Run τ) (s : Signal) : Run τ := { r with signals := r.signals ++ [s] }

end Run

/-! ## Committing -/

namespace Session

def dropAll (store : Store τ) (nodes : List NodeId) : Store τ := nodes.foldl Store.drop store

/-- Gives a created node the tags that the plan has on nodes of its kind. -/
def welcome (tree : Tree) (expected : FactSet) (store : Store τ) (n : NodeId) : Store τ :=
  match tree.kind? n with
  | some k => (expected.tagsOf k).foldl (fun store tag => Store.insertTag store n tag) store
  | none => store

/-- Commits what an invocation staged. -/
def commitStaged (s : Session τ) (expected : FactSet) (staged : Staged τ) : Session τ :=
  let store := dropAll s.store staged.removed
  let store := staged.created.foldl (welcome s.tree expected) store
  let store := staged.markers.toList.foldl (fun store change =>
    if s.tree.contains change.1 then Store.applyChanges store change.1 change.2 else store) store
  { s with store }

/-- Applies the effects a contract declares to a node and all below it. -/
def commitEffects (s : Session τ) (c : Contract) (target : NodeId) : Session τ :=
  let within (k : Kind) : List NodeId := s.tree.descendantsOfKind target k
  let store := c.removes.tags.foldl (fun store tag =>
    (within tag.scope).foldl (fun store n => Store.removeTag store n tag) store) s.store
  let store := c.adds.tags.foldl (fun store tag => tagAll store (within tag.scope) tag) store
  let store := c.removes.markers.foldl (fun store kind =>
    (s.tree.descendants target).foldl (fun store n => Store.clearMarker store n kind) store) store
  { s with store }

end Session

/-! ## Checking what a step needs -/

namespace Session

variable (s : Session τ)

/-- The nodes that have to carry a tag for a unit of some granularity to run on `targets`:
    those below the targets, those above them, or all, as the tag's scope lies. -/
def holders (granularity : Kind) (targets : List NodeId) (scope : Kind) : List NodeId :=
  if granularity.encloses scope then targets.flatMap (s.tree.descendantsOfKind · scope)
  else if scope.encloses granularity then targets.filterMap (s.tree.ancestorOfKind · scope)
  else s.tree.nodesOfKind scope

/-- The first tag that a unit needs and a node that should carry it does not. -/
def missingTag (c : Contract) (targets : List NodeId) : Option Inconsistency :=
  c.needs.tags.findSome? fun tag =>
    ((s.holders c.granularity targets tag.scope).find? (!Store.hasTag s.store · tag)).map
      (.missingTag c.name tag ·)

/-- Whether a marker of some kind is on a node, below it or above it. -/
def markerInReach (n : NodeId) (kind : String) : Bool :=
  (s.tree.descendants n).any (Store.hasMarker s.store · kind)
    || ((s.tree.lineage n).drop 1).any (Store.hasMarker s.store · kind)

def appliesTo (p : Pass τ) (n : NodeId) : Bool :=
  match s.tree.get? n with
  | some node => p.appliesTo node
  | none => false

/-- The first node a pass applies to that has some marker it needs out of reach. Kinds that are
    assumed are not looked for. -/
def missingMarker (p : Pass τ) (targets : List NodeId) (assumed : OrdSet String) :
    Option Inconsistency :=
  let kinds := p.contract.needs.markers.filter (· ∉ assumed)
  (targets.filter (s.appliesTo p)).findSome? fun n =>
    (kinds.find? (!s.markerInReach n ·)).map (.missingMarker p.name · n)

/-- Whether what a pass needs is there on the nodes it is about to run on. -/
def verify (p : Pass τ) (targets : List NodeId) (assumed : OrdSet String) : Except Error Unit :=
  match (s.missingTag p.contract targets).or (s.missingMarker p targets assumed) with
  | some why => .error (.inconsistent why)
  | none => .ok ()

end Session

/-! ## Invocations -/

/-- How an invocation ended. -/
inductive Outcome (τ : Type) where
  | skipped
  | completed (staged : Staged τ)
  | failed (staged : Staged τ) (error : Error)

/-- The time of an invocation is not measured. -/
def unmeasured : Duration := .zero

namespace Pass

variable (p : Pass τ) (step : Step)

/-- Runs the body on a node, holding the exclusive lock if the step asks for it. A crash under
    the lock breaks it. -/
def runBody (target : NodeId) (r : Run τ) : Except Stop Unit × Invocation τ :=
  let inv : Invocation τ := ⟨r.session, .none, r.notes⟩
  if step.exclusive && r.session.lockBroken then (.error (.failed .lockBroken), inv)
  else
    let site : Site := ⟨step.unit, target, step.granularity⟩
    match (p.body site).run site inv with
    | (.error (.crashed message), after) =>
      (.error (.crashed message), { after with
        session := { after.session with
          lockBroken := after.session.lockBroken || step.exclusive } })
    | ended => ended

/-- One invocation. A crash is answered with its message. -/
def invoke (r : Run τ) (target : NodeId) : Except String (Outcome τ) × Run τ :=
  if r.session.appliesTo p target then
    match p.runBody step target r with
    | (.ok (), inv) =>
      let event : Event := ⟨.invocationCompleted, step.unit, target,
        EventKind.invocationCompleted.description, unmeasured⟩
      (.ok (.completed inv.staged), (({ r with session := inv.session, notes := inv.notes }).record
        event).signal (.invocationFinished step.unit target))
    | (.error (.failed source), inv) =>
      let error : Error := .invocation step.unit target source
      let event : Event := ⟨.invocationFailed, step.unit, target, error.message, unmeasured⟩
      (.ok (.failed inv.staged error), (({ r with session := inv.session, notes := inv.notes }).record
        event).signal (.invocationFailed step.unit target error))
    | (.error (.crashed message), inv) =>
      (.error message, { r with session := inv.session, notes := inv.notes })
  else
    (.ok .skipped, r.record
      ⟨.nodeSkipped, step.unit, target, EventKind.nodeSkipped.description, none⟩)

/-- Invokes the pass on nodes in order, up to the first failure. -/
def invokeAll : List NodeId → Run τ → Except String (List (NodeId × Outcome τ)) × Run τ
  | [], r => (.ok [], r)
  | n :: ns, r =>
    match p.invoke step r n with
    | (.error message, r) => (.error message, r)
    | (.ok (.failed staged error), r) => (.ok [(n, .failed staged error)], r)
    | (.ok outcome, r) =>
      match invokeAll ns r with
      | (.ok outcomes, r) => (.ok ((n, outcome) :: outcomes), r)
      | (.error message, r) => (.error message, r)

end Pass

/-! ## Steps -/

namespace StepReport

def empty (step : Step) (nodes : Nat) : StepReport :=
  ⟨step.unit, step.granularity, nodes, 0, 0, 0, 0⟩

def count (report : StepReport) : Outcome τ → StepReport
  | .skipped => { report with skipped := report.skipped + 1 }
  | .completed staged =>
    { report with
      invoked := report.invoked + 1
      created := report.created + staged.created.length
      removed := report.removed + staged.removed.length }
  | .failed _ _ => { report with invoked := report.invoked + 1 }

end StepReport

/-- Commits what an invocation did to a node. -/
def Session.commit (c : Contract) (expected : FactSet) (s : Session τ) :
    NodeId × Outcome τ → Session τ
  | (n, .skipped) => s.commitEffects c n
  | (n, .completed staged) => (s.commitStaged expected staged).commitEffects c n
  | (_, .failed staged _) => { s with store := dropAll s.store staged.removed }

/-- The error a step failed with. -/
def Outcome.failure? (outcomes : List (NodeId × Outcome τ)) : Option Error :=
  outcomes.findSome? fun
    | (_, .failed _ error) => some error
    | _ => none

namespace Run

/-- The run when a step on some number of nodes has been announced. -/
def announce (r : Run τ) (step : Step) (nodes : Nat) : Run τ :=
  (r.record ⟨.stepStarted, step.unit, none, s!"{step.text} on {nodes} nodes", none⟩).signal
    (.stepStarted step nodes)

/-- The run when what some invocations came to has been committed. -/
def settle (r : Run τ) (c : Contract) (expected : FactSet) (outcomes : List (NodeId × Outcome τ)) :
    Run τ :=
  { r with session := outcomes.foldl (Session.commit c expected) r.session }

/-- The run when a step has been completed. -/
def conclude (r : Run τ) (step : Step) (report : StepReport) : Run τ :=
  (r.record ⟨.stepCompleted, step.unit, none,
    s!"{step.text}: {report.invoked} invoked, {report.skipped} skipped, " ++
      s!"{report.created} created, {report.removed} removed", unmeasured⟩).signal (.stepFinished step)

end Run

/-- Runs a step on its nodes and commits it. -/
def Pass.runStep (p : Pass τ) (step : Step) (targets : List NodeId) (expected : FactSet)
    (r : Run τ) : Except Stop StepReport × Run τ :=
  match p.invokeAll step targets (r.announce step targets.length) with
  | (.error message, r) => (.error (.crashed message), r)
  | (.ok outcomes, r) =>
    let r := r.settle p.contract expected outcomes
    match Outcome.failure? outcomes with
    | some error => (.error (.failed error), r)
    | none =>
      let report := (outcomes.map Prod.snd).foldl StepReport.count (.empty step targets.length)
      (.ok report, r.conclude step report)

/-! ## Plans -/

/-- What a run of steps goes by: who does the work, where steps run and whether their needs are
    checked. -/
structure Engine (τ : Type) [MarkerFamily τ] where
  crew : Crew τ
  adapters : Adapters
  verify : Bool

/-- What a plan has established so far: the facts it promises, and the kinds of marker that its
    initial facts claim and no step has touched. -/
structure Standing where
  expected : FactSet
  assumed : OrdSet String

namespace Standing

def ofInitial (initial : FactSet) : Standing := ⟨initial, Sorted.ofList initial.markers⟩

def after (st : Standing) (c : Contract) : Standing :=
  ⟨st.expected.apply c.adds c.removes,
    st.assumed.eraseAll (c.adds.markers ++ c.removes.markers)⟩

end Standing

namespace Engine

variable (e : Engine τ)

/-- What a step runs with, if it can run: its pass and its nodes. -/
def prepare (s : Session τ) (st : Standing) (step : Step) :
    Except Error (Pass τ × List NodeId) :=
  match e.crew.find? step.unit with
  | none => .error (.inconsistent (.unregistered step.unit))
  | some p => do
    let targets ← e.adapters.expandRoot s.tree step.granularity
    if e.verify then s.verify p targets st.assumed
    return (p, targets)

def runSteps : List Step → Standing → Run τ → Except Stop (List StepReport) × Run τ
  | [], _, r => (.ok [], r)
  | step :: steps, st, r =>
    match e.prepare r.session st step with
    | .error error => (.error (.failed error), r)
    | .ok (p, targets) =>
      match p.runStep step targets st.expected r with
      | (.error stop, r) => (.error stop, r)
      | (.ok report, r) =>
        match runSteps steps (st.after p.contract) r with
        | (.ok reports, r) => (.ok (report :: reports), r)
        | (.error stop, r) => (.error stop, r)

/-- The run of a plan when the session is seeded and what the plan leaves out is announced. -/
def opening (plan : Plan) (s : Session τ) : Run τ :=
  .ofSession (plan.omissions.foldl (fun s o => s.record (.remark .planWarning o.text))
    (s.seed plan.initial))

/-- Seeds the session, announces what the plan leaves out and runs its steps. -/
def runPlan (plan : Plan) (s : Session τ) : Except Stop (List StepReport) × Run τ :=
  e.runSteps plan.steps (.ofInitial plan.initial) (opening plan s)

/-- The run when the plan has failed: the session is poisoned, and the failure is the last event. -/
def poison (plan : Plan) (error : Error) (r : Run τ) : Run τ :=
  { r with
    session := { r.session with poisoned := true }.record
      (.remark .error s!"Execution of {plan.text} failed: {error.message}") }

/-- Executes a plan on a session that is not poisoned. An error poisons it; a crash does not. -/
def execute (plan : Plan) (s : Session τ) : Except Stop (List StepReport) × Run τ :=
  if s.poisoned then (.error (.failed .sessionPoisoned), .ofSession s)
  else
    match e.runPlan plan s with
    | (.error (.failed error), r) => (.error (.failed error), poison plan error r)
    | ended => ended

end Engine

end Trellis
