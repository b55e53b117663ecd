/-
  Trellis.Proofs.Execution.Rounds — what the moves of a step keep, whoever makes them.

  What a move of a task can do is said once (`Pass.Advances`, `Pass.advance_cases`). It reaches the
  session in few ways: by answering a request, by copying a node, and by telling what has happened
  (`advance_session`). So a property of sessions that these keep, and that commits keep, holds through
  a step in whatever order its tasks go on, and through a run of steps (`Lasting`). What every move of
  a task keeps to be true of the task itself is carried likewise (`forall_tasks`); so is it that a task
  fails of an error that names its unit and its node (`Stage.Blames`), hence that a step does
  (`performs_failed`).
-/
import Trellis.Proofs.Execution.Frame
import Trellis.Schedule

namespace Trellis

variable {τ : Type} [MarkerFamily τ]

open Relation (ReflTransGen)

/-- What nothing that is done to a session in an execution undoes, short of poisoning it. -/
structure Session.Lasting (I : Session τ → Prop) : Prop where
  congr : ∀ {s s' : Session τ}, I s → s'.tree = s.tree → s'.store = s.store →
    s'.poisoned = s.poisoned → I s'
  answer : ∀ {inv : Invocation τ} (site : Site) (r : Request τ), I inv.session →
    I (r.answer site inv).2.session
  copy : ∀ {s : Session τ} {n parent c : NodeId} {node : Node} {tree : Tree}, I s →
    s.tree.copyNode n parent = .ok (node, c, tree) → I { s with tree }
  close : ∀ {s : Session τ} (c : Contract) (expected : FactSet) (task : NodeId × Ending τ), I s →
    I (s.close c expected task)

namespace Pass

variable {p : Pass τ} {step : Step} {workers : Workers} {target : NodeId} {c c' : Common τ}
  {stage stage' : Stage τ} {a b : Round τ} {staged : Staged τ} {site : Site} {source parent : NodeId}
  {pairs left : List (NodeId × NodeId)} {next : Except Error NodeId → Work τ (Except Stop Unit)}

/-! ## One move -/

/-- What a move of a task can do, case by case. What events and signals say is left open. -/
inductive Advances (p : Pass τ) (step : Step) (target : NodeId) (c : Common τ) :
    Stage τ → Stage τ → Common τ → Prop
  | cancelled (hc : c.cancelled = true) : Advances p step target c .waiting (.ended .cancelled) c
  | taken (hc : c.cancelled = false) : Advances p step target c .waiting .taken c
  | applies (happlies : c.run.session.appliesTo p target = true) :
    Advances p step target c .taken .entering c
  | spared (happlies : c.run.session.appliesTo p target = false) :
    Advances p step target c .taken .skipping c
  | skipped {event : Event} : Advances p step target c .skipping (.ended (.outcome .skipped))
      { c with run := c.run.record event }
  | lockedOut (hx : step.exclusive = true) (hbroken : c.run.session.lockBroken = true) :
    Advances p step target c .entering (.failing .none .lockBroken) c
  | locked (hx : step.exclusive = true) (hc : c.locked = false) : Advances p step target c .entering
      (.working .none (p.body ⟨step.unit, target, step.granularity⟩)) { c with locked := true }
  | entered (hx : step.exclusive = false) : Advances p step target c .entering
      (.working .none (p.body ⟨step.unit, target, step.granularity⟩)) c
  | answered {staged : Staged τ} {r : Request τ} {next : r.Reply → Work τ (Except Stop Unit)}
    {reply : r.Reply} {inv : Invocation τ}
    (hanswer : r.answer ⟨step.unit, target, step.granularity⟩ (c.invocation staged) = (reply, inv)) :
    Advances p step target c (.working staged (.ask r next)) (.working inv.staged (next reply)) (c.update inv)
  | cloneRefused {staged : Staged τ} {source parent : NodeId}
    {next : Except Error NodeId → Work τ (Except Stop Unit)} {e : Error} : Advances p step target c
      (.working staged (.ask (.clone source parent) next)) (.working staged (next (.error e))) c
  | cloneBegun {staged : Staged τ} {source parent : NodeId}
    {next : Except Error NodeId → Work τ (Except Stop Unit)} : Advances p step target c
      (.working staged (.ask (.clone source parent) next))
      (.copying staged source [] [(source, parent)] next) c
  | copied {staged : Staged τ} {source n parent copy : NodeId} {pairs left pairs' left' : List (NodeId × NodeId)}
    {next : Except Error NodeId → Work τ (Except Stop Unit)} {node : Node} {tree : Tree}
    (hcopy : c.run.session.tree.copyNode n parent = .ok (node, copy, tree)) : Advances p step target c
      (.copying staged source pairs left next) (.copying staged source pairs' left' next) (c.withTree tree)
  | brokenOff {staged : Staged τ} {source : NodeId} {pairs left : List (NodeId × NodeId)}
    {next : Except Error NodeId → Work τ (Except Stop Unit)} {e : Error} : Advances p step target c
      (.copying staged source pairs left next) (.working staged (next (.error e))) c
  | adopted {staged : Staged τ} {source copy : NodeId} {pairs left : List (NodeId × NodeId)}
    {next : Except Error NodeId → Work τ (Except Stop Unit)} {inv : Invocation τ}
    (hadopt : (c.invocation staged).adopt ⟨step.unit, target, step.granularity⟩ source copy pairs = inv) :
    Advances p step target c (.copying staged source pairs left next)
      (.working inv.staged (next (.ok copy))) (c.update inv)
  | completed {staged : Staged τ} {event : Event} {signal : Signal} : Advances p step target c
      (.working staged (.done (.ok ()))) (.recording event signal (.outcome (.completed staged)))
      (c.release step)
  | failing {staged : Staged τ} {cause : Error} : Advances p step target c
      (.working staged (.done (.error (.failed cause)))) (.failing staged cause) (c.release step)
  | crashed {staged : Staged τ} {message : String} : Advances p step target c
      (.working staged (.done (.error (.crashed message)))) (.crashed message) (c.crash step)
  | failedFirst {staged : Staged τ} {cause : Error} {event : Event} {signal : Signal}
    (hc : c.cancelled = false) : Advances p step target c (.failing staged cause)
      (.recording event signal (.outcome (.failed staged (.invocation step.unit target cause))))
      { c with cancelled := true }
  | failedLate {staged : Staged τ} {cause : Error} {event : Event} {signal : Signal}
    (hc : c.cancelled = true) : Advances p step target c (.failing staged cause)
      (.recording event signal (.failedLate staged)) { c with cancelled := true }
  | recorded {event : Event} {signal : Signal} {ending : Ending τ} : Advances p step target c
      (.recording event signal ending) (.signalling signal ending) { c with run := c.run.record event }
  | signalled {signal : Signal} {ending : Ending τ} : Advances p step target c
      (.signalling signal ending) (.ended ending) { c with run := c.run.signal signal }

theorem advances_begin {staged : Staged τ} {r : Request τ} {next : r.Reply → Work τ (Except Stop Unit)}
    (h : r.begin ⟨step.unit, target, step.granularity⟩ staged c next = (stage', c')) :
    p.Advances step target c (.working staged (.ask r next)) stage' c' := by
  cases r with
  | clone source parent =>
    have h : beginClone _ staged c source parent next = (stage', c') := h
    unfold beginClone at h
    split at h
    · cases h
      exact .cloneRefused
    · split at h
      · cases h
        exact .cloneRefused
      · cases h
        exact .cloneBegun
  | _ =>
    cases h
    exact .answered rfl

theorem advances_clone
    (h : advanceClone ⟨step.unit, target, step.granularity⟩ staged c source pairs next left = (stage', c')) :
    p.Advances step target c (.copying staged source pairs left next) stage' c' := by
  unfold advanceClone at h
  split at h
  · split at h
    · rename_i hcopy
      cases h
      exact .copied hcopy
    · cases h
      exact .brokenOff
  · split at h
    · cases h
      exact .adopted rfl
    · cases h
      exact .brokenOff

theorem advance_cases (h : p.advance step target c stage = some (stage', c')) :
    p.Advances step target c stage stage' c' := by
  cases stage with
  | waiting =>
    cases h
    cases hc : c.cancelled with
    | true => exact .cancelled hc
    | false => exact .taken hc
  | taken =>
    cases h
    cases happlies : c.run.session.appliesTo p target with
    | true => exact .applies happlies
    | false => exact .spared happlies
  | skipping =>
    cases h
    exact .skipped
  | entering =>
    rw [advance] at h
    split at h
    · rename_i hx
      split at h
      · cases h
      · rename_i hc
        split at h
        · rename_i hbroken
          cases h
          exact .lockedOut hx hbroken
        · cases h
          exact .locked hx (Bool.eq_false_iff.2 hc)
    · rename_i hx
      cases h
      exact .entered (Bool.eq_false_iff.2 hx)
  | working staged work =>
    rcases work with result | ⟨r, next⟩
    · rcases result with (cause | message) | _
      · cases h
        exact .failing
      · cases h
        exact .crashed
      · cases h
        exact .completed
    · exact advances_begin (Option.some.inj h)
  | copying staged source pairs left next => exact advances_clone (Option.some.inj h)
  | failing staged cause =>
    cases h
    cases hc : c.cancelled with
    | true => exact .failedLate hc
    | false => exact .failedFirst hc
  | recording event signal ending =>
    cases h
    exact .recorded
  | signalling signal ending =>
    cases h
    exact .signalled
  | ended | crashed => cases h

/-- All that a move of a task can do to the session. -/
theorem advance_session {I : Session τ → Prop} (h : p.advance step target c stage = some (stage', c'))
    (start : I c.run.session)
    (congr : ∀ s s' : Session τ, I s → s'.tree = s.tree → s'.store = s.store → s'.poisoned = s.poisoned →
      I s')
    (request : ∀ staged r next, stage = .working staged (.ask r next) →
      I (r.answer ⟨step.unit, target, step.granularity⟩ (c.invocation staged)).2.session)
    (copy : ∀ n parent node copy tree, c.run.session.tree.copyNode n parent = .ok (node, copy, tree) →
      I { c.run.session with tree }) : I c'.run.session := by
  have quiet {s : Session τ} (htree : s.tree = c.run.session.tree) (hstore : s.store = c.run.session.store)
      (hpoisoned : s.poisoned = c.run.session.poisoned) : I s := congr _ _ start htree hstore hpoisoned
  cases advance_cases h with
  | cancelled | taken | applies | spared | lockedOut | locked | entered | cloneRefused | cloneBegun
  | brokenOff | completed | failing | failedFirst | failedLate => exact start
  | skipped | crashed | recorded | signalled => exact quiet rfl rfl rfl
  | answered hanswer =>
    have := request _ _ _ rfl
    rwa [hanswer] at this
  | copied hcopy => exact copy _ _ _ _ _ hcopy
  | @adopted staged source m pairs _ _ _ hadopt =>
    obtain ⟨htree, hstore, hpoisoned, -⟩ := Invocation.adopted _ source m pairs (c.invocation staged)
    exact hadopt ▸ quiet htree hstore hpoisoned

/-- What a move of a task keeps to be true of it holds of all tasks, whoever goes on. -/
theorem forall_tasks {P : NodeId → Stage τ → Prop}
    (keeps : ∀ {target c stage stage' c'}, p.advance step target c stage = some (stage', c') →
      P target stage → P target stage')
    (h : p.Move step workers a b) (start : ∀ task ∈ a.tasks, P task.1 task.2) :
    ∀ task ∈ b.tasks, P task.1 task.2 := by
  cases h with
  | @task c c' before after target stage stage' _ h =>
    rw [List.forall_mem_append, List.forall_mem_cons] at start ⊢
    exact ⟨start.1, keeps h start.2.1, start.2.2⟩

end Pass

/-! ## Whose error it is -/

/-- An error that a task has come to is that of its invocation. -/
def Stage.Blames (unit : String) (target : NodeId) : Stage τ → Prop
  | .recording _ _ ending | .signalling _ ending | .ended ending =>
    ∀ error ∈ ending.error?, ∃ source, error = .invocation unit target source
  | _ => True

namespace Ending

variable {endings : List (NodeId × Ending τ)}

omit [MarkerFamily τ] in
theorem failure?_from (endings : List (NodeId × Ending τ)) (failure : Option Error) :
    endings.foldl (fun failure task => task.2.error?.or failure) failure =
      (failure? endings).or failure := by
  induction endings generalizing failure with
  | nil => rfl
  | cons task endings ih =>
    rw [failure?, List.foldl_cons, List.foldl_cons, ih, ih (task.2.error?.or none), Option.or_assoc,
      Option.or_none]

omit [MarkerFamily τ] in
theorem failure?_cons (task : NodeId × Ending τ) (endings : List (NodeId × Ending τ)) :
    failure? (task :: endings) = (failure? endings).or task.2.error? := by
  rw [failure?, List.foldl_cons, Option.or_none]
  exact failure?_from endings _

omit [MarkerFamily τ] in
theorem exists_of_failure? {error : Error} (h : failure? endings = some error) :
    ∃ task ∈ endings, task.2.error? = some error := by
  induction endings with
  | nil => cases h
  | cons task endings ih =>
    rw [failure?_cons, Option.or_eq_some_iff] at h
    rcases h with h | ⟨-, h⟩
    · obtain ⟨task', htask, h⟩ := ih h
      exact ⟨task', List.mem_cons_of_mem _ htask, h⟩
    · exact ⟨task, List.mem_cons_self, h⟩

end Ending

namespace Pass

variable {p : Pass τ} {step : Step} {workers : Workers} {target : NodeId} {c c' : Common τ}
  {stage stage' : Stage τ} {round : Round τ} {targets : List NodeId} {expected : FactSet}
  {r r' : Run τ} {error : Error}

theorem advance_blames (h : p.advance step target c stage = some (stage', c'))
    (start : stage.Blames step.unit target) : stage'.Blames step.unit target := by
  cases advance_cases h with
  | taken | applies | spared | lockedOut | locked | entered | answered | cloneRefused | cloneBegun | copied
  | brokenOff | adopted | failing | crashed => trivial
  | cancelled | skipped | completed | failedLate =>
    intro error he
    cases he
  | failedFirst =>
    intro error he
    cases he
    exact ⟨_, rfl⟩
  | recorded | signalled => exact start

theorem moves_blame (h : ReflTransGen (p.Move step workers) (.start r targets) round) :
    ∀ task ∈ round.tasks, task.2.Blames step.unit task.1 := by
  induction h with
  | refl =>
    intro task htask
    obtain ⟨n, -, rfl⟩ := List.mem_map.1 htask
    trivial
  | tail _ hmove ih => exact forall_tasks advance_blames hmove ih

/-- A step fails of the error of one of its invocations. -/
theorem performs_failed (h : p.Performs workers step targets expected r (.error (.failed error)) r') :
    ∃ target source, error = .invocation step.unit target source := by
  generalize hanswer : Except.error (Stop.failed error) = answer at h
  cases h with
  | @closed c endings moves =>
    rw [closeStep] at hanswer
    split at hanswer
    · rename_i e hfailure
      cases hanswer
      obtain ⟨task, htask, herror⟩ := Ending.exists_of_failure? hfailure
      have blames := moves_blame moves (task.1, .ended task.2) (List.mem_map_of_mem htask)
      exact ⟨task.1, blames error herror⟩
    · cases hanswer
  | crashed => cases hanswer

end Pass

/-! ## Whole executions -/

variable {I : Session τ → Prop} {workers : Workers}

namespace Pass

variable {p : Pass τ} {step : Step} {a b : Round τ} {targets : List NodeId} {expected : FactSet}
  {r r' : Run τ} {answer : Except Stop StepReport}

theorem lasting_moves (hI : Session.Lasting I) (h : ReflTransGen (p.Move step workers) a b)
    (start : I a.common.run.session) : I b.common.run.session := by
  induction h with
  | refl => exact start
  | tail _ hmove ih =>
    cases hmove with
    | task _ h =>
      exact advance_session h ih (fun _ _ => hI.congr) (fun _ _ _ _ => hI.answer _ _ ih)
        fun _ _ _ _ _ => hI.copy ih

/-- What lasts holds after a step, however it was performed. -/
theorem lasting_performs (hI : Session.Lasting I) (h : p.Performs workers step targets expected r answer r')
    (start : I r.session) : I r'.session := by
  have announced : I (r.announce step targets.length).session := hI.congr start rfl rfl rfl
  cases h with
  | @closed c endings moves =>
    have moved : I c.run.session := lasting_moves hI moves announced
    have closed : I (endings.foldl (Session.close p.contract expected) c.run.session) := by
      clear moves
      generalize c.run.session = s at moved
      induction endings generalizing s with
      | nil => exact moved
      | cons task endings ih => exact ih _ (hI.close _ _ task moved)
    rw [closeStep]
    split
    · exact closed
    · exact hI.congr closed rfl rfl rfl
  | crashed moves => exact lasting_moves hI moves announced

end Pass

namespace Engine

variable {e : Engine τ} {steps : List Step} {st : Standing} {r r' : Run τ} {plan : Plan}
  {answer : Except Stop (List StepReport)} {error : Error}

theorem lasting_runsSteps (hI : Session.Lasting I) (h : e.RunsSteps workers steps st r answer r')
    (start : I r.session) : I r'.session := by
  induction h with
  | nil => exact start
  | unprepared => exact start
  | stopped _ hstep => exact Pass.lasting_performs hI hstep start
  | next _ hstep _ ih => exact ih (Pass.lasting_performs hI hstep start)

/-- A run of steps fails because one of them cannot be prepared, or of an invocation. -/
theorem runsSteps_failed (h : e.RunsSteps workers steps st r (.error (.failed error)) r') :
    (∃ step ∈ steps, ∃ s st, e.prepare s st step = .error error) ∨
      ∃ unit node source, error = .invocation unit node source := by
  generalize hanswer : Except.error (Stop.failed error) = answer at h
  induction h with
  | nil => cases hanswer
  | unprepared hprep =>
    cases hanswer
    exact .inl ⟨_, List.mem_cons_self, _, _, hprep⟩
  | stopped _ hstep =>
    cases hanswer
    obtain ⟨target, source, rfl⟩ := Pass.performs_failed hstep
    exact .inr ⟨_, _, _, rfl⟩
  | @next step steps st r r₁ r' p targets report answer _ _ _ ih =>
    cases answer with
    | ok reports => cases hanswer
    | error stop =>
      cases hanswer
      exact (ih rfl).imp_left fun ⟨step, hmem, hprep⟩ => ⟨step, List.mem_cons_of_mem _ hmem, hprep⟩

end Engine

end Trellis
