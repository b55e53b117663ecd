/-
  Trellis.Proofs.Execution.Solo — tasks that nobody comes between.

  A task by itself goes through the moves of its invocation (`Solo`) and ends as the invocation does
  (`solo_invoke`): a request is answered as if at once, a clone included, whose nodes are copied one by
  one from a tree that does not change meanwhile (`solo_copying`). So tasks taken in order, each when
  those before it have ended, get to where the invocations in order get to (`moves_inTurn`,
  `moves_crashed`).
-/
import Trellis.Proofs.Execution.InPlace
import Trellis.Proofs.Execution.Progress
import Trellis.Proofs.Execution.Reachable

namespace Trellis

variable {τ : Type} [MarkerFamily τ]

open Relation (ReflTransGen)

/-! ## One task by itself -/

/-- The task on `target` gets from one stage to another while nobody else does anything. -/
def Pass.Solo (p : Pass τ) (step : Step) (target : NodeId) : Stage τ × Common τ → Stage τ × Common τ → Prop :=
  ReflTransGen fun a b => p.advance step target a.2 a.1 = some b

namespace Pass

variable {p : Pass τ} {step : Step} {target : NodeId} {c : Common τ} {staged : Staged τ}
  {pairs left : List (NodeId × NodeId)} {source parent : NodeId}
  {next : Except Error NodeId → Work τ (Except Stop Unit)} {r : Run τ}

/-- Where a clone stands when some more of its nodes have been copied, or could not be. -/
def copied (staged : Staged τ) (source : NodeId) (pairs left : List (NodeId × NodeId))
    (next : Except Error NodeId → Work τ (Except Stop Unit)) :
    Except TreeError (List (NodeId × NodeId)) → Stage τ
  | .ok below => .copying staged source (pairs ++ below) left next
  | .error e => .working staged (next (.error (.tree e)))

theorem advance_copying {n copy : NodeId} {node : Node} {tree : Tree}
    (h : c.run.session.tree.copyNode n parent = .ok (node, copy, tree)) :
    p.advance step target c (.copying staged source pairs ((n, parent) :: left) next) =
      some (.copying staged source (pairs ++ [(n, copy)]) (node.children.map (·, copy) ++ left) next,
        c.withTree tree) := by
  simp only [advance, advanceClone, h]

/-- Copying nodes below `parent` first, and then what was left before. -/
theorem solo_copying {t u : Tree} {ns : List NodeId} {result : Except TreeError (List (NodeId × NodeId))}
    (h : Tree.Copying t ns parent result u) (hc : c.run.session.tree = t)
    (pairs left : List (NodeId × NodeId)) :
    p.Solo step target (.copying staged source pairs (ns.map (·, parent) ++ left) next, c)
      (copied staged source pairs left next result, c.withTree u) := by
  induction h generalizing c pairs left with
  | done =>
    subst hc
    rw [copied, List.append_nil]
    exact .refl
  | stopped hn =>
    subst hc
    refine .single ?_
    simp only [advance, List.map_cons, List.cons_append, advanceClone, hn]
    rfl
  | broken hn _ ihb =>
    subst hc
    exact .head (advance_copying hn) (ihb rfl _ _)
  | @copied _ _ v w n copy parent ns node below result hn _ _ ihb ihs =>
    subst hc
    refine .head (advance_copying hn) ((ihb rfl _ _).trans ?_)
    -- The nodes below are all copied; those beside are next.
    have rest : p.Solo step target (.copying staged source (pairs ++ [(n, copy)] ++ below)
        (ns.map (·, parent) ++ left) next, c.withTree v) (_, c.withTree w) := ihs rfl _ left
    cases result with
    | ok beside =>
      have hpairs : pairs ++ [(n, copy)] ++ below ++ beside = pairs ++ ((n, copy) :: (below ++ beside)) := by
        simp
      rwa [copied, hpairs] at rest
    | error e => exact rest

/-- The task gets an answer to a request and goes on. -/
def Replies (p : Pass τ) (step : Step) (target : NodeId) (staged : Staged τ) (c : Common τ)
    (r : Request τ) (next : r.Reply → Work τ (Except Stop Unit)) (reply : r.Reply × Invocation τ) : Prop :=
  p.Solo step target (.working staged (.ask r next), c)
    (.working reply.2.staged (next reply.1), c.update reply.2)

/-- A clone that nobody comes between is the one made at once. -/
theorem solo_clone (h : c.run.session.tree.WellFormed) (source parent : NodeId)
    (next : Except Error NodeId → Work τ (Except Stop Unit)) :
    Replies p step target staged c (.clone source parent) next
      (Request.answer ⟨step.unit, target, step.granularity⟩ (c.invocation staged) (.clone source parent)) := by
  let site : Site := ⟨step.unit, target, step.granularity⟩
  have began : p.advance step target c (.working staged (.ask (.clone source parent) next)) =
    some (beginClone site staged c source parent next) := rfl
  obtain ⟨reply, after, hd⟩ :=
    (c.invocation staged).exists_does (r := .clone source parent) trivial site h
  rw [hd.eq h]
  cases hd with
  | read hr => exact hr.elim
  | cloneRefused ho =>
    rw [beginClone, ho] at began
    exact .single began
  | cloneFailed ho hc =>
    rw [beginClone, ho] at began
    cases hc with
    | inside hin =>
      have hin : c.run.session.tree.isWithin parent source = true := hin
      simp only [hin, if_true] at began
      exact .single began
    | outside hout hc =>
      have hout : c.run.session.tree.isWithin parent source = false := hout
      simp only [hout, Bool.false_eq_true, if_false] at began
      exact .head began (solo_copying hc rfl [] [])
  | clone ho hc =>
    rw [beginClone, ho] at began
    cases hc with
    | outside hout hc =>
      have hout : c.run.session.tree.isWithin parent source = false := hout
      simp only [hout, Bool.false_eq_true, if_false] at began
      exact .head began ((solo_copying hc rfl [] []).tail rfl)

theorem solo_request (h : c.run.session.tree.WellFormed) (r : Request τ)
    (next : r.Reply → Work τ (Except Stop Unit)) :
    Replies p step target staged c r next
      (r.answer ⟨step.unit, target, step.granularity⟩ (c.invocation staged)) := by
  cases r with
  | clone source parent => exact solo_clone h source parent next
  | _ => exact .single rfl

/-- A body that nobody comes between runs as if at once. -/
theorem solo_work (h : c.run.session.Tidy) (w : Work τ (Except Stop Unit)) :
    p.Solo step target (.working staged w, c)
      (.working (w.run ⟨step.unit, target, step.granularity⟩ (c.invocation staged)).2.staged
        (.done (w.run ⟨step.unit, target, step.granularity⟩ (c.invocation staged)).1),
        c.update (w.run ⟨step.unit, target, step.granularity⟩ (c.invocation staged)).2) := by
  induction w generalizing c staged with
  | done result => exact .refl
  | ask r next ih =>
    have first : Replies p step target staged c r next _ := solo_request h.wellFormed r next
    have answered : (c.invocation staged).session.Tidy := h
    exact first.trans (ih _ (answered.answer _ r))

theorem solo_told {event : Event} {signal : Signal} {ending : Ending τ} :
    p.Solo step target (.recording event signal ending, c)
      (.ended ending, { c with run := (c.run.record event).signal signal }) :=
  .head (b := (.signalling signal ending, { c with run := c.run.record event })) rfl (.single rfl)

theorem solo_entering (h : r.session.appliesTo p target = true) :
    p.Solo step target (.waiting, ⟨r, false, false⟩) (.entering, ⟨r, false, false⟩) :=
  .head (b := (.taken, ⟨r, false, false⟩)) rfl (.single (by simp only [advance, h, if_true]))

/-- The body begins, with the lock if the step asks for it. -/
theorem solo_begun (happlies : r.session.appliesTo p target = true)
    (hlock : (step.exclusive && r.session.lockBroken) = false) :
    p.Solo step target (.waiting, ⟨r, false, false⟩)
      (.working .none (p.body ⟨step.unit, target, step.granularity⟩), ⟨r, false, step.exclusive⟩) := by
  refine (solo_entering happlies).tail ?_
  cases hx : step.exclusive with
  | false =>
    simp only [advance, hx, Bool.false_eq_true, if_false]
  | true =>
    rw [hx, Bool.true_and] at hlock
    simp only [advance, hx, hlock, Bool.false_eq_true, if_false, if_true]

/-- When a body is over its task gives the lock back, if it had it. -/
theorem solo_released {result : Except Stop Unit} {inv : Invocation τ} {stage : Stage τ} {r' : Run τ}
    (h : p.advance step target ((⟨r, false, step.exclusive⟩ : Common τ).update inv)
      (.working inv.staged (.done result)) =
      some (stage, ⟨r', false, step.exclusive && !step.exclusive⟩)) :
    p.Solo step target (.working inv.staged (.done result), (⟨r, false, step.exclusive⟩ : Common τ).update inv)
      (stage, ⟨r', false, false⟩) := by
  rw [Bool.and_not_self] at h
  exact .single h

/-- A task that nobody comes between gets to where its invocation gets to. -/
theorem solo_invoke (h : r.session.Tidy) :
    (∀ outcome r', p.invoke step r target = (.ok outcome, r') →
      p.Solo step target (.waiting, ⟨r, false, false⟩)
        (.ended (.outcome outcome), ⟨r', (Outcome.failure? [(target, outcome)]).isSome, false⟩)) ∧
    ∀ message r', p.invoke step r target = (.error message, r') →
      p.Solo step target (.waiting, ⟨r, false, false⟩) (.crashed message, ⟨r', false, false⟩) := by
  let site : Site := ⟨step.unit, target, step.granularity⟩
  cases happlies : r.session.appliesTo p target with
  | false =>
    rw [invoke, happlies, if_neg Bool.false_ne_true]
    refine ⟨fun outcome r' hinv => ?_, by simp⟩
    cases hinv
    have skipped : p.advance step target ⟨r, false, false⟩ .taken = some (.skipping, ⟨r, false, false⟩) := by
      simp only [advance, happlies, Bool.false_eq_true, if_false]
    exact .head (b := (.taken, ⟨r, false, false⟩)) rfl (.head skipped (.single rfl))
  | true =>
    rw [invoke, happlies, if_pos rfl, runBody]
    cases hbroken : step.exclusive && r.session.lockBroken with
    | true =>
      rw [Bool.and_eq_true] at hbroken
      have refused : p.advance step target ⟨r, false, false⟩ .entering =
          some (.failing .none .lockBroken, ⟨r, false, false⟩) := by
        simp only [advance, hbroken, if_true, Bool.false_eq_true, if_false]
      refine ⟨fun outcome r' hinv => ?_, by simp⟩
      cases hinv
      exact ((solo_entering happlies).tail refused).trans (.head rfl solo_told)
    | false =>
      have entered : (⟨r, false, step.exclusive⟩ : Common τ).run.session.Tidy := h
      have worked := (solo_begun happlies hbroken).trans (solo_work entered (p.body site))
      rcases hrun : (p.body site).run site ⟨r.session, .none, r.notes⟩ with ⟨result, inv⟩
      simp only [Common.invocation, site, hrun] at worked
      simp only [Bool.false_eq_true, if_false, site, hrun]
      rcases result with (cause | message) | _
      · refine ⟨fun outcome r' hinv => ?_, by simp⟩
        cases hinv
        exact (worked.trans (solo_released rfl)).trans (.head rfl solo_told)
      · refine ⟨by simp, fun message' r' hinv => ?_⟩
        cases hinv
        exact worked.trans (solo_released rfl)
      · refine ⟨fun outcome r' hinv => ?_, by simp⟩
        cases hinv
        exact (worked.trans (solo_released rfl)).trans solo_told

end Pass

/-! ## All tasks, in order -/

namespace Pass

variable {p : Pass τ} {step : Step} {target : NodeId} {targets : List NodeId} {c c' : Common τ}
  {r r' : Run τ} {outcomes : List (NodeId × Outcome τ)} {workers : Workers}

/-- What a task can do by itself it can do in a round. -/
theorem moves_of_solo {before : List (NodeId × Stage τ)} {stage stage' : Stage τ}
    (hw : workers.admit before) (after : List (NodeId × Stage τ))
    (h : p.Solo step target (stage, c) (stage', c')) :
    ReflTransGen (p.Move step workers) ⟨c, before ++ (target, stage) :: after⟩
      ⟨c', before ++ (target, stage') :: after⟩ :=
  h.lift (fun at_ : Stage τ × Common τ => (⟨at_.2, before ++ (target, at_.1) :: after⟩ : Round τ))
    fun _ _ hmove => .task hw hmove

theorem admit_stages (endings : List (NodeId × Ending τ)) : Workers.one.admit (Ending.stages endings) := by
  intro task htask
  obtain ⟨ending, -, rfl⟩ := List.mem_map.1 htask
  exact ⟨ending.2, rfl⟩

/-- The first of the tasks that wait, with those before it over, gets to where it gets by itself. -/
theorem moves_next {before : List (NodeId × Ending τ)} {n : NodeId} {ending : Ending τ}
    (h : p.Solo step n (.waiting, c) (.ended ending, c')) (nodes : List NodeId) :
    ReflTransGen (p.Move step .one) ⟨c, Ending.stages before ++ (n :: nodes).map (·, .waiting)⟩
      ⟨c', Ending.stages (before ++ [(n, ending)]) ++ nodes.map (·, .waiting)⟩ := by
  simpa [Ending.stages] using moves_of_solo (admit_stages before) (nodes.map (·, .waiting)) h

/-- After a failure the tasks that are left are cancelled. -/
theorem moves_cancelled (before : List (NodeId × Ending τ)) (hc : c.cancelled = true)
    (nodes : List NodeId) :
    ReflTransGen (p.Move step .one) ⟨c, Ending.stages before ++ nodes.map (·, .waiting)⟩
      ⟨c, Ending.stages (before ++ nodes.map (·, .cancelled))⟩ := by
  induction nodes generalizing before with
  | nil =>
    rw [List.map_nil, List.map_nil, List.append_nil, List.append_nil]
  | cons n nodes ih =>
    have first : p.Solo step n (.waiting, c) (.ended .cancelled, c) :=
      .single (by simp only [advance, hc, if_true])
    have rest := ih (before ++ [(n, .cancelled)])
    rw [List.append_assoc] at rest
    exact (moves_next first nodes).trans rest

/-- The endings of tasks taken in order: what the invocations came to, and after a failure nothing. -/
def endings (outcomes : List (NodeId × Outcome τ)) (rest : List NodeId) : List (NodeId × Ending τ) :=
  outcomes.map (fun o => (o.1, .outcome o.2)) ++ rest.map (·, .cancelled)

/-- Tasks taken in order get to where the invocations get to. -/
theorem moves_inTurn (h : p.InTurn step targets r outcomes r') (hr : r.session.Tidy)
    (before : List (NodeId × Ending τ)) :
    ∃ rest, targets = outcomes.map Prod.fst ++ rest ∧
      ReflTransGen (p.Move step .one) ⟨⟨r, false, false⟩, Ending.stages before ++ targets.map (·, .waiting)⟩
        ⟨⟨r', (Outcome.failure? outcomes).isSome, false⟩, Ending.stages (before ++ endings outcomes rest)⟩ := by
  induction h generalizing before with
  | nil r =>
    refine ⟨[], rfl, ?_⟩
    rw [endings, List.map_nil, List.map_nil, List.append_nil, List.map_nil, List.append_nil,
      List.append_nil]
    exact .refl
  | @failed n nodes r r' staged error hinv =>
    refine ⟨nodes, rfl, (moves_next ((solo_invoke hr).1 _ _ hinv) nodes).trans ?_⟩
    have failed : (⟨r', true, false⟩ : Common τ).cancelled = true := rfl
    have rest : ReflTransGen (p.Move step .one) _ _ :=
      moves_cancelled (before ++ [(n, .outcome (.failed staged error))]) failed nodes
    rwa [List.append_assoc] at rest
  | @next n nodes r r₁ r' outcome outcomes hne hinv _ ih =>
    have hr₁ : r₁.session.Tidy := by
      have := hr.invoke p step n
      rwa [hinv] at this
    obtain ⟨rest, rfl, hmoves⟩ := ih hr₁ (before ++ [(n, .outcome outcome)])
    refine ⟨rest, rfl, (moves_next ((solo_invoke hr).1 _ _ hinv) _).trans ?_⟩
    have hnone : (Outcome.failure? [(n, outcome)]).isSome = false := by
      rw [Outcome.failure?_cons hne]
      rfl
    rw [hnone, Outcome.failure?_cons hne]
    rwa [List.append_assoc] at hmoves

/-- So they do if an invocation crashes: those after it do not begin. -/
theorem moves_crashed {message : String} (h : p.invokeAll step targets r = (.error message, r'))
    (hr : r.session.Tidy) (before : List (NodeId × Ending τ)) :
    ∃ (done : List (NodeId × Ending τ)) (n : NodeId) (rest : List NodeId),
      ReflTransGen (p.Move step .one) ⟨⟨r, false, false⟩, Ending.stages before ++ targets.map (·, .waiting)⟩
        ⟨⟨r', false, false⟩, Ending.stages (before ++ done) ++ (n, .crashed message) :: rest.map (·, .waiting)⟩ := by
  induction targets generalizing r before with
  | nil => cases h
  | cons n nodes ih =>
    rw [invokeAll] at h
    split at h
    · rename_i hinv
      cases h
      refine ⟨[], n, nodes, ?_⟩
      rw [List.append_nil]
      exact moves_of_solo (admit_stages before) _ ((solo_invoke hr).2 _ _ hinv)
    · cases h
    · rename_i outcome r₁ hne hinv
      have hr₁ : r₁.session.Tidy := by
        have := hr.invoke p step n
        rwa [hinv] at this
      have hrest : p.invokeAll step nodes r₁ = (.error message, r') := by
        split at h
        · cases h
        · rename_i hrest
          cases h
          exact hrest
      obtain ⟨done, m, rest, hmoves⟩ := ih hrest hr₁ (before ++ [(n, .outcome outcome)])
      refine ⟨(n, .outcome outcome) :: done, m, rest, (moves_next ((solo_invoke hr).1 _ _ hinv) nodes).trans ?_⟩
      have hnone : (Outcome.failure? [(n, outcome)]).isSome = false := by
        rw [Outcome.failure?_cons fun staged e => by simpa using hne staged e]
        rfl
      rw [hnone]
      rwa [List.append_assoc] at hmoves

end Pass

end Trellis
