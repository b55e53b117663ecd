/-
  Trellis.Proofs.Execution.Schedules — which task goes on, move by move.

  A schedule names the tasks of a step by their places, in the order in which they go on. Played from
  where a step starts it leads to one of the rounds that many workers can come to, and each of these has
  a schedule (`moves_many_iff`). So what a step can come to may be computed (`performs_of_perform`).

  The instance is a race between the two types of a package. One copies a method of the other, which
  takes out the statement in it when the method is copied and the statement is not. The clone fails;
  the copy of the method stays in the tree, and neither task knows of it (`race`). With one worker
  that cannot be (`Proofs/Execution/Alone`).
-/
import Trellis.Marker.Stock
import Trellis.Proofs.Execution.Isolation
import Trellis.Proofs.Planner.Safety
import Trellis.Schedule

namespace Trellis

open Relation (ReflTransGen)

variable {τ : Type} [MarkerFamily τ]

namespace Pass

variable (p : Pass τ) (step : Step)

/-- The task at a place goes on, if it can. -/
def turn (round : Round τ) (i : Nat) : Option (Round τ) :=
  match round.tasks[i]? with
  | some (target, stage) => (p.advance step target round.common stage).map fun moved =>
      ⟨moved.2, round.tasks.set i (target, moved.1)⟩
  | none => none

/-- The tasks go on by a schedule. -/
def play : Round τ → List Nat → Option (Round τ)
  | round, [] => some round
  | round, i :: schedule => (p.turn step round i).bind (play · schedule)

/-- What has become of a task that has ended. -/
def ending? : NodeId × Stage τ → Option (NodeId × Ending τ)
  | (n, .ended ending) => some (n, ending)
  | _ => none

/-- Performs a step by a schedule that brings all its tasks to their end. -/
def perform (schedule : List Nat) (targets : List NodeId) (expected : FactSet) (r : Run τ) :
    Option (Except Stop StepReport × Run τ) := do
  let round ← p.play step (.start (r.announce step targets.length) targets) schedule
  let endings ← round.tasks.mapM ending?
  return p.closeStep step expected endings round.common.run

variable {p step} {a b : Round τ} {targets : List NodeId} {expected : FactSet} {r r' : Run τ}
  {schedule : List Nat} {answer : Except Stop StepReport}

theorem turn_iff : (∃ i, p.turn step a i = some b) ↔ p.Move step .many a b := by
  constructor
  · rintro ⟨i, h⟩
    unfold turn at h
    split at h
    · rename_i target stage hi
      obtain ⟨⟨stage', c'⟩, hmove, rfl⟩ := Option.map_eq_some_iff.1 h
      obtain ⟨hlt, hget⟩ := List.getElem?_eq_some_iff.1 hi
      have tasks : a.tasks = a.tasks.take i ++ (target, stage) :: a.tasks.drop (i + 1) := by
        rw [← hget, List.getElem_cons_drop, List.take_append_drop]
      have moved : Move p step .many ⟨a.common, a.tasks.take i ++ (target, stage) :: a.tasks.drop (i + 1)⟩ _ :=
        .task trivial hmove
      rw [← tasks] at moved
      rwa [List.set_eq_take_append_cons_drop, if_pos hlt]
    · cases h
  · rintro ⟨-, h⟩
    rename_i before after target stage stage'
    refine ⟨before.length, ?_⟩
    rw [turn, List.getElem?_append_right (Nat.le_refl _), Nat.sub_self, List.getElem?_cons_zero]
    simp only [h, Option.map_some, List.set_append_right _ _ (Nat.le_refl _), Nat.sub_self, List.set_cons_zero]

/-- Schedules lead to where many workers can come to, and nowhere else. -/
theorem moves_many_iff : ReflTransGen (p.Move step .many) a b ↔ ∃ schedule, p.play step a schedule = some b := by
  constructor
  · intro h
    induction h using ReflTransGen.head_induction_on with
    | refl => exact ⟨[], rfl⟩
    | head hmove _ ih =>
      obtain ⟨i, hi⟩ := turn_iff.2 hmove
      obtain ⟨schedule, hplay⟩ := ih
      exact ⟨i :: schedule, by rw [play, hi, Option.bind_some, hplay]⟩
  · rintro ⟨schedule, h⟩
    induction schedule generalizing a with
    | nil =>
      cases h
      exact .refl
    | cons i schedule ih =>
      obtain ⟨next, hi, hplay⟩ := Option.bind_eq_some_iff.1 h
      exact .head (turn_iff.1 ⟨i, hi⟩) (ih hplay)

theorem stages_of_endings {tasks : List (NodeId × Stage τ)} {endings : List (NodeId × Ending τ)}
    (h : tasks.mapM ending? = some endings) : tasks = Ending.stages endings := by
  induction tasks generalizing endings with
  | nil =>
    cases h
    rfl
  | cons task tasks ih =>
    rw [List.mapM_cons] at h
    obtain ⟨ending, hending, h⟩ := Option.bind_eq_some_iff.1 h
    obtain ⟨rest, hrest, h⟩ := Option.bind_eq_some_iff.1 h
    cases h
    rw [ih hrest]
    rcases task with ⟨n, stage⟩
    cases stage with
    | ended ending' =>
      cases hending
      rfl
    | _ => cases hending

theorem performs_of_perform (h : p.perform step schedule targets expected r = some (answer, r')) :
    p.Performs .many step targets expected r answer r' := by
  obtain ⟨round, hplay, h⟩ := Option.bind_eq_some_iff.1 h
  obtain ⟨endings, hendings, h⟩ := Option.bind_eq_some_iff.1 h
  have moves := moves_many_iff.2 ⟨schedule, hplay⟩
  have ended : round = ⟨round.common, Ending.stages endings⟩ := by
    rw [← stages_of_endings hendings]
  rw [ended] at moves
  have performed : p.Performs .many step targets expected r _ _ := .closed moves
  rwa [Option.some.inj h] at performed

end Pass

/-! ## An instance -/

open Planner (raw)

/-- A package with two types, and in one of them a method with a statement. -/
def Tree.pair : Tree where
  whole := .node 0 .program "app" (.node 1 .package "core"
    (.node 2 .type "A" (.node 3 .method "f" (.node 5 .statement "return" .empty .empty) .empty)
      (.node 4 .type "B" .empty .empty)) .empty) .empty
  next := 6

theorem Tree.built_pair : Tree.pair.Built := by
  have package := Built.edit (.new "app") (.add (show (Tree.new "app").add 0 .package "core" = .ok (1, _) from rfl))
  have first := package.edit (.add (show Tree.add _ 1 .type "A" = .ok (2, _) from rfl))
  have method := first.edit (.add (show Tree.add _ 2 .method "f" = .ok (3, _) from rfl))
  have second := method.edit (.add (show Tree.add _ 1 .type "B" = .ok (4, _) from rfl))
  exact second.edit (.add (show Tree.add _ 3 .statement "return" = .ok (5, Tree.pair) from rfl))

/-- The same when the statement has been taken out and the method copied into the other type. -/
def Tree.torn : Tree where
  whole := .node 0 .program "app" (.node 1 .package "core"
    (.node 2 .type "A" (.node 3 .method "f" .empty .empty)
      (.node 4 .type "B" (.node 6 .method "f" .empty .empty) .empty)) .empty) .empty
  next := 7

def swept : Tag := ⟨"swept", .type⟩

def sweep : Contract where
  name := "sweep"
  description := ""
  granularity := .type
  needs := ∅
  adds := Sorted.ofList [.tag swept]
  removes := ∅
  features := ∅
  uses := ∅
  exclusive := false
  orderHint := 0

/-- The first type takes out the statement of its method, and the second copies the method, whether it can
    or not. -/
def Pass.sweeping : Pass StockMarker where
  contract := sweep
  filter? := none
  body site :=
    if site.target = 2 then .ask (.remove 5) fun _ => .done (.ok ())
    else .ask (.clone 3 site.target) fun _ => .done (.ok ())

theorem Pass.proper_sweeping : Pass.sweeping.Proper := by
  intro site
  show (if site.target = 2 then _ else _ : Work StockMarker (Except Stop Unit)).Proper
  split
  · exact ⟨trivial, fun _ => trivial⟩
  · exact ⟨trivial, fun _ => trivial⟩

/-- A plan for a session whose methods are raw. -/
def sweeps : Plan :=
  ⟨.facts (Sorted.ofList [.tag swept]), Sorted.ofList [raw], [.ofContract sweep],
    Sorted.ofList [raw, .tag swept], []⟩

def unswept : Run StockMarker := Engine.opening sweeps (.new Tree.pair ∅)

/-- The second type goes on until it has copied the method, then the first to its end. -/
def race : List Nat := [1, 1, 1, 1, 1, 0, 0, 0, 0, 0, 0, 0, 1, 1, 1, 1]

/-- Neither invocation fails and none has created a node, and there is a new one, of which nothing is
    known. -/
theorem sweeping_races : ∃ r, Pass.sweeping.Performs .many (.ofContract sweep) [2, 4] (Sorted.ofList [raw])
      unswept (.ok ⟨"sweep", .type, 2, 2, 0, 0, 1⟩) r ∧
    r.session.tree = Tree.torn ∧ Store.lookup r.session.store 6 = none := by
  obtain ⟨r, hplay, htree, hstore⟩ : ∃ r,
      Pass.sweeping.perform (.ofContract sweep) race [2, 4] (Sorted.ofList [raw]) unswept =
        some (.ok ⟨"sweep", .type, 2, 2, 0, 0, 1⟩, r) ∧
      r.session.tree = Tree.torn ∧ Store.lookup r.session.store 6 = none := ⟨_, rfl, rfl, rfl⟩
  exact ⟨r, Pass.performs_of_perform hplay, htree, hstore⟩

end Trellis
