/-
  Trellis.Proofs.Execution.Refinement — a run shows what the plan has computed.

  A session shows some facts if every node carries exactly the tags among them that are for its
  kind. Seeding makes a session whose nodes carry no tags show the initial facts, and each step
  of a plan that succeeds leads from the facts before it to the facts after it
  (`Agrees.runStep`): its targets cover every node its effects are about, and nodes it makes are
  given what the others of their kind have.

  - `execution_shows_plan`: so after the seeding and after every committed step of a plan the
    session shows the facts that the plan has come to, and in the end those of the goal.

  All this is with one worker. With many a clone that is broken off leaves nodes that no invocation
  answers for, and the session may show less (`raced_execution_shows_less`).
-/
import Trellis.Marker.Stock
import Trellis.Proofs.Execution.Reachable
import Trellis.Proofs.Execution.Schedules
import Trellis.Proofs.Execution.Step
import Trellis.Proofs.Planner.Soundness
import Trellis.Proofs.Tree.Targets

namespace Trellis

open Planner Trellis.Tree

variable {τ : Type} [MarkerFamily τ]

/-- After a step on the nodes of its granularity, whatever carries a tag in its contract's reach is
    below one of them. -/
theorem Pass.covers_runStep {r r' : Run τ} {p : Pass τ} {step : Step} {targets : List NodeId}
    {expected : FactSet} {report : StepReport} {q : Place} {u : Tag} (hp : p.Confined)
    (hwf : r.session.tree.WellFormed)
    (ht : AdapterSet.standard.expandRoot r.session.tree p.contract.granularity = .ok targets)
    (he : p.runStep step targets expected r = (.ok report, r')) (hq : q ∈ r'.session.tree.places)
    (hreach : p.contract.inReach (.tag u) = true) (hk : u.scope = q.kind) :
    ∃ t ∈ targets, q.Within t := by
  rcases Pass.mem_places_runStep hp hwf he hq with ⟨-, hold⟩ | ⟨-, hnew⟩
  · obtain ⟨targets', ht', hmem⟩ := hwf.mem_expandRoot_standard p.contract.granularity
    cases ht.symm.trans ht'
    have hencl : p.contract.granularity.encloses q.kind = true := hk ▸ hreach
    obtain ⟨top, htop, hk, hw⟩ := hwf.exists_target hold hencl
    exact ⟨top.id, (hmem _).2 ⟨top, htop, rfl, hk⟩, hw⟩
  · exact hnew

namespace Session

/-- Every node carries exactly those of the tags that are for its kind. -/
def Shows (s : Session τ) (facts : FactSet) : Prop :=
  ∀ n k, s.tree.kind? n = some k →
    ∀ u, u ∈ Store.tags s.store n ↔ u.scope = k ∧ Fact.tag u ∈ facts

/-- The invariant of a run: the session is tidy, and shows the facts. -/
structure Agrees (s : Session τ) (facts : FactSet) : Prop where
  tidy : s.Tidy
  shows : ∀ q ∈ s.tree.places, ∀ u,
    u ∈ Store.tags s.store q.id ↔ u.scope = q.kind ∧ Fact.tag u ∈ facts

variable {s s' : Session τ} {facts initial : FactSet}

theorem Agrees.shows_facts (h : s.Agrees facts) : s.Shows facts := by
  intro n k hk
  obtain ⟨q, hq, rfl, rfl⟩ := h.tidy.wellFormed.kind?_eq_some.1 hk
  exact h.shows q hq

theorem Agrees.congr (h : s.Agrees facts) (htree : s'.tree = s.tree) (hstore : s'.store = s.store) :
    s'.Agrees facts where
  tidy := h.tidy.congr htree fun n => by rw [hstore]
  shows := by
    rw [htree, hstore]
    exact h.shows

/-- Seeding a session whose nodes carry no tags. -/
theorem agrees_seed (h : s.Tidy) (hbare : ∀ n, s.tree.contains n = true → Store.tags s.store n = ∅) :
    (s.seed initial).Agrees initial where
  tidy := h.seed initial
  shows q hq u := by
    have hnone : u ∉ Store.tags s.store q.id := by
      rw [hbare q.id (h.wellFormed.contains_of_mem hq)]
      exact Sorted.not_mem_empty u
    rw [seed, mem_tags_foldl_tagAll, FactSet.mem_tags, h.wellFormed.mem_nodesOfKind]
    constructor
    · intro hu
      obtain ⟨hf, q', hq', hid, hk⟩ := hu.resolve_right hnone
      rw [h.wellFormed.eq_of_id_eq hq' hq hid] at hk
      exact ⟨hk.symm, hf⟩
    · exact fun hu => .inl ⟨hu.2, q, hq, rfl, hu.1.symm⟩

/-- A step of a valid contract, on the nodes of its granularity, leads to the facts after it. -/
theorem Agrees.runStep {r r' : Run τ} {p : Pass τ} {step : Step} {targets : List NodeId}
    {report : StepReport} (h : r.session.Agrees facts) (hp : p.Confined) (hv : p.contract.Valid)
    (ht : AdapterSet.standard.expandRoot r.session.tree p.contract.granularity = .ok targets)
    (he : p.runStep step targets facts r = (.ok report, r')) :
    r'.session.Agrees (facts.apply p.contract.adds p.contract.removes) where
  tidy := by
    have kept := h.tidy.runStep p step targets facts
    rwa [he] at kept
  shows q hq u := by
    have hwf := h.tidy.wellFormed
    have base : (r.session.tree.next ≤ q.id ∧ u.scope = q.kind ∧ Fact.tag u ∈ facts ∨
        u ∈ Store.tags r.session.store q.id) ↔ u.scope = q.kind ∧ Fact.tag u ∈ facts := by
      rcases Pass.mem_places_runStep hp hwf he hq with ⟨hlt, hold⟩ | ⟨hle, -⟩
      · have hnot : ¬ r.session.tree.next ≤ q.id := Nat.not_le.2 hlt
        rw [h.shows q hold]
        simp [hnot]
      · have := h.tidy.fresh q.id hle u
        simp [hle, this]
    rw [Pass.mem_tags_runStep hp hv hwf he hq, base, FactSet.mem_apply]
    have hadd := fun hf => Pass.covers_runStep hp hwf ht he hq (hv.adds_inReach (.tag u) hf)
    have hrem := fun hf => Pass.covers_runStep hp hwf ht he hq (hv.removes_inReach (.tag u) hf)
    grind

end Session

/-! ## Runs -/

namespace Engine

variable {e : Engine τ} {crew : Crew τ} {step : Step} {steps done rest : List Step} {st : Standing}
  {r r' : Run τ} {s : Session τ} {p : Pass τ} {targets : List NodeId} {reports : List StepReport}

theorem prepare_ok (h : e.prepare s st step = .ok (p, targets)) :
    e.crew.find? step.unit = some p ∧ e.adapters.expandRoot s.tree step.granularity = .ok targets := by
  unfold prepare at h
  split at h
  · cases h
  · rename_i p' hfind
    obtain ⟨targets', hexpand, h⟩ := bind_eq_ok.1 h
    split at h
    · obtain ⟨_, -, h⟩ := bind_eq_ok.1 h
      cases h
      exact ⟨hfind, hexpand⟩
    · cases h
      exact ⟨hfind, hexpand⟩

theorem runSteps_cons_ok (h : e.runSteps (step :: steps) st r = (.ok reports, r')) :
    ∃ p targets report r₁ more, e.prepare r.session st step = .ok (p, targets) ∧
      p.runStep step targets st.expected r = (.ok report, r₁) ∧
      e.runSteps steps (st.after p.contract) r₁ = (.ok more, r') ∧ reports = report :: more := by
  rw [runSteps] at h
  split at h
  · cases h
  · rename_i p targets hprep
    split at h
    · cases h
    · rename_i report r₁ hstep
      split at h
      · rename_i more r₂ hrest
        cases h
        exact ⟨p, targets, report, r₁, more, hprep, hstep, hrest, rfl⟩
      · cases h

/-- A run of more steps begins like the run of the first of them, and goes on from there. -/
theorem runSteps_append (h : e.runSteps done st r = (.ok reports, r')) (rest : List Step) :
    ∃ st', e.runSteps (done ++ rest) st r =
      ((e.runSteps rest st' r').1.map (reports ++ ·), (e.runSteps rest st' r').2) := by
  induction done generalizing st r reports with
  | nil =>
    obtain ⟨rfl, rfl⟩ : reports = [] ∧ r' = r := by
      cases h
      exact ⟨rfl, rfl⟩
    refine ⟨st, ?_⟩
    rw [List.nil_append]
    generalize e.runSteps rest st r' = result
    rcases result with ⟨_ | reports, r'⟩
    · rfl
    · rfl
  | cons step done ih =>
    obtain ⟨p, targets, report, r₁, more, hprep, hstep, hrest, rfl⟩ := runSteps_cons_ok h
    obtain ⟨st', hst'⟩ := ih hrest
    refine ⟨st', ?_⟩
    rw [List.cons_append, runSteps_of_ok hprep hstep, hst']
    generalize e.runSteps rest st' r' = result
    rcases result with ⟨_ | reports, r'⟩
    · rfl
    · rfl

/-- The contract of a crew's pass is found under its name. -/
theorem find?_of_mem_catalog {c : Contract} (hc : c ∈ crew.catalog) (hp : crew.find? c.name = some p) :
    p ∈ crew ∧ p.contract = c := by
  obtain ⟨hmem, hname⟩ := Sorted.find?_eq_some.1 hp
  have hcat : p.contract ∈ crew.catalog := List.mem_map.2 ⟨p, hmem, rfl⟩
  exact ⟨hmem, Sorted.eq_of_key_eq hcat hc hname⟩

/-- What a run of steps preserves: it shows the facts that the contracts lead to. -/
theorem agrees_runSteps {order : List Contract} (he : e.adapters = AdapterSet.standard)
    (hcat : ∀ c ∈ order, c ∈ e.crew.catalog) (hvalid : ∀ p ∈ e.crew, p.contract.Valid)
    (hconfined : ∀ p ∈ e.crew, p.Confined) (h : r.session.Agrees st.expected)
    (hrun : e.runSteps (order.map Step.ofContract) st r = (.ok reports, r')) :
    r'.session.Agrees (enact st.expected order) := by
  induction order generalizing st r reports with
  | nil =>
    cases hrun
    exact h
  | cons c order ih =>
    obtain ⟨hc, horder⟩ := List.forall_mem_cons.1 hcat
    obtain ⟨p, targets, report, r₁, more, hprep, hstep, hrest, -⟩ := runSteps_cons_ok hrun
    obtain ⟨hfind, hexpand⟩ := prepare_ok hprep
    obtain ⟨hp, hpc⟩ := find?_of_mem_catalog hc hfind
    rw [he] at hexpand
    have hgran : (Step.ofContract c).granularity = p.contract.granularity := by
      rw [hpc]
      rfl
    rw [hgran] at hexpand
    have hafter : r₁.session.Agrees (st.after p.contract).expected :=
      h.runStep (hconfined p hp) (hvalid p hp) hexpand hstep
    have := ih horder hafter hrest
    rw [Standing.after, hpc] at this
    exact this

theorem runPlan_eq (plan : Plan) (s : Session τ) :
    e.runPlan plan s = e.runSteps plan.steps (.ofInitial plan.initial) (opening plan s) := rfl

theorem execute_ok {plan : Plan} (h : e.execute plan s = (.ok reports, r)) :
    e.runPlan plan s = (.ok reports, r) := by
  unfold execute at h
  split at h
  · cases h
  · split at h
    · cases h
    · exact h

/-- Recording warnings touches neither the tree nor the store. -/
theorem opening_session (plan : Plan) (s : Session τ) :
    (opening plan s).session.tree = s.tree ∧
      (opening plan s).session.store = (s.seed plan.initial).store := by
  have recorded (os : List Omission) (s : Session τ) :
      (os.foldl (fun s o => s.record (.remark .planWarning o.text)) s).tree = s.tree ∧
        (os.foldl (fun s o => s.record (.remark .planWarning o.text)) s).store = s.store := by
    induction os generalizing s with
    | nil => exact ⟨rfl, rfl⟩
    | cons o os ih =>
      rw [List.foldl_cons, (ih _).1, (ih _).2]
      exact ⟨rfl, rfl⟩
  exact recorded plan.omissions (s.seed plan.initial)

theorem agrees_opening {plan : Plan} (h : s.Tidy)
    (hbare : ∀ n, s.tree.contains n = true → Store.tags s.store n = ∅) :
    (opening plan s).session.Agrees plan.initial := by
  have seeded : (s.seed plan.initial).Agrees plan.initial := Session.agrees_seed h hbare
  exact seeded.congr (opening_session plan s).1 (opening_session plan s).2

end Engine

/-! ## Plans -/

namespace Crew

variable {crew crew' : Crew τ}

theorem valid_of_register {p : Pass τ} (h : crew.register p = .ok crew')
    (hv : ∀ q ∈ crew, q.contract.Valid) : ∀ q ∈ crew', q.contract.Valid := by
  obtain ⟨catalog, hreg, h⟩ := bind_eq_ok.1 h
  obtain ⟨c, hcheck, -⟩ := bind_eq_ok.1 hreg
  cases h
  intro q hq
  rcases Sorted.mem_insert.1 hq with rfl | ⟨hq, -⟩
  · exact (Contract.check_eq_ok.1 hcheck).2
  · exact hv q hq

/-- Registration sees to it that the contracts of a crew are valid. -/
theorem valid_of_registerAll {ps : List (Pass τ)} (h : crew.registerAll ps = .ok crew')
    (hv : ∀ q ∈ crew, q.contract.Valid) : ∀ q ∈ crew', q.contract.Valid := by
  induction ps generalizing crew with
  | nil =>
    cases h
    exact hv
  | cons p ps ih =>
    obtain ⟨next, hreg, h⟩ := bind_eq_ok.1 h
    exact ih h (valid_of_register hreg hv)

end Crew

open Engine in
/-- Execute a plan for the catalog of a crew of valid contracts and confined bodies, with one worker and
    on a session whose nodes carry no tags. After the first `k` steps are committed, for every `k`, the session shows what
    the plan has come to, and the execution goes on from there. An execution that succeeds shows
    the final facts, so every tag of the goal is on every node of its scope. -/
theorem execution_shows_plan (crew : Crew τ) (features : Features) (config : Config)
    (initial : FactSet) (goal : Goal) (q : Plan) (verify : Bool) (s : Session τ)
    (hplan : plan crew.catalog features config initial goal = .ok q)
    (hvalid : ∀ p ∈ crew, p.contract.Valid) (hconfined : ∀ p ∈ crew, p.Confined)
    (hs : s.Reachable) (hbare : ∀ n, s.tree.contains n = true → Store.tags s.store n = ∅) :
    let e : Engine τ := ⟨crew, AdapterSet.standard, verify⟩
    (∀ k reports r, e.runSteps (q.steps.take k) (.ofInitial initial) (opening q s) = (.ok reports, r) →
      r.session.Shows (q.stateAfter crew.catalog k) ∧
      ∃ st, e.runPlan q s = ((e.runSteps (q.steps.drop k) st r).1.map (reports ++ ·),
        (e.runSteps (q.steps.drop k) st r).2)) ∧
    ∀ reports r, e.execute q s = (.ok reports, r) →
      r.session.Shows q.final ∧
      ∀ tag, Fact.tag tag ∈ goal.required → ∀ n, r.session.tree.kind? n = some tag.scope →
        Store.hasTag r.session.store n tag = true := by
  intro e
  obtain ⟨-, rfl, hgoal, order, hq⟩ := carries_of_plan hplan
  have begun : (opening q s).session.Agrees q.initial := agrees_opening hs.tidy hbare
  have prefixes {k : Nat} {reports : List StepReport} {r : Run τ}
      (h : e.runSteps (q.steps.take k) (.ofInitial q.initial) (opening q s) = (.ok reports, r)) :
      r.session.Shows (q.stateAfter crew.catalog k) := by
    rw [hq.steps, ← List.map_take] at h
    rw [Plan.stateAfter_eq hq.steps hq.mem_cat]
    refine Session.Agrees.shows_facts (agrees_runSteps rfl ?_ hvalid hconfined begun h)
    exact fun c hc => hq.mem_cat c (List.mem_of_mem_take hc)
  refine ⟨?_, ?_⟩
  · intro k reports r h
    obtain ⟨st, hst⟩ := runSteps_append h (q.steps.drop k)
    rw [List.take_append_drop] at hst
    exact ⟨prefixes h, st, hst⟩
  · intro reports r h
    have hrun := execute_ok h
    rw [runPlan_eq, ← List.take_length (l := q.steps)] at hrun
    have shows := prefixes hrun
    rw [Plan.stateAfter_eq hq.steps hq.mem_cat, hq.steps, List.length_map, List.take_length,
      ← hq.final] at shows
    refine ⟨shows, fun tag htag n hn => ?_⟩
    exact decide_eq_true ((shows n tag.scope hn tag).2 ⟨rfl, hgoal _ htag⟩)

/-! ## An instance

`lowering` makes a method below its target, which is to carry what the methods there carry;
`counting` is filtered out everywhere. -/

namespace Pass

def lowering : Pass StockMarker where
  contract := lower
  filter? := none
  body site := .ask (.add site.target .method "lowered") fun _ => .done (.ok ())

def counting : Pass StockMarker where
  contract := count
  filter? := some fun _ => false
  body := idle

end Pass

namespace Tree

/-- A package with one type, and in it one method. -/
def sample : Tree where
  whole := .node 0 .program "app" (.node 1 .package "core"
    (.node 2 .type "A" (.node 3 .method "f" .empty .empty) .empty) .empty) .empty
  next := 4

theorem built_sample : sample.Built := by
  have package := Built.edit (.new "app") (.add (show (Tree.new "app").add 0 .package "core" = .ok (1, _) from rfl))
  have type := package.edit (.add (show Tree.add _ 1 .type "A" = .ok (2, _) from rfl))
  exact type.edit (.add (show Tree.add _ 2 .method "f" = .ok (3, sample) from rfl))

end Tree

theorem execution_shows_plan_lowering : ∃ (e : Engine StockMarker) (q : Plan) (reports : List StepReport)
    (r : Run StockMarker), e.execute q (Session.new Tree.sample ∅) = (.ok reports, r) ∧
      q.units = ["count", "lower"] ∧ r.session.Shows (Sorted.ofList [lowered, counted]) := by
  let crew : Crew StockMarker := Sorted.ofList [.lowering, .counting]
  let goal : Goal := .facts (Sorted.ofList [lowered, counted])
  let q : Plan := ⟨goal, Sorted.ofList [raw], [.ofContract count, .ofContract lower],
    Sorted.ofList [lowered, counted], []⟩
  let e : Engine StockMarker := ⟨crew, AdapterSet.standard, true⟩
  have hplan : plan crew.catalog ∅ .default (Sorted.ofList [raw]) goal = .ok q := by cbv
  have hcrew : Crew.registerAll ∅ [.lowering, .counting] = .ok crew := by cbv
  have hvalid := Crew.valid_of_registerAll hcrew fun p hp => absurd hp (Sorted.not_mem_empty p)
  have hconfined : ∀ p ∈ crew, p.Confined := by
    intro p hp site
    rcases List.mem_cons.1 (show p ∈ [Pass.counting, Pass.lowering] from hp) with rfl | hp
    · trivial
    · cases List.mem_singleton.1 hp
      exact ⟨trivial, fun _ => trivial⟩
  have hok : (e.execute q (Session.new Tree.sample ∅)).1.toBool = true := by cbv
  have shows := (execution_shows_plan crew ∅ .default (Sorted.ofList [raw]) goal q true
    (Session.new Tree.sample ∅) hplan hvalid hconfined (.new ∅ Tree.built_sample) fun _ _ => rfl).2
  rcases h : e.execute q (Session.new Tree.sample ∅) with ⟨_ | reports, r⟩
  · rw [h] at hok
    cases hok
  · exact ⟨e, q, reports, r, h, rfl, (shows reports r h).1⟩

open Engine in
/-- With many workers an execution may succeed and show less than the plan: of a clone that a sibling has
    broken off nobody knows the copies, so they get no tags. -/
theorem raced_execution_shows_less : ∃ (crew : Crew StockMarker) (s : Session StockMarker)
    (reports : List StepReport) (r : Run StockMarker),
    plan crew.catalog ∅ .default sweeps.initial sweeps.goal = .ok sweeps ∧
    (∀ p ∈ crew, p.contract.Valid ∧ p.Proper) ∧ s.Reachable ∧ s.poisoned = false ∧
    (∀ n, Store.tags s.store n = ∅) ∧
    Executes ⟨crew, AdapterSet.standard, true⟩ .many sweeps s (.ok reports) r ∧
    r.session.tree.kind? 6 = some .method ∧ raw ∈ sweeps.final ∧
    Store.hasTag r.session.store 6 ⟨"raw", .method⟩ = false ∧ ¬ r.session.Shows sweeps.final := by
  let crew : Crew StockMarker := Sorted.ofList [.sweeping]
  let e : Engine StockMarker := ⟨crew, AdapterSet.standard, true⟩
  have hplan : plan crew.catalog ∅ .default sweeps.initial sweeps.goal = .ok sweeps := by cbv
  have hcrew : Crew.registerAll ∅ [.sweeping] = .ok crew := by cbv
  have hvalid := Crew.valid_of_registerAll hcrew fun p hp => absurd hp (Sorted.not_mem_empty p)
  have hproper : ∀ p ∈ crew, p.Proper := by
    intro p hp
    cases List.mem_singleton.1 (show p ∈ [Pass.sweeping] from hp)
    exact Pass.proper_sweeping
  have hprep : e.prepare unswept.session (.ofInitial sweeps.initial) (.ofContract sweep) =
      .ok (.sweeping, [2, 4]) := by cbv
  obtain ⟨r, hperforms, htree, hgone⟩ := sweeping_races
  have hkind : r.session.tree.kind? 6 = some .method := by
    rw [htree]
    decide
  have hbare : Store.tags r.session.store 6 = ∅ := by
    rw [Store.tags, Store.entry, hgone]
    rfl
  refine ⟨crew, .new Tree.pair ∅, _, r, hplan, fun p hp => ⟨hvalid p hp, hproper p hp⟩, .new ∅ Tree.built_pair,
    rfl, fun _ => rfl, .ended rfl (.next hprep hperforms .nil) (by simp), hkind, by decide, ?_,
    fun shows => ?_⟩
  · rw [Store.hasTag, hbare]
    rfl
  · have carried := (shows 6 .method hkind ⟨"raw", .method⟩).2 (by decide)
    rw [hbare] at carried
    exact Sorted.not_mem_empty _ carried

end Trellis
