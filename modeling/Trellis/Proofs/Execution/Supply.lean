/-
  Trellis.Proofs.Execution.Supply — a planned run never misses a tag.

  The store may hold anything when a plan is executed: leftovers of earlier runs, entries of
  nodes that are gone or not there yet. What counts is one half of what a run shows: every node
  carries at least the tags of its kind that the plan has come to (`Supplies`). Seeding
  establishes this on any store, and every step of the plan preserves it
  (`Supplies.runStep`): what a step removes the plan has removed too, and new nodes are given
  all that the plan expects of their kind.

  - `planned_tags_are_carried`: so at every moment of an execution the tags that the next unit needs
    are on every node of their scope, its check finds no tag missing, and the only inconsistency
    that an execution can end with is a marker out of reach.

  With many workers the check may find one missing (`raced_execution_is_inconsistent`).
-/
import Trellis.Proofs.Execution.Progress
import Trellis.Proofs.Execution.Refinement

namespace Trellis

open Planner Trellis.Tree

variable {τ : Type} [MarkerFamily τ]

namespace Session

/-- Every node carries the tags among the facts that are for its kind, and maybe more. -/
structure Supplies (s : Session τ) (facts : FactSet) : Prop where
  wellFormed : s.tree.WellFormed
  carries : ∀ q ∈ s.tree.places, ∀ u, u.scope = q.kind → Fact.tag u ∈ facts →
    u ∈ Store.tags s.store q.id

variable {s s' : Session τ} {facts initial : FactSet} {c : Contract} {targets : List NodeId}

theorem Supplies.congr (h : s.Supplies facts) (htree : s'.tree = s.tree)
    (hstore : s'.store = s.store) : s'.Supplies facts where
  wellFormed := by
    rw [htree]
    exact h.wellFormed
  carries := by
    rw [htree, hstore]
    exact h.carries

theorem Supplies.hasTag (h : s.Supplies facts) {u : Tag} (hu : Fact.tag u ∈ facts) {n : NodeId}
    (hn : s.tree.kind? n = some u.scope) : Store.hasTag s.store n u = true := by
  obtain ⟨q, hq, rfl, hk⟩ := h.wellFormed.kind?_eq_some.1 hn
  exact decide_eq_true (h.carries q hq u hk.symm hu)

/-- Seeding does not ask what the store holds. -/
theorem supplies_seed (h : s.tree.WellFormed) (initial : FactSet) :
    (s.seed initial).Supplies initial where
  wellFormed := h
  carries q hq u hk hu := by
    rw [seed, mem_tags_foldl_tagAll, FactSet.mem_tags, h.mem_nodesOfKind]
    exact .inl ⟨hu, q, hq, rfl, hk.symm⟩

/-- A step of a valid contract, on the nodes of its granularity. -/
theorem Supplies.runStep {r r' : Run τ} {p : Pass τ} {step : Step} {report : StepReport}
    (h : r.session.Supplies facts) (hp : p.Confined) (hv : p.contract.Valid)
    (ht : AdapterSet.standard.expandRoot r.session.tree p.contract.granularity = .ok targets)
    (he : p.runStep step targets facts r = (.ok report, r')) :
    r'.session.Supplies (facts.apply p.contract.adds p.contract.removes) where
  wellFormed := by
    obtain ⟨outcomes, s, trace, -, -, htree, -⟩ := Pass.traced_runStep hp h.wellFormed he
    rw [htree]
    exact trace.wellFormed
  carries q hq u hk hu := by
    rw [Pass.mem_tags_runStep hp hv h.wellFormed he hq]
    rcases FactSet.mem_apply.1 hu with hadd | ⟨hold, hkept⟩
    · exact .inl ⟨hadd, hk,
        Pass.covers_runStep hp h.wellFormed ht he hq (hv.adds_inReach (.tag u) hadd) hk⟩
    · refine .inr ⟨?_, fun hrem => hkept hrem.1⟩
      rcases Pass.mem_places_runStep hp h.wellFormed he hq with ⟨-, hstood⟩ | ⟨hnew, -⟩
      · exact .inr (h.carries q hstood u hk hold)
      · exact .inl ⟨hnew, hk, hold⟩

/-! ## The check before a step -/

/-- Whoever has to carry a tag is of its scope. -/
theorem kind_of_mem_holders {granularity scope : Kind} {n : NodeId}
    (hn : n ∈ s.holders granularity targets scope) : s.tree.kind? n = some scope := by
  unfold holders at hn
  split at hn
  · obtain ⟨t, -, hn⟩ := List.mem_flatMap.1 hn
    exact of_decide_eq_true (List.mem_filter.1 hn).2
  · split at hn
    · obtain ⟨t, -, hn⟩ := List.mem_filterMap.1 hn
      rw [ancestorOfKind] at hn
      simpa using List.find?_some hn
    · exact of_decide_eq_true (List.mem_filter.1 hn).2

/-- Where what a contract needs is supplied the check finds no tag missing. -/
theorem Supplies.missingTag (h : s.Supplies facts) (hc : ∀ f ∈ c.needs, f ∈ facts) :
    s.missingTag c targets = none := by
  refine List.findSome?_eq_none_iff.2 fun u hu => ?_
  have hfact := hc _ (FactSet.mem_tags.1 hu)
  rw [Option.map_eq_none_iff, List.find?_eq_none]
  intro n hn
  simp [h.hasTag hfact (kind_of_mem_holders hn)]

theorem missingMarker_eq_some {p : Pass τ} {assumed : OrdSet String} {why : Inconsistency}
    (h : s.missingMarker p targets assumed = some why) :
    ∃ kind n, Fact.marker kind ∈ p.contract.needs ∧ why = .missingMarker p.name kind n := by
  obtain ⟨n, -, hfound⟩ := List.exists_of_findSome?_eq_some h
  obtain ⟨kind, hkind, rfl⟩ := Option.map_eq_some_iff.1 hfound
  have hneeds := (List.mem_filter.1 (List.mem_of_find?_eq_some hkind)).1
  exact ⟨kind, n, FactSet.mem_markers.1 hneeds, rfl⟩

end Session

/-! ## Runs -/

namespace Engine

variable {e : Engine τ} {order : List Contract} {step : Step} {rest : List Step} {st st' : Standing}
  {r r' : Run τ} {p : Pass τ} {targets : List NodeId} {c : Contract} {error : Error}

/-- The standard adapters lead to nodes of every kind. -/
theorem prepare_standard (st : Standing) (he : e.adapters = AdapterSet.standard)
    (h : r.session.tree.WellFormed) (hc : c ∈ e.crew.catalog) : ∃ p ∈ e.crew, ∃ targets, p.contract = c ∧
      e.crew.find? c.name = some p ∧
      AdapterSet.standard.expandRoot r.session.tree c.granularity = .ok targets ∧
      e.prepare r.session st (.ofContract c) =
        (if e.verify then r.session.verify p targets st.assumed else .ok ()).map fun _ => (p, targets) := by
  obtain ⟨p, hp, rfl⟩ := List.mem_map.1 hc
  have hfind : e.crew.find? p.contract.name = some p := Sorted.find?_eq_some.2 ⟨hp, rfl⟩
  obtain ⟨targets, hexpand, -⟩ := h.mem_expandRoot_standard p.contract.granularity
  refine ⟨p, hp, targets, rfl, hfind, hexpand, ?_⟩
  have hexpand' : e.adapters.expandRoot r.session.tree p.contract.granularity = .ok targets :=
    he ▸ hexpand
  show e.prepare r.session st ⟨p.contract.name, p.contract.granularity, p.contract.exclusive⟩ = _
  rw [prepare]
  simp only [hfind, hexpand']
  show (if e.verify = true then r.session.verify p targets st.assumed >>= fun _ => .ok (p, targets)
    else .ok (p, targets)) = _
  split
  · cases r.session.verify p targets st.assumed <;> rfl
  · rfl

/-- What a run of planned steps preserves: at every moment the session supplies what the contracts
    so far lead to. -/
theorem supplies_of_reaches (he : e.adapters = AdapterSet.standard) (hcat : ∀ c ∈ order, c ∈ e.crew.catalog)
    (hvalid : ∀ p ∈ e.crew, p.contract.Valid) (hconfined : ∀ p ∈ e.crew, p.Confined)
    (h : r.session.Supplies st.expected)
    (hreach : e.Reaches (order.map Step.ofContract) st r (step :: rest) st' r') :
    ∃ before c after, order = before ++ c :: after ∧ step = .ofContract c ∧
      st'.expected = enact st.expected before ∧ r'.session.Supplies st'.expected := by
  generalize hsteps : order.map Step.ofContract = steps at hreach
  generalize hleft : step :: rest = left at hreach
  induction hreach generalizing order with
  | here steps st r =>
    subst hleft
    obtain ⟨c, after, rfl, rfl, -⟩ := List.map_eq_cons_iff.1 hsteps
    exact ⟨[], c, after, rfl, rfl, rfl, h⟩
  | @next step₁ steps left st st' r r₁ r' p targets report hprep hstep _ ih =>
    obtain ⟨c, order, rfl, rfl, rfl⟩ := List.map_eq_cons_iff.1 hsteps
    obtain ⟨hc, horder⟩ := List.forall_mem_cons.1 hcat
    obtain ⟨hfind, hexpand⟩ := prepare_ok hprep
    obtain ⟨hp, rfl⟩ := find?_of_mem_catalog hc hfind
    rw [he] at hexpand
    have hafter : r₁.session.Supplies (st.after p.contract).expected :=
      h.runStep (hconfined p hp) (hvalid p hp) hexpand hstep
    obtain ⟨before, d, after, rfl, hd, hexpected, hsupplies⟩ := ih horder hafter rfl hleft
    exact ⟨p.contract :: before, d, after, rfl, hd, hexpected, hsupplies⟩

/-- A step whose tags are supplied can be prepared, or a marker is out of reach. -/
theorem prepare_failed (he : e.adapters = AdapterSet.standard) (h : r.session.Supplies st.expected)
    (hc : c ∈ e.crew.catalog) (hneeds : ∀ f ∈ c.needs, f ∈ st.expected)
    (herror : e.prepare r.session st (.ofContract c) = .error error) :
    ∃ kind n, Fact.marker kind ∈ c.needs ∧ error = .inconsistent (.missingMarker c.name kind n) := by
  obtain ⟨p, hp, targets, rfl, -, -, hprep⟩ := prepare_standard st he h.wellFormed hc
  rw [hprep] at herror
  split at herror
  · rw [Session.verify, h.missingTag hneeds, Option.none_or] at herror
    split at herror
    · rename_i why hwhy
      cases herror
      obtain ⟨kind, n, hkind, rfl⟩ := Session.missingMarker_eq_some hwhy
      exact ⟨kind, n, hkind, rfl⟩
    · cases herror
  · cases herror

theorem supplies_opening {q : Plan} {s : Session τ} (h : s.tree.WellFormed) :
    (opening q s).session.Supplies q.initial := by
  have seeded : (s.seed q.initial).Supplies q.initial := Session.supplies_seed h q.initial
  exact seeded.congr (opening_session q s).1 (opening_session q s).2

end Engine

open Engine in
/-- Execute a plan for the catalog of a crew of valid contracts and confined bodies, with one worker and
    on a session with a tree that can be built and whatever store. Whenever a step is next, its unit is in the
    crew, every tag it needs is on every node of its scope, and the check finds no tag missing. If
    the execution ends with an inconsistency, that is a marker a planned unit needs. -/
theorem planned_tags_are_carried (crew : Crew τ) (features : Features) (config : Config)
    (initial : FactSet) (goal : Goal) (q : Plan) (verify : Bool) (s : Session τ)
    (hplan : plan crew.catalog features config initial goal = .ok q)
    (hvalid : ∀ p ∈ crew, p.contract.Valid) (hconfined : ∀ p ∈ crew, p.Confined)
    (hs : s.tree.Built) :
    let e : Engine τ := ⟨crew, AdapterSet.standard, verify⟩
    (∀ step rest st r, e.Reaches q.steps (.ofInitial initial) (opening q s) (step :: rest) st r →
      ∃ p targets, crew.find? step.unit = some p ∧
        AdapterSet.standard.expandRoot r.session.tree step.granularity = .ok targets ∧
        (∀ tag, Fact.tag tag ∈ p.contract.needs → ∀ n, r.session.tree.kind? n = some tag.scope →
          Store.hasTag r.session.store n tag = true) ∧
        r.session.missingTag p.contract targets = none) ∧
    ∀ why r, e.execute q s = (.error (.failed (.inconsistent why)), r) →
      ∃ p ∈ crew, p.name ∈ q.units ∧
        ∃ kind n, Fact.marker kind ∈ p.contract.needs ∧ why = .missingMarker p.name kind n := by
  intro e
  obtain ⟨-, rfl, -, order, hq⟩ := carries_of_plan hplan
  have begun : (opening q s).session.Supplies q.initial := supplies_opening hs.wellFormed
  -- At every moment the next unit finds the tags it needs in what is supplied.
  have moment {step : Step} {rest : List Step} {st : Standing} {r : Run τ}
      (h : e.Reaches q.steps (.ofInitial q.initial) (opening q s) (step :: rest) st r) :
      ∃ c ∈ order, step = .ofContract c ∧ r.session.Supplies st.expected ∧
        ∀ f ∈ c.needs, f ∈ st.expected := by
    rw [hq.steps] at h
    obtain ⟨before, c, after, hsplit, hstep, hexpected, hsupplies⟩ :=
      supplies_of_reaches rfl hq.mem_cat hvalid hconfined begun h
    refine ⟨c, by simp [hsplit], hstep, hsupplies, fun f hf => ?_⟩
    rw [hexpected]
    exact hq.feasible before c after hsplit f hf
  refine ⟨?_, ?_⟩
  · intro step rest st r h
    obtain ⟨c, hc, rfl, hsupplies, hneeds⟩ := moment h
    obtain ⟨p, -, targets, rfl, hfind, hexpand, -⟩ :=
      prepare_standard (e := e) st rfl hsupplies.wellFormed (hq.mem_cat c hc)
    refine ⟨p, targets, hfind, hexpand, ?_, hsupplies.missingTag hneeds⟩
    exact fun tag htag n hn => hsupplies.hasTag (hneeds _ htag) hn
  · intro why r h
    rcases execute_failed h with herror | ⟨r', hrun⟩
    · cases herror
    · obtain ⟨step, rest, st, r₁, hreach, ⟨error, hprep, herror⟩ | ⟨p, targets, -, hstep⟩⟩ :=
        runSteps_error hrun
      · obtain ⟨c, hc, rfl, hsupplies, hneeds⟩ := moment hreach
        obtain ⟨kind, n, hkind, rfl⟩ := prepare_failed rfl hsupplies (hq.mem_cat c hc) hneeds hprep
        obtain ⟨p, hp, rfl⟩ := List.mem_map.1 (hq.mem_cat c hc)
        cases herror
        refine ⟨p, hp, ?_, kind, n, hkind, rfl⟩
        rw [hq.units]
        exact List.mem_map_of_mem hc
      · -- Whatever a body fails with is reported as the failure of an invocation.
        obtain ⟨target, -, source, herror⟩ := Pass.runStep_failed hstep
        cases herror

/-! ## An instance

A method that an earlier run has left lowered and not raw, and an entry of a node long gone. -/

def leftovers : Session StockMarker where
  tree := Tree.sample
  store := Store.insertTag (Store.insertTag (∅ : Store StockMarker) 3 ⟨"lowered", .method⟩) 99
    ⟨"raw", .method⟩
  features := ∅
  events := .empty
  lockBroken := false
  poisoned := false

open Engine in
theorem planned_tags_are_carried_leftovers : ∃ (e : Engine StockMarker) (q : Plan)
    (p : Pass StockMarker) (targets : List NodeId), q.units = ["count"] ∧
      e.crew.find? "count" = some p ∧ Fact.tag ⟨"raw", .method⟩ ∈ p.contract.needs ∧
      (opening q leftovers).session.missingTag p.contract targets = none := by
  let crew : Crew StockMarker := Sorted.ofList [.counting]
  let goal : Goal := .facts (Sorted.ofList [counted])
  let q : Plan := ⟨goal, Sorted.ofList [raw], [.ofContract count], Sorted.ofList [counted, raw], []⟩
  have hplan : plan crew.catalog ∅ .default (Sorted.ofList [raw]) goal = .ok q := by cbv
  have hcrew : Crew.registerAll ∅ [.counting] = .ok crew := by cbv
  have hvalid := Crew.valid_of_registerAll hcrew fun p hp => absurd hp (Sorted.not_mem_empty p)
  have hconfined : ∀ p ∈ crew, p.Confined := by
    intro p hp site
    cases List.mem_singleton.1 (show p ∈ [Pass.counting] from hp)
    trivial
  have carried := (planned_tags_are_carried crew ∅ .default (Sorted.ofList [raw]) goal q true leftovers
    hplan hvalid hconfined Tree.built_sample).1
  obtain ⟨p, targets, hfind, -, -, hnone⟩ := carried (.ofContract count) [] _ _ (.here _ _ _)
  cases (show crew.find? "count" = some .counting by cbv).symm.trans hfind
  exact ⟨⟨crew, AdapterSet.standard, true⟩, q, .counting, targets, rfl, hfind, by decide, hnone⟩

open Engine in
/-- With many workers it may: the copy of a method that has got no tags, as its clone was broken off, is
    found out by the next step that needs the tags of methods. -/
theorem raced_execution_is_inconsistent : ∃ (crew : Crew StockMarker) (goal : Goal) (q : Plan)
    (s : Session StockMarker) (r : Run StockMarker),
    plan crew.catalog ∅ .default (Sorted.ofList [raw]) goal = .ok q ∧
    (∀ p ∈ crew, p.contract.Valid ∧ p.Proper) ∧ s.tree.Built ∧ s.poisoned = false ∧
    Executes ⟨crew, AdapterSet.standard, true⟩ .many q s
      (.error (.failed (.inconsistent (.missingTag "count" ⟨"raw", .method⟩ 6)))) r := by
  let crew : Crew StockMarker := Sorted.ofList [.sweeping, .counting]
  let e : Engine StockMarker := ⟨crew, AdapterSet.standard, true⟩
  let goal : Goal := .facts (Sorted.ofList [.tag swept, counted])
  let q : Plan := ⟨goal, Sorted.ofList [raw], [.ofContract sweep, .ofContract count],
    Sorted.ofList [raw, .tag swept, counted], []⟩
  have hplan : plan crew.catalog ∅ .default (Sorted.ofList [raw]) goal = .ok q := by cbv
  have hcrew : Crew.registerAll ∅ [.sweeping, .counting] = .ok crew := by cbv
  have hvalid := Crew.valid_of_registerAll hcrew fun p hp => absurd hp (Sorted.not_mem_empty p)
  have hproper : ∀ p ∈ crew, p.Proper := by
    intro p hp
    rcases List.mem_cons.1 (show p ∈ [Pass.counting, Pass.sweeping] from hp) with rfl | hp
    · exact fun _ => trivial
    · cases List.mem_singleton.1 hp
      exact Pass.proper_sweeping
  have hprep : e.prepare unswept.session (.ofInitial (Sorted.ofList [raw])) (.ofContract sweep) =
      .ok (.sweeping, [2, 4]) := by cbv
  obtain ⟨r, hplay, hfound⟩ : ∃ r,
      Pass.sweeping.perform (.ofContract sweep) race [2, 4] (Sorted.ofList [raw]) unswept =
        some (.ok ⟨"sweep", .type, 2, 2, 0, 0, 1⟩, r) ∧
      e.prepare r.session ((Standing.ofInitial (Sorted.ofList [raw])).after sweep) (.ofContract count) =
        .error (.inconsistent (.missingTag "count" ⟨"raw", .method⟩ 6)) := ⟨_, rfl, by cbv⟩
  have hperforms := Pass.performs_of_perform hplay
  exact ⟨crew, goal, q, .new Tree.pair ∅, _, hplan, fun p hp => ⟨hvalid p hp, hproper p hp⟩, Tree.built_pair,
    rfl, .failed rfl (.next hprep hperforms (.unprepared hfound))⟩

end Trellis
