/-
  Trellis.Proofs.Execution.Books — the reports of an execution account for the tree.

  A tree is in balance with an earlier one if it has as many nodes more as were made, less those
  that were taken out, and if the numbers given out meanwhile are those of the nodes that were
  made (`Tree.Balanced`). Each edit is in balance with what it answers, a copy with all the nodes
  of the copy and a removal with all that went; an edit that fails answers nothing and changes
  nothing. So the two lists an invocation keeps balance whatever its body does in whatever order,
  and takes out again what it made itself (`Invocation.Balanced.run`). Over the invocations of a
  step, and over the steps, the books are added up:
  - `Pass.runStep_reports`: what a step that succeeds has to report.
  - `books_balance`: an execution that succeeds.

  With many workers a node may get into the tree that is in no list (`raced_books_do_not_balance`).
-/
import Trellis.Proofs.Execution.Failure
import Trellis.Proofs.Tree.Kinship

namespace Trellis

variable {τ : Type} [MarkerFamily τ] {α : Type}

/-! ## Trees -/

namespace Tree

variable {t u v : Tree} {n : NodeId} {p : Place} {new gone : List NodeId} {made taken made' taken' : Nat}

/-- From `t` to `u` so many nodes were made, and so many taken out. -/
structure Balanced (t : Tree) (made taken : Nat) (u : Tree) : Prop where
  wellFormed : u.WellFormed
  size : u.size + taken = t.size + made
  next : u.next = t.next + made

theorem WellFormed.balanced (h : t.WellFormed) : Balanced t 0 0 t := ⟨h, rfl, rfl⟩

theorem Balanced.trans (h : Balanced t made taken u) (k : Balanced u made' taken' v) :
    Balanced t (made + made') (taken + taken') v where
  wellFormed := k.wellFormed
  size := by
    have before := h.size
    have after := k.size
    omega
  next := by rw [k.next, h.next, Nat.add_assoc]

theorem Grows.ids_perm (h : t.WellFormed) (hg : Grows t p new u) : u.ids.Perm (t.ids ++ new) := by
  have fresh : ∀ n ∈ new, t.next ≤ n := by
    intro n hn
    rw [hg.new_eq, List.mem_range'_1] at hn
    exact hn.1
  have distinct : (t.ids ++ new).Nodup := by
    refine List.nodup_append.2 ⟨h.distinct, ?_, fun a ha b hb e => ?_⟩
    · rw [hg.new_eq]
      exact List.nodup_range'
    · exact Nat.not_lt.2 (fresh b hb) (e ▸ h.fresh a ha)
  refine (List.perm_ext_iff_of_nodup hg.wellFormed.distinct distinct).2 fun n => ?_
  rw [List.mem_append]
  constructor
  · intro hn
    obtain ⟨q, hq, rfl⟩ := mem_ids_iff.1 hn
    exact (hg.adds q hq).imp (fun hq => mem_ids_iff.2 ⟨q, hq, rfl⟩) And.left
  · rintro (hn | hn)
    · obtain ⟨q, hq, rfl⟩ := mem_ids_iff.1 hn
      exact mem_ids_iff.2 ⟨q, hg.keeps q hq, rfl⟩
    · exact hg.news n hn

theorem Shrinks.ids_perm (h : t.WellFormed) (hg : Shrinks t n u) :
    (u.ids ++ t.descendants n).Perm t.ids := by
  have distinct : (u.ids ++ t.descendants n).Nodup := by
    refine List.nodup_append.2 ⟨hg.wellFormed.distinct, h.nodup_descendants n, fun a ha b hb e => ?_⟩
    subst e
    obtain ⟨q, hq, hid, hw⟩ := h.mem_descendants.1 hb
    obtain ⟨r, hr, rfl⟩ := mem_ids_iff.1 ha
    obtain ⟨hr, hout⟩ := (hg.places r).1 hr
    exact hout (h.eq_of_id_eq hr hq hid.symm ▸ hw)
  refine (List.perm_ext_iff_of_nodup distinct h.distinct).2 fun m => ?_
  rw [List.mem_append, h.mem_descendants, mem_ids_iff, ← Tree.ids, mem_ids_iff]
  constructor
  · rintro (⟨q, hq, hid⟩ | ⟨q, hq, hid, -⟩)
    · exact ⟨q, ((hg.places q).1 hq).1, hid⟩
    · exact ⟨q, hq, hid⟩
  · rintro ⟨q, hq, hid⟩
    by_cases hw : q.Within n
    · exact .inr ⟨q, hq, hid, hw⟩
    · exact .inl ⟨q, (hg.places q).2 ⟨hq, hw⟩, hid⟩

theorem Grows.balanced (h : t.WellFormed) (hg : Grows t p new u) : Balanced t new.length 0 u where
  wellFormed := hg.wellFormed
  size := by rw [Nat.add_zero, size, size, (hg.ids_perm h).length_eq, List.length_append]
  next := hg.next

theorem Shrinks.balanced (h : t.WellFormed) (hg : Shrinks t n u) :
    Balanced t 0 (t.descendants n).length u where
  wellFormed := hg.wellFormed
  size := by rw [Nat.add_zero, size, size, ← (hg.ids_perm h).length_eq, List.length_append]
  next := hg.next

theorem Balanced.rename {name : String} (h : t.WellFormed) (he : t.rename n name = .ok u) :
    Balanced t 0 0 u where
  wellFormed := h.rename he
  size := by
    have same : u.ids = t.ids := by rw [ids_eq_map_places, (places_rename he).1, ← ids_eq_map_places]
    rw [Tree.size, same, Tree.size]
  next := (places_rename he).2

end Tree

open Trellis.Tree

/-! ## Invocations -/

namespace Invocation

variable {inv after : Invocation τ} {site : Site} {t : Tree} {n parent source : NodeId}

/-- The lists that the invocation keeps are in balance with what it made of the tree. -/
def Balanced (t : Tree) (inv : Invocation τ) : Prop :=
  Tree.Balanced t inv.staged.created.length inv.staged.removed.length inv.session.tree

namespace Balanced

variable (h : inv.Balanced t)

include h

/-- Nothing else of the invocation matters. -/
theorem congr (htree : after.session.tree = inv.session.tree)
    (hcreated : after.staged.created = inv.staged.created)
    (hremoved : after.staged.removed = inv.staged.removed) : after.Balanced t := by
  rw [Balanced, htree, hcreated, hremoved]
  exact h

/-- An edit that is in balance with what the lists take in keeps the lists in balance. -/
theorem edit (new gone : List NodeId)
    (hedit : Tree.Balanced inv.session.tree new.length gone.length after.session.tree)
    (hcreated : after.staged.created = inv.staged.created ++ new)
    (hremoved : after.staged.removed = inv.staged.removed ++ gone) : after.Balanced t := by
  rw [Balanced, hcreated, hremoved, List.length_append, List.length_append]
  exact Tree.Balanced.trans h hedit

theorem answer {r : Request τ} (hr : r.Confined) : (r.answer site inv).2.Balanced t := by
  have wellFormed := Tree.Balanced.wellFormed h
  refine answer_confined hr ?same ?stage ?add ?remove ?clone ?rename
  case same =>
    intro after htree _ hstaged
    exact h.congr htree (by rw [hstaged]) (by rw [hstaged])
  case stage =>
    intro n kind change _
    exact h.congr rfl rfl rfl
  case add =>
    intro parent kind name n after he
    obtain ⟨-, hedit, -, hcreated, hremoved⟩ := add_ok he
    obtain ⟨p, -, hg⟩ := wellFormed.grows_add hedit
    exact h.edit [n] [] (hg.balanced wellFormed) hcreated (by rw [hremoved, List.append_nil])
  case remove =>
    intro n after he
    obtain ⟨-, gone, hedit, -, hcreated, hremoved⟩ := remove_ok he
    obtain ⟨rfl, hg⟩ := wellFormed.shrinks_remove hedit
    exact h.edit [] _ (hg.balanced wellFormed) (by rw [hcreated, List.append_nil]) hremoved
  case clone =>
    intro source parent n after he
    obtain ⟨-, pairs, hedit, -, hcreated, hremoved⟩ := clone_ok he
    obtain ⟨p, -, hg⟩ := wellFormed.grows_clone hedit
    exact h.edit (pairs.map Prod.snd) [] (hg.balanced wellFormed) hcreated
      (by rw [hremoved, List.append_nil])
  case rename =>
    intro n name after _ he
    obtain ⟨hedit, -, hstaged⟩ := rename_ok he
    exact h.edit [] [] (Balanced.rename wellFormed hedit) (by rw [hstaged, List.append_nil])
      (by rw [hstaged, List.append_nil])

/-- Confined work keeps the books, whatever it does and in whatever order. -/
theorem run {work : Work τ α} (hw : work.Confined) : (work.run site inv).2.Balanced t := by
  induction work generalizing inv with
  | done a => exact h
  | ask r next ih => exact ih _ (h.answer hw.1) (hw.2 _)

end Balanced

end Invocation

/-! ## Steps -/

namespace Outcome

/-- How many nodes the invocation made. -/
def made (o : Outcome τ) : Nat := (o.staged?.map fun staged => staged.created.length).getD 0

/-- How many nodes it took out. -/
def taken (o : Outcome τ) : Nat := (o.staged?.map fun staged => staged.removed.length).getD 0

end Outcome

/-- The sums over the outcomes of some invocations. -/
def booked (f : Outcome τ → Nat) (outcomes : List (NodeId × Outcome τ)) : Nat :=
  (outcomes.map fun o => f o.2).sum

namespace Pass

variable {p : Pass τ} {step : Step} {target : NodeId} {targets : List NodeId} {r r' : Run τ}
  {outcome : Outcome τ} {outcomes : List (NodeId × Outcome τ)} {expected : FactSet} {report : StepReport}

theorem balanced_invoke (hp : p.Confined) (h : r.session.tree.WellFormed)
    (he : p.invoke step r target = (.ok outcome, r')) :
    Tree.Balanced r.session.tree outcome.made outcome.taken r'.session.tree := by
  rcases invoke_ok he with ⟨rfl, htree, -⟩ | ⟨inv, rfl, hs, htree, -⟩
  · rw [htree]
    exact h.balanced
  · have start : Invocation.Balanced r.session.tree ⟨r.session, .none, r.notes⟩ := h.balanced
    have ran : Invocation.Balanced r.session.tree (p.runBody step target r).2 :=
      p.runBody_snd step start (start.run (hp _)) fun inv broken hinv => hinv.congr rfl rfl rfl
    rw [Outcome.made, Outcome.taken, hs, htree]
    exact ran

theorem balanced_invokeAll (hp : p.Confined) (h : r.session.tree.WellFormed)
    (he : p.invokeAll step targets r = (.ok outcomes, r')) :
    Tree.Balanced r.session.tree (booked Outcome.made outcomes) (booked Outcome.taken outcomes)
      r'.session.tree := by
  rw [invokeAll_ok] at he
  induction he with
  | nil => exact h.balanced
  | failed hinv => exact balanced_invoke hp h hinv
  | next _ hinv _ ih =>
    have first := balanced_invoke hp h hinv
    exact first.trans (ih first.wellFormed)

end Pass

/-- The report of a step is about its unit and its nodes, each of which was invoked or skipped. -/
structure StepReport.Covers (report : StepReport) (step : Step) (targets : List NodeId) : Prop where
  unit : report.unit = step.unit
  granularity : report.granularity = step.granularity
  nodes : report.nodes = targets.length
  counted : report.invoked + report.skipped = report.nodes

namespace StepReport

variable {outcomes : List (NodeId × Outcome τ)}

/-- A report that has counted some outcomes on top of another. -/
structure Counted (report : StepReport) (outcomes : List (NodeId × Outcome τ)) (total : StepReport) :
    Prop where
  unit : total.unit = report.unit
  granularity : total.granularity = report.granularity
  nodes : total.nodes = report.nodes
  each : total.invoked + total.skipped = report.invoked + report.skipped + outcomes.length
  created : total.created = report.created + booked Outcome.made outcomes
  removed : total.removed = report.removed + booked Outcome.taken outcomes

omit [MarkerFamily τ] in
theorem counted_cons {o : NodeId × Outcome τ} {report total : StepReport}
    (ho : ∀ staged error, o.2 ≠ .failed staged error) (h : Counted (report.count o.2) outcomes total) :
    Counted report (o :: outcomes) total := by
  obtain ⟨unit, granularity, nodes, each, created, removed⟩ := h
  rcases o with ⟨n, _ | staged | ⟨staged, error⟩⟩
  case failed => exact absurd rfl (ho staged error)
  all_goals
    simp only [count] at unit granularity nodes each created removed
    refine ⟨unit, granularity, nodes, ?_, ?_, ?_⟩
    · rw [each, List.length_cons]
      omega
    · simpa [booked, Outcome.made, Outcome.staged?, Nat.add_assoc] using created
    · simpa [booked, Outcome.taken, Outcome.staged?, Nat.add_assoc] using removed

omit [MarkerFamily τ] in
theorem counted_all (hf : Outcome.failure? outcomes = none) (report : StepReport) :
    Counted report outcomes ((outcomes.map Prod.snd).foldl count report) := by
  induction outcomes generalizing report with
  | nil => exact ⟨rfl, rfl, rfl, rfl, rfl, rfl⟩
  | cons o outcomes ih =>
    have succeeds (staged : Staged τ) (error : Error) : o.2 ≠ .failed staged error := by
      intro e
      refine Outcome.not_failed hf o.1 staged error ?_
      rw [← e]
      exact List.mem_cons_self
    rw [Outcome.failure?_cons succeeds] at hf
    exact counted_cons succeeds (ih hf (report.count o.2))

end StepReport

namespace Pass

variable {p : Pass τ} {step : Step} {targets : List NodeId} {r r' : Run τ} {expected : FactSet}
  {report : StepReport}

theorem runStep_reports (hp : p.Confined) (h : r.session.tree.WellFormed)
    (he : p.runStep step targets expected r = (.ok report, r')) : report.Covers step targets ∧
      Tree.Balanced r.session.tree report.created report.removed r'.session.tree := by
  obtain ⟨_, ⟨⟩⟩ | ⟨outcomes, r₁, hinv, ⟨_, -, ⟨⟩, -⟩ | ⟨hf, report, hreport, ⟨⟩, rfl⟩⟩ :=
    runStep_cases he
  have counted := StepReport.counted_all hf (.empty step targets.length)
  rw [← hreport] at counted
  have each : outcomes.length = targets.length := by
    rw [← targets_of_invokeAll hinv hf, List.length_map]
  refine ⟨⟨counted.unit, counted.granularity, counted.nodes, ?_⟩, ?_⟩
  · rw [counted.each, counted.nodes, each]
    exact Nat.zero_add _
  · have begun : (r.announce step targets.length).session.tree.WellFormed := h
    have invoked := balanced_invokeAll hp begun hinv
    have committed : (outcomes.foldl (Session.commit p.contract expected) r₁.session).tree =
        r₁.session.tree := by
      rw [Session.commitAll_eq]
    have created : report.created = booked Outcome.made outcomes :=
      counted.created.trans (Nat.zero_add _)
    have removed : report.removed = booked Outcome.taken outcomes :=
      counted.removed.trans (Nat.zero_add _)
    rw [created, removed]
    exact committed.symm ▸ invoked

end Pass

/-! ## Executions -/

namespace Engine

variable {e : Engine τ} {steps : List Step} {st : Standing} {r r' : Run τ} {reports : List StepReport}

/-- What a run of steps has to report: every step in its place, as of the moment at which it began,
    and all of them together what became of the tree. -/
structure Reports (e : Engine τ) (steps : List Step) (st : Standing) (r : Run τ)
    (reports : List StepReport) (r' : Run τ) : Prop where
  length : reports.length = steps.length
  each : ∀ i step, steps[i]? = some step → ∃ report st₁ r₁ targets, reports[i]? = some report ∧
    e.Reaches steps st r (steps.drop i) st₁ r₁ ∧
    e.adapters.expandRoot r₁.session.tree step.granularity = .ok targets ∧ report.Covers step targets
  balanced : Tree.Balanced r.session.tree (reports.map StepReport.created).sum
    (reports.map StepReport.removed).sum r'.session.tree

theorem runSteps_reports (hconfined : ∀ p ∈ e.crew, p.Confined) (h : r.session.tree.WellFormed)
    (he : e.runSteps steps st r = (.ok reports, r')) : e.Reports steps st r reports r' := by
  induction steps generalizing st r reports with
  | nil =>
    cases he
    exact ⟨rfl, fun i step hi => by simp at hi, h.balanced⟩
  | cons step steps ih =>
    obtain ⟨p, targets, report, r₁, more, hprep, hstep, hrest, rfl⟩ := runSteps_cons_ok he
    obtain ⟨hfind, hexpand⟩ := prepare_ok hprep
    have hp := hconfined p (Sorted.find?_eq_some.1 hfind).1
    obtain ⟨covers, balanced⟩ := p.runStep_reports hp h hstep
    have rest := ih balanced.wellFormed hrest
    refine ⟨congrArg (· + 1) rest.length, fun i step' hi => ?_, balanced.trans rest.balanced⟩
    cases i with
    | zero =>
      cases hi
      exact ⟨report, st, r, targets, rfl, .here _ _ _, hexpand, covers⟩
    | succ i =>
      obtain ⟨report', st', r₂, targets', hreport, reached, hexpand', covers'⟩ := rest.each i step' hi
      exact ⟨report', st', r₂, targets', hreport, .next hprep hstep reached, hexpand', covers'⟩

end Engine

open Engine in
/-- Execute a plan with one worker and confined bodies on a tree that is well-formed, as every tree is
    that can be built. If the execution succeeds, it has a report for each step in the order of the plan, on as
    many nodes as the granularity of the step expands to at the moment the step begins, each of them
    invoked or skipped. The nodes made, less those taken out, are what the tree has grown by, and the
    nodes made are as many as numbers were given out, whatever the bodies took out again and whichever
    of their edits failed. -/
theorem books_balance (e : Engine τ) (q : Plan) (s : Session τ) (reports : List StepReport) (r : Run τ)
    (hs : s.tree.WellFormed) (hconfined : ∀ p ∈ e.crew, p.Confined)
    (he : e.execute q s = (.ok reports, r)) :
    reports.length = q.steps.length ∧
      (∀ i step, q.steps[i]? = some step → ∃ report st₁ r₁ targets, reports[i]? = some report ∧
        e.Reaches q.steps (.ofInitial q.initial) (opening q s) (q.steps.drop i) st₁ r₁ ∧
        e.adapters.expandRoot r₁.session.tree step.granularity = .ok targets ∧
        report.unit = step.unit ∧ report.granularity = step.granularity ∧
        report.nodes = targets.length ∧ report.nodes = report.invoked + report.skipped) ∧
      r.session.tree.size + (reports.map StepReport.removed).sum =
        s.tree.size + (reports.map StepReport.created).sum ∧
      r.session.tree.next = s.tree.next + (reports.map StepReport.created).sum := by
  have htree := (opening_session q s).1
  have run := execute_ok he
  rw [runPlan_eq] at run
  have books := runSteps_reports hconfined (htree ▸ hs) run
  refine ⟨books.length, fun i step hi => ?_, ?_, ?_⟩
  · obtain ⟨report, st₁, r₁, targets, hreport, reached, hexpand, covers⟩ := books.each i step hi
    exact ⟨report, st₁, r₁, targets, hreport, reached, hexpand, covers.unit, covers.granularity,
      covers.nodes, covers.counted.symm⟩
  · rw [books.balanced.size, htree]
  · rw [books.balanced.next, htree]

/-- Makes a method and copies it, takes the first of the two out again, is refused the removal of the
    root, and ends by removing its own target with all that is left below. -/
def Pass.restless : Pass StockMarker where
  contract := outline
  filter? := none
  body site := .ask (.add site.target .method "g") fun
    | .ok made => .ask (.clone made site.target) fun _ => .ask (.remove made) fun _ =>
        .ask (.remove root) fun _ => .ask (.remove site.target) fun _ => .done (.ok ())
    | .error error => .done (.error (.failed error))

/-- Of four nodes two are left: two were made and four taken out. -/
theorem books_balance_restless : ∃ r : Run StockMarker,
    (Engine.alone .restless).execute outlines (.new Tree.sample ∅) =
      (.ok [⟨"outline", .type, 1, 1, 0, 2, 4⟩], r) ∧
    r.session.tree.size = 2 ∧ r.session.tree.next = 6 := by
  have hconfined : ∀ p ∈ (Engine.alone .restless).crew, p.Confined := by
    intro p hp site
    cases List.mem_singleton.1 (show p ∈ [Pass.restless] from hp)
    refine ⟨trivial, fun reply => ?_⟩
    cases reply with
    | ok made => exact ⟨trivial, fun _ => ⟨trivial, fun _ => ⟨trivial, fun _ => ⟨trivial, fun _ => trivial⟩⟩⟩⟩
    | error error => trivial
  have reported : ((Engine.alone .restless).execute outlines (.new Tree.sample ∅)).1 =
      .ok [⟨"outline", .type, 1, 1, 0, 2, 4⟩] := by cbv
  rcases he : (Engine.alone .restless).execute outlines (.new Tree.sample ∅) with ⟨result, r⟩
  obtain rfl : result = .ok [⟨"outline", .type, 1, 1, 0, 2, 4⟩] := by rw [← reported, he]
  obtain ⟨-, -, size, next⟩ := books_balance (.alone .restless) outlines (.new Tree.sample ∅) _ r
    Tree.built_sample.wellFormed hconfined he
  exact ⟨r, rfl, Nat.add_right_cancel size, next⟩

open Engine in
/-- With many workers the books need not balance: a copy that nobody knows of, as its clone was broken off
    by a sibling, is in the tree and in no report. -/
theorem raced_books_do_not_balance : ∃ (reports : List StepReport) (r : Run StockMarker),
    Pass.sweeping.Proper ∧
    Executes (.alone .sweeping) .many sweeps (.new Tree.pair ∅) (.ok reports) r ∧
    r.session.tree.size + (reports.map StepReport.removed).sum ≠
      Tree.pair.size + (reports.map StepReport.created).sum ∧
    r.session.tree.next ≠ Tree.pair.next + (reports.map StepReport.created).sum := by
  have hprep : (alone .sweeping).prepare unswept.session (.ofInitial sweeps.initial) (.ofContract sweep) =
      .ok (.sweeping, [2, 4]) := by cbv
  obtain ⟨r, hperforms, htree, -⟩ := sweeping_races
  refine ⟨[⟨"sweep", .type, 2, 2, 0, 0, 1⟩], r, Pass.proper_sweeping,
    .ended rfl (.next hprep hperforms .nil) (by simp), ?_, ?_⟩
  · rw [htree]
    decide
  · rw [htree]
    decide

end Trellis
