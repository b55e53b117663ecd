/-
  Trellis.Proofs.Planner.Accounting — what a maximal plan says of every unit of the catalog.

  Ordering may enlarge a maximal selection, and with a unit that is not reachable. But whatever
  order comes out is feasible, and in a feasible order of eligible units all needs are derivable
  (`derivable_of_feasible`); so nothing is planned and called unreachable at once.

  What is said of a unit are the omissions under its name (`Plan.about`). Names are distinct in the
  line-up, so each list of omissions has at most one for it (`filter_about`).

  - `maximal_plan_accounts`: every unit is planned, and then nothing is said of it, or omitted for
    the first need that is not derivable, or gated by the first feature that is off; and which of
    these depends on what is derivable and on, not on how the plan was found.
-/
import Trellis.Proofs.Planner.Derivable
import Trellis.Proofs.Planner.Soundness

namespace Trellis

/-- The unit that is left out. -/
def Omission.unit : Omission → String
  | featureGated unit _ => unit
  | unreachable unit _ => unit

/-- What a plan says of a unit that it leaves out. -/
def Plan.about (q : Plan) (unit : String) : List Omission := q.omissions.filter (·.unit = unit)

namespace Planner

variable {cat : Catalog} {features : Features} {config : Config} {initial state : FactSet}
  {order : List Contract} {c : Contract} {f : Fact}

/-- The first in a list to have a property. -/
def IsFirst {α : Type} (P : α → Prop) (xs : List α) (x : α) : Prop :=
  P x ∧ ∃ before after, xs = before ++ x :: after ∧ ∀ y ∈ before, ¬ P y

theorem isFirst_of_find? {α : Type} {P : α → Prop} [DecidablePred P] {xs : List α} {x : α}
    (h : xs.find? (fun y => P y) = some x) : IsFirst P xs x := by
  obtain ⟨hx, before, after, hxs, hbefore⟩ := List.find?_eq_some_iff_append.1 h
  refine ⟨of_decide_eq_true hx, before, after, hxs, fun y hy => ?_⟩
  simpa using hbefore y hy

theorem IsFirst.imp {α : Type} {P Q : α → Prop} {xs : List α} {x : α} (h : IsFirst P xs x)
    (hPQ : ∀ y, P y ↔ Q y) : IsFirst Q xs x := by
  obtain ⟨hx, before, after, hxs, hbefore⟩ := h
  exact ⟨(hPQ x).1 hx, before, after, hxs, fun y hy hQ => hbefore y hy ((hPQ y).2 hQ)⟩

/-! ## Planned units -/

/-- In an order of eligible units each of which finds what it needs, all needs are derivable. -/
theorem derivable_of_feasible (hstate : ∀ f ∈ state, Derivable cat features initial f)
    (horder : ∀ c ∈ order, c ∈ cat ∧ eligible features c = true) (h : Feasible state order) :
    ∀ c ∈ order, ∀ f ∈ c.needs, Derivable cat features initial f := by
  induction order generalizing state with
  | nil => exact fun _ hc => absurd hc List.not_mem_nil
  | cons d order ih =>
    obtain ⟨⟨hcat, he⟩, horder⟩ := List.forall_mem_cons.1 horder
    obtain ⟨hneeds, h⟩ := feasible_cons.1 h
    have hd : ∀ f ∈ d.needs, Derivable cat features initial f := fun f hf => hstate f (hneeds f hf)
    refine List.forall_mem_cons.2 ⟨hd, ih (fun f hf => ?_) horder h⟩
    rcases FactSet.mem_apply.1 hf with hadd | ⟨hf, -⟩
    · exact .added hcat he hd hadd
    · exact hstate f hf

/-- A maximal selection holds every reachable unit, however it is enlarged. -/
theorem Problem.reachable_settled {p : Problem} {settled : List Contract} {final : FactSet}
    (h : (p.solve .maximal).outcome = .ok (settled, order, final)) (hc : c ∈ p.lineup)
    (hr : p.reachable c = true) : c ∈ settled := by
  have hsel : p.initialSelection .maximal = .ok (p.lineup.toList.filter p.reachable) := rfl
  obtain ⟨-, hsub, -⟩ := settle_ok (drawn_initialSelection hsel) h
  exact hsub (List.mem_filter.2 ⟨hc, hr⟩)

/-- The units of a maximal order are those whose features are on and whose needs are derivable. -/
theorem mem_maximal_order {settled : List Contract} {final : FactSet}
    (h : ((Problem.new cat features initial).solve .maximal).outcome = .ok (settled, order, final))
    (hc : c ∈ cat) : c ∈ order ↔
      eligible features c = true ∧ ∀ f ∈ c.needs, Derivable cat features initial f := by
  constructor
  · intro ho
    obtain ⟨-, hsolves, -⟩ := solves_of_solve h
    have registered := registered_of_solve h
    have hneeds := derivable_of_feasible (fun _ hf => .given hf) registered hsolves.feasible
    exact ⟨(registered c ho).2, hneeds c ho⟩
  · intro ⟨he, hneeds⟩
    have hr : (Problem.new cat features initial).reachable c = true :=
      Problem.reachable_iff.2 ⟨he, fun f hf => Problem.mem_derivable.2 (hneeds f hf)⟩
    exact (mem_order_iff h).2 (Problem.reachable_settled h (Problem.mem_lineup.2 hc) hr)

/-! ## Omitted units -/

/-- Of one list of omissions at most one is about a unit of the line-up: its own. -/
theorem filter_about {units : List Contract} (hn : (units.map Contract.name).Nodup)
    {note : Contract → Option Omission} (hnote : ∀ c o, note c = some o → o.unit = c.name)
    (hc : c ∈ units) : (units.filterMap note).filter (·.unit = c.name) = (note c).toList := by
  have single (d : Contract) : (note d).toList.filter (·.unit = c.name) =
      if d.name = c.name then (note d).toList else [] := by
    cases ho : note d with
    | none => simp
    | some o => simp [hnote d o ho, List.filter_cons]
  have others (ds : List Contract) (hds : c.name ∉ ds.map Contract.name) :
      (ds.filterMap note).filter (·.unit = c.name) = [] := by
    refine List.filter_eq_nil_iff.2 fun o ho => ?_
    obtain ⟨d, hd, hdo⟩ := List.mem_filterMap.1 ho
    have hne : d.name ≠ c.name := fun e => hds (List.mem_map.2 ⟨d, hd, e⟩)
    simpa [hnote d o hdo] using hne
  induction units with
  | nil => cases hc
  | cons d units ih =>
    obtain ⟨hd, hn⟩ := List.nodup_cons.1 hn
    have split : (d :: units).filterMap note = (note d).toList ++ units.filterMap note := by
      cases ho : note d <;> simp [ho]
    rw [split, List.filter_append, single]
    rcases List.mem_cons.1 hc with rfl | hc
    · rw [if_pos rfl, others units hd, List.append_nil]
    · have hne : d.name ≠ c.name := fun e => hd (e ▸ List.mem_map_of_mem hc)
      rw [if_neg hne, ih hn hc, List.nil_append]

namespace Problem

variable {p : Problem}

/-- What is said of a unit that cannot be reached. -/
def unreachableNote (p : Problem) (c : Contract) : Option Omission :=
  if p.eligible c then (p.derivable.firstMissing c.needs).map (.unreachable c.name ·) else none

/-- What is said of a unit whose features are not all on. -/
def gatedNote (p : Problem) (policy : GatePolicy) (c : Contract) : Option Omission :=
  if policy = .warn then (p.firstDisabled c).map (.featureGated c.name ·) else none

theorem omissions_maximal (policy : GatePolicy) (selected : List Contract) :
    p.omissions policy .maximal selected =
      p.lineup.toList.filterMap p.unreachableNote ++ p.lineup.toList.filterMap (p.gatedNote policy) := by
  rw [omissions, if_pos rfl, unreachable, List.filterMap_filter]
  congr 1
  cases policy with
  | silent => simp [gatedNote]
  | warn =>
    simp only [gated, decide_true, Bool.true_or, if_true]
    rfl

theorem unit_unreachableNote {o : Omission} (h : p.unreachableNote c = some o) : o.unit = c.name := by
  rw [unreachableNote] at h
  split at h
  · obtain ⟨f, -, rfl⟩ := Option.map_eq_some_iff.1 h
    rfl
  · cases h

theorem unit_gatedNote {policy : GatePolicy} {o : Omission} (h : p.gatedNote policy c = some o) :
    o.unit = c.name := by
  rw [gatedNote] at h
  split at h
  · obtain ⟨name, -, rfl⟩ := Option.map_eq_some_iff.1 h
    rfl
  · cases h

/-- At most one omission of each kind is about a unit. -/
theorem about_omissions (policy : GatePolicy) (selected : List Contract)
    (hn : (p.lineup.toList.map Contract.name).Nodup) (hc : c ∈ p.lineup) :
    (p.omissions policy .maximal selected).filter (·.unit = c.name) =
      (p.unreachableNote c).toList ++ (p.gatedNote policy c).toList := by
  rw [omissions_maximal, List.filter_append, filter_about hn (fun _ _ => unit_unreachableNote) hc,
    filter_about hn (fun _ _ => unit_gatedNote) hc]

theorem exists_of_mem_omissions {policy : GatePolicy} {selected : List Contract} {o : Omission}
    (h : o ∈ p.omissions policy .maximal selected) : ∃ c ∈ p.lineup, o.unit = c.name := by
  rw [omissions_maximal, List.mem_append, List.mem_filterMap, List.mem_filterMap] at h
  rcases h with ⟨c, hc, ho⟩ | ⟨c, hc, ho⟩
  · exact ⟨c, hc, unit_unreachableNote ho⟩
  · exact ⟨c, hc, unit_gatedNote ho⟩

end Problem

/-! ## The accounts -/

/-- All features of the unit are on. -/
def Enabled (features : Features) (c : Contract) : Prop :=
  ∀ name ∈ c.features, features.isEnabled name = true

/-- What is said of a unit, by what is on and what is derivable. -/
structure Noted (cat : Catalog) (features : Features) (policy : GatePolicy) (initial : FactSet)
    (c : Contract) (said : List Omission) : Prop where
  /-- Nothing, if it is planned. -/
  tacit : Enabled features c → (∀ f ∈ c.needs, Derivable cat features initial f) → said = []
  /-- It is omitted for the first need that is not derivable. -/
  unreachable : Enabled features c → (¬ ∀ f ∈ c.needs, Derivable cat features initial f) →
    ∃ f, IsFirst (¬ Derivable cat features initial ·) c.needs.toList f ∧
      said = [.unreachable c.name f]
  /-- It is gated by the first feature that is off, if this is to be said. -/
  gated : ¬ Enabled features c →
    ∃ name, IsFirst (features.isEnabled · = false) c.features.toList name ∧
      said = if policy = .warn then [.featureGated c.name name] else []

theorem isFirst_of_firstMissing
    (h : (Problem.new cat features initial).derivable.firstMissing c.needs = some f) :
    IsFirst (¬ Derivable cat features initial ·) c.needs.toList f :=
  (isFirst_of_find? h).imp fun _ => not_congr Problem.mem_derivable

theorem isFirst_of_firstDisabled {name : String}
    (h : features.firstDisabled c.features.toList = some name) :
    IsFirst (features.isEnabled · = false) c.features.toList name := by
  refine isFirst_of_find? (P := (features.isEnabled · = false)) (Eq.trans ?_ h)
  congr 1
  funext feature
  simp

theorem noted_new (cat : Catalog) (features : Features) (policy : GatePolicy) (initial : FactSet)
    (c : Contract) : Noted cat features policy initial c
      (((Problem.new cat features initial).unreachableNote c).toList
        ++ ((Problem.new cat features initial).gatedNote policy c).toList) := by
  let p := Problem.new cat features initial
  have missing : p.derivable.firstMissing c.needs = none ↔ ∀ f ∈ c.needs, Derivable cat features initial f := by
    rw [FactSet.firstMissing_eq_none]
    exact forall₂_congr fun f _ => Problem.mem_derivable
  have ungated (he : Enabled features c) : p.gatedNote policy c = none := by
    have hnone : p.firstDisabled c = none := Option.isNone_iff_eq_none.1 (eligible_iff.2 he)
    simp [Problem.gatedNote, hnone]
  constructor
  · intro he hneeds
    have hnone : p.unreachableNote c = none := by
      simp [Problem.unreachableNote, missing.2 hneeds]
    rw [hnone, ungated he]
    rfl
  · intro he hneeds
    obtain ⟨f, hf⟩ := Option.ne_none_iff_exists'.1 (mt missing.1 hneeds)
    refine ⟨f, isFirst_of_firstMissing hf, ?_⟩
    have hon : p.eligible c = true := eligible_iff.2 he
    have hsome : p.unreachableNote c = some (.unreachable c.name f) := by
      rw [Problem.unreachableNote, if_pos hon, hf]
      rfl
    rw [hsome, ungated he]
    rfl
  · intro he
    have hgated : ¬ p.eligible c = true := fun h => he (eligible_iff.1 h)
    obtain ⟨name, hname⟩ := Option.ne_none_iff_exists'.1 (mt Option.isNone_iff_eq_none.2 hgated)
    refine ⟨name, isFirst_of_firstDisabled hname, ?_⟩
    rw [Problem.unreachableNote, if_neg hgated, Problem.gatedNote, Problem.firstDisabled, hname]
    cases policy <;> rfl

/-- What a maximal plan says of the units of a catalog. -/
structure Accounts (q : Plan) (cat : Catalog) (features : Features) (policy : GatePolicy)
    (initial : FactSet) : Prop where
  once : q.units.Nodup
  registered : ∀ name ∈ q.units, ∃ c ∈ cat, c.name = name
  planned : ∀ c ∈ cat, c.name ∈ q.units ↔
    Enabled features c ∧ ∀ f ∈ c.needs, Derivable cat features initial f
  noted : ∀ c ∈ cat, Noted cat features policy initial c (q.about c.name)
  others : ∀ o ∈ q.omissions, ∃ c ∈ cat, o.unit = c.name

/-- Every unit of the catalog is accounted for in a maximal plan. -/
theorem maximal_plan_accounts (cat : Catalog) (features : Features) (config : Config)
    (initial : FactSet) (q : Plan) (h : plan cat features config initial .maximal = .ok q) :
    Accounts q cat features config.gatePolicy initial := by
  obtain ⟨-, settled, order, final, hsolve, hq⟩ := solve_of_plan h
  have carries : Carries q cat features order := hq ▸ carries_of_solve hsolve _
  have omissions : q.omissions =
      (Problem.new cat features initial).omissions config.gatePolicy .maximal settled := by rw [hq]
  refine ⟨?once, ?registered, ?planned, ?noted, ?others⟩
  case once =>
    rw [carries.units]
    exact carries.distinct
  case registered =>
    intro name hname
    rw [carries.units] at hname
    obtain ⟨c, hc, rfl⟩ := List.mem_map.1 hname
    exact ⟨c, carries.mem_cat c hc, rfl⟩
  case planned =>
    intro c hc
    rw [Enabled, ← eligible_iff, ← mem_maximal_order hsolve hc, carries.units, List.mem_map]
    refine ⟨fun ⟨d, hd, hname⟩ => ?_, fun hc => ⟨c, hc, rfl⟩⟩
    exact Sorted.eq_of_key_eq (carries.mem_cat d hd) hc hname ▸ hd
  case noted =>
    intro c hc
    rw [Plan.about, omissions, Problem.about_omissions _ _
      (Problem.nodup_names_lineup cat features initial) (Problem.mem_lineup.2 hc)]
    exact noted_new cat features config.gatePolicy initial c
  case others =>
    intro o ho
    rw [omissions] at ho
    obtain ⟨c, hc, ho⟩ := Problem.exists_of_mem_omissions ho
    exact ⟨c, Problem.mem_lineup.1 hc, ho⟩

/-- One unit is planned, one cannot be reached and one is gated. -/
theorem maximal_plan_accounts_gated :
    ∃ q, plan (Sorted.ofList [lower, count, gatedRestore]) ∅ .default ∅ .maximal = .ok q ∧
      q.units = ["lower"] ∧
      q.omissions = [.unreachable "count" raw, .featureGated "restore" "restoring"] ∧
      Accounts q (Sorted.ofList [lower, count, gatedRestore]) ∅ .warn ∅ := by
  let q : Plan := ⟨.maximal, ∅, [.ofContract lower], Sorted.ofList [lowered],
    [.unreachable "count" raw, .featureGated "restore" "restoring"]⟩
  have h : plan (Sorted.ofList [lower, count, gatedRestore]) ∅ .default ∅ .maximal = .ok q := by cbv
  exact ⟨q, h, rfl, rfl, maximal_plan_accounts _ ∅ .default ∅ q h⟩

end Planner

end Trellis
