/-
  Trellis.Proofs.Planner.RemovalFree — planning succeeds where nothing is removed and nothing
  goes round in a circle.

  A unit precedes another if it adds a fact that the other needs, or if the other uses it
  (`Precedes`). If no eligible unit precedes itself along any way, each stands at a depth, and
  below whatever precedes it (`depth_lt`). Then no forced edge closes a cycle, and every supplier
  of a need will do for it: the search for links costs one unit a need and fails only at a need
  that has no supplier at all (`support_easy`).

  Such a need is one that its own unit was wrongly counted on for when the selection was closed.
  Its fact is derivable, so there is a reachable producer that does not need it
  (`Derivable.exists_producer`); that one is not selected yet and can be.

  - `removal_free_plans`: if the goal is derivable and the needs are within the budget, a plan is
    answered.
-/
import Mathlib
import Trellis.Proofs.Planner.Derivable
import Trellis.Proofs.Planner.Soundness

namespace Trellis.Planner

open Relation Selection

/-! ## The search without threats -/

/-- Nobody removes the fact, and all suppliers stand below the consumer. -/
structure Need.Easy (rank : Nat → Nat) (need : Need) : Prop where
  unthreatened : need.removers = []
  below : ∀ s ∈ need.suppliers, rank s < rank need.consumer

theorem Effort.charge_eq_some {e : Effort} (h : e.spent < budget) :
    e.charge = some { e with spent := e.spent + 1 } := by
  rw [charge, if_neg (Nat.ne_of_lt h)]

section Search

variable {rank : Nat → Nat} {p : Precedence} {e : Effort} {next : Search}

/-- Linking to a supplier below the consumer costs one unit and leads straight on. -/
theorem charged_ordering {a b : Nat} (hp : p.Respects rank) (hab : rank a < rank b)
    (he : e.spent < Effort.budget) :
    next.charged.ordering a b p e = next (p.add a b) { e with spent := e.spent + 1 } := by
  have hba : p.reaches b a ≠ true := by
    intro h
    rcases hp b a h with rfl | h
    · exact Nat.lt_irrefl _ hab
    · exact Nat.lt_asymm hab h
  rw [Search.ordering, if_neg hba, Search.charged, Effort.charge_eq_some he]

theorem support_easy {needs : List Need} (hn : ∀ need ∈ needs, need.Easy rank) (hp : p.Respects rank)
    (hb : e.spent + needs.length ≤ Effort.budget) (hu : e.unsupported = none) :
    (support needs p e).1.isSome = true ∨
      ∃ need ∈ needs, need.suppliers = [] ∧ (support needs p e).2.unsupported = some need := by
  induction needs generalizing p e with
  | nil => exact .inl rfl
  | cons need needs ih =>
    obtain ⟨⟨hrem, hbelow⟩, hn⟩ := List.forall_mem_cons.1 hn
    rw [List.length_cons] at hb
    rw [support]
    cases hs : need.suppliers with
    | nil =>
      refine .inr ⟨need, List.mem_cons_self, hs, ?_⟩
      simp [link, Effort.blame, hu]
    | cons s suppliers =>
      have hlt : rank s < rank need.consumer := hbelow s (hs ▸ List.mem_cons_self)
      have hrest := @ih (p.add s need.consumer) { e with spent := e.spent + 1 } hn (hp.add hlt)
        (show e.spent + 1 + needs.length ≤ Effort.budget by omega) hu
      rw [link, hrem, Search.orElse, protect, charged_ordering hp hlt (by omega)]
      split
      · exact .inl rfl
      · -- A need further down has no supplier; what is tried after that does not change the blame.
        rename_i e' he
        rw [he] at hrest
        obtain ⟨lacking, hl, hnone, hblamed⟩ := hrest.resolve_left (by simp)
        have kept := link_preserves (closed_unsupported lacking)
          (support_preserves (closed_unsupported lacking) needs) need suppliers
        exact .inr ⟨lacking, List.mem_cons_of_mem _ hl, hnone, kept p e' hblamed⟩

end Search

/-! ## Selections -/

namespace Selection

variable {s : Selection} {depth : Contract → Nat}

/-- Nothing is removed, and units are deeper than those they use and those that supply them. -/
structure Layered (s : Selection) (depth : Contract → Nat) : Prop where
  removeless : ∀ c ∈ s.units, ∀ f, f ∉ c.removes
  deeper : ∀ u ∈ s.units, ∀ v ∈ s.units, u ≠ v →
    (∃ f ∈ v.needs, f ∈ u.adds) ∨ u.name ∈ v.uses → depth u < depth v

/-- The depth of a node: the start above all units, the end below them. -/
def level (s : Selection) (depth : Contract → Nat) (node : Nat) : Nat :=
  if node = s.startNode then 0
  else match s.units[node]? with
    | some c => depth c + 1
    | none => (s.units.map depth).sum + 2

theorem level_start : s.level depth s.startNode = 0 := if_pos rfl

theorem level_unit {i : Nat} {c : Contract} (hi : s.units[i]? = some c) :
    s.level depth i = depth c + 1 := by
  have hne : i ≠ s.startNode := Nat.ne_of_lt (lt_length_of_getElem? hi)
  rw [level, if_neg hne, hi]

theorem level_end : s.level depth s.endNode = (s.units.map depth).sum + 2 := by
  have hne : s.endNode ≠ s.startNode := Nat.succ_ne_self _
  rw [level, if_neg hne, getElem?_endNode]

theorem level_unit_lt_end {i : Nat} {c : Contract} (hi : s.units[i]? = some c) :
    s.level depth i < s.level depth s.endNode := by
  have hle : depth c ≤ (s.units.map depth).sum :=
    List.le_sum_of_mem (List.mem_map_of_mem (List.mem_of_getElem? hi))
  rw [level_unit hi, level_end]
  omega

theorem length_needs (s : Selection) :
    s.needs.length = (s.units.map (·.needs.size)).sum + s.required.size := by
  have hunits : s.units.zipIdx.map (fun u => u.1.needs.size) = s.units.map (·.needs.size) := by
    rw [show (fun u : Contract × Nat => u.1.needs.size) = (·.needs.size) ∘ Prod.fst from rfl,
      ← List.map_map, List.zipIdx_map_fst]
  simp only [needs, List.length_append, List.length_flatMap, List.length_map]
  rw [← hunits]
  rfl

namespace Layered

variable (h : s.Layered depth) (hn : s.Named)

include h hn

theorem supplier_lt {i consumer : Nat} {u v : Contract} {f : Fact} (hu : s.units[i]? = some u)
    (hv : s.units[consumer]? = some v) (hne : i ≠ consumer) (hf : f ∈ v.needs) (hadd : f ∈ u.adds) :
    s.level depth i < s.level depth consumer := by
  have huv : u ≠ v := by
    intro e
    exact hne (eq_of_getElem?_of_nodup hn hu hv (by rw [e]))
  have := h.deeper u (List.mem_of_getElem? hu) v (List.mem_of_getElem? hv) huv (.inl ⟨f, hf, hadd⟩)
  rw [level_unit hu, level_unit hv]
  omega

theorem easy : ∀ need ∈ s.needs, need.Easy (s.level depth) := by
  intro need hneed
  constructor
  · have none_removes (consumer : Nat) (f : Fact) : (s.need consumer f).removers = [] := by
      refine List.eq_nil_iff_forall_not_mem.2 fun r hr => ?_
      obtain ⟨c, hc, hrem⟩ := mem_removers.1 hr
      exact h.removeless c (List.mem_of_getElem? hc) f hrem
    rcases mem_needs.1 hneed with ⟨i, c, f, -, -, rfl⟩ | ⟨f, -, rfl⟩
    · exact none_removes i f
    · exact none_removes s.endNode f
  · intro x hx
    rcases mem_needs.1 hneed with ⟨i, c, f, hi, hf, rfl⟩ | ⟨f, -, rfl⟩
    · show s.level depth x < s.level depth i
      rcases mem_suppliers.1 hx with ⟨rfl, -⟩ | ⟨hne, u, hu, hadd⟩
      · rw [level_start, level_unit hi]
        exact Nat.succ_pos _
      · exact h.supplier_lt hn hu hi hne hf hadd
    · show s.level depth x < s.level depth s.endNode
      rcases mem_suppliers.1 hx with ⟨rfl, -⟩ | ⟨-, u, hu, -⟩
      · rw [level_start, level_end]
        exact Nat.succ_pos _
      · exact level_unit_lt_end hu

theorem ascends : s.forced.Ascends (s.level depth) := by
  intro e he
  rcases mem_forced.1 he with he | he | he
  · rcases mem_frame.1 he with rfl | ⟨i, hi, rfl | rfl⟩
    · rw [level_start, level_end]
      exact Nat.succ_pos _
    · rw [level_start, level_unit (List.getElem?_eq_getElem hi)]
      exact Nat.succ_pos _
    · exact level_unit_lt_end (List.getElem?_eq_getElem hi)
  · obtain ⟨u, c, name, v, hc, hname, hv, hvu, rfl⟩ := mem_useEdges.1 he
    obtain ⟨hlt, hd, -⟩ := List.findIdx?_eq_some_iff_getElem.1 hv
    have hv : s.units[v]? = some s.units[v] := List.getElem?_eq_getElem hlt
    have hne : s.units[v] ≠ c := by
      intro e
      exact hvu (eq_of_getElem?_of_nodup hn hv hc (by rw [e]))
    have hused : s.units[v].name ∈ c.uses := by
      rw [of_decide_eq_true hd]
      exact hname
    have := h.deeper _ (List.mem_of_getElem? hv) c (List.mem_of_getElem? hc) hne (.inr hused)
    rw [level_unit hv, level_unit hc]
    omega
  · obtain ⟨need, hneed, only, hs, -, rfl⟩ := mem_soleEdges.1 he
    exact (h.easy hn need hneed).below only (hs ▸ List.mem_cons_self)

/-- Within the budget there is an order, unless some need has no supplier. -/
theorem attempt (hb : s.needs.length ≤ Effort.budget) :
    (∃ order final, s.attempt.outcome = .ok (.done order final)) ∨
      ∃ need ∈ s.needs, need.suppliers = [] ∧
        s.attempt.outcome = .ok (.stuck need.fact (s.requester need.consumer)) := by
  have hacyclic := Graph.findCycle_eq_none.2 (h.ascends hn).acyclic
  rcases attempt_cases s with ⟨cycle, hc, -⟩ | ⟨-, ⟨_, e, hs, -⟩ | ⟨_, _, _, -, -, -, ha⟩⟩
  · rw [hacyclic] at hc
    cases hc
  · have hnone : (s.searchLinks s.forced).1 = none := by rw [hs]
    have hfound := support_easy (h.easy hn) (Precedence.respects_ofGraph (h.ascends hn))
      (e := .none) (by simpa [Effort.none] using hb) rfl
    rw [← searchLinks, hnone] at hfound
    obtain ⟨need, hneed, hlack, hblamed⟩ := hfound.resolve_left (by simp)
    exact .inr ⟨need, hneed, hlack, attempt_of_unsupported hacyclic hnone hblamed⟩
  · exact .inl ⟨_, _, by rw [ha]⟩

end Layered

end Selection

/-! ## Producers -/

namespace Problem

variable {p : Problem} {f : Fact} {requester : String} {selected passed : List Contract}

/-- All units of the selection are reachable units of the line-up. -/
def Ready (p : Problem) (selected : List Contract) : Prop :=
  ∀ c ∈ selected, c ∈ p.lineup ∧ p.reachable c = true

theorem Ready.drawn (h : p.Ready selected) : p.Drawn selected :=
  fun c hc => ⟨(h c hc).1, (reachable_iff.1 (h c hc).2).1⟩

/-- Whatever a reachable unit asks for is derivable. -/
theorem derivable_of_mem_requests {c : Contract} (hr : p.reachable c = true) :
    ∀ r ∈ requests c, r.1 ∈ p.derivable := by
  intro r hm
  obtain ⟨f, hf, rfl⟩ := List.mem_map.1 hm
  exact (reachable_iff.1 hr).2 f hf

/-- If a reachable unit could be chosen, one is. -/
theorem chooseProducer_reachable {d : Contract} (hd : d ∈ p.candidates f passed)
    (hr : p.reachable d = true) :
    ∃ c, p.chooseProducer f requester passed = .ok c ∧ c ∈ p.lineup ∧ p.reachable c = true := by
  rw [chooseProducer]
  split
  · rename_i c hc
    obtain ⟨⟨hl, -⟩, -⟩ := mem_candidates.1 (List.mem_of_find?_eq_some hc)
    exact ⟨c, rfl, hl, List.find?_some hc⟩
  · rename_i hnone
    exact absurd hr (List.find?_eq_none.1 hnone d hd)

theorem chooseProducer_of_derivable (requester : String) (hf : f ∈ p.derivable)
    (hcov : ¬ p.covered selected f = true) :
    ∃ c, p.chooseProducer f requester [] = .ok c ∧ c ∈ p.lineup ∧ p.reachable c = true := by
  have hnew : f ∉ p.initial := by
    intro hi
    exact hcov (by simp [covered, hi])
  obtain ⟨d, hl, hr, hadd, -⟩ := exists_producer hf hnew
  exact chooseProducer_reachable
    (mem_candidates.2 ⟨⟨hl, hadd⟩, (reachable_iff.1 hr).1, List.not_mem_nil⟩) hr

theorem close_ready {queue : List Request} (hq : ∀ r ∈ queue, r.1 ∈ p.derivable)
    (h : p.Ready selected) : ∃ closed, p.close queue selected = .ok closed ∧ p.Ready closed := by
  fun_induction p.close queue selected with
  | case1 selected => exact ⟨selected, rfl, h⟩
  | case2 _ _ _ _ _ ih => exact ih (List.forall_mem_cons.1 hq).2 h
  | case3 selected f r queue hcov c chosen ih =>
    obtain ⟨hf, hq⟩ := List.forall_mem_cons.1 hq
    obtain ⟨c', hc', hl, hr⟩ := chooseProducer_of_derivable r hf hcov
    rw [chosen] at hc'
    cases hc'
    refine ih ?_ (List.forall_mem_cons.2 ⟨⟨hl, hr⟩, h⟩)
    intro q hm
    rcases List.mem_append.1 hm with hm | hm
    · exact hq q hm
    · exact derivable_of_mem_requests hr q hm
  | case4 selected f r queue hcov e chosen =>
    obtain ⟨c, hc, -⟩ :=
      chooseProducer_of_derivable r (List.forall_mem_cons.1 hq).1 hcov
    rw [chosen] at hc
    cases hc

/-- A need that no selected unit supplies has a reachable producer left to select. -/
theorem exists_candidate {required : FactSet} (h : p.Ready selected)
    (hrequired : ∀ f ∈ required, f ∈ p.derivable) {need : Need}
    (hneed : need ∈ (p.selection required selected).needs) (hlack : need.suppliers = []) :
    ∃ d ∈ p.candidates need.fact selected, p.reachable d = true := by
  have lacking {consumer : Nat} {f : Fact} (hf : f ∈ p.derivable)
      (hself : ∀ c, (p.selection required selected).units[consumer]? = some c → f ∈ c.needs)
      (hnone : (p.selection required selected).suppliers consumer f = []) :
      ∃ d ∈ p.candidates f selected, p.reachable d = true := by
    have none_supplies (x : Nat) : x ∉ (p.selection required selected).suppliers consumer f := by
      rw [hnone]
      exact List.not_mem_nil
    have hnew : f ∉ p.initial := fun hi => none_supplies _ (mem_suppliers.2 (.inl ⟨rfl, hi⟩))
    obtain ⟨d, hl, hr, hadd, hdneed⟩ := exists_producer hf hnew
    refine ⟨d, mem_candidates.2 ⟨⟨hl, hadd⟩, (reachable_iff.1 hr).1, fun hsel => ?_⟩, hr⟩
    obtain ⟨i, hi⟩ := List.mem_iff_getElem?.1 (mem_units_selection.2 ⟨hl, hsel⟩)
    refine none_supplies i (mem_suppliers.2 (.inr ⟨?_, d, hi, hadd⟩))
    rintro rfl
    exact hdneed (hself d hi)
  rcases mem_needs.1 hneed with ⟨i, c, f, hi, hf, rfl⟩ | ⟨f, hf, rfl⟩
  · have hc := (h c (mem_units_selection.1 (List.mem_of_getElem? hi)).2).2
    refine lacking ((reachable_iff.1 hc).2 f hf) ?_ hlack
    intro d hd
    rw [hi] at hd
    cases hd
    exact hf
  · refine lacking (hrequired f hf) ?_ hlack
    intro d hd
    rw [getElem?_endNode] at hd
    cases hd

/-- Reachable units can be ordered, up to needs that no selected unit supplies. -/
structure Manageable (p : Problem) (required : FactSet) (depth : Contract → Nat) : Prop where
  derivable : ∀ f ∈ required, f ∈ p.derivable
  named : ∀ selected, (p.selection required selected).Named
  layered : ∀ selected, p.Ready selected → (p.selection required selected).Layered depth
  affordable : ∀ selected, p.Ready selected →
    (p.selection required selected).needs.length ≤ Effort.budget

namespace Manageable

variable {required : FactSet} {depth : Contract → Nat} (hp : p.Manageable required depth)

include hp

/-- The selection is ordered, or one more reachable unit is selected. -/
theorem attempt (h : p.Ready selected) :
    (∃ order final, (p.selection required selected).attempt.outcome = .ok (.done order final)) ∨
      ∃ f requester c larger,
        (p.selection required selected).attempt.outcome = .ok (.stuck f requester) ∧
        p.chooseProducer f requester selected = .ok c ∧ p.select c selected = .ok larger ∧
        p.Ready larger := by
  have ordered := (hp.layered selected h).attempt (hp.named selected) (hp.affordable selected h)
  refine ordered.imp_right ?_
  intro hstuck
  obtain ⟨need, hneed, hlack, hattempt⟩ := hstuck
  obtain ⟨d, hd, hr⟩ := exists_candidate h hp.derivable hneed hlack
  obtain ⟨c, hc, hl, hr⟩ := chooseProducer_reachable hd hr
  obtain ⟨larger, hlarger, hready⟩ :=
    close_ready (derivable_of_mem_requests hr) (List.forall_mem_cons.2 ⟨⟨hl, hr⟩, h⟩)
  exact ⟨_, _, c, larger, hattempt, hc, hlarger, hready⟩

theorem settle (h : p.Ready selected) : ∃ result, (p.settle required selected).outcome = .ok result := by
  fun_induction p.settle required selected with
  | case1 selected _ _ e he =>
    rcases hp.attempt h with ⟨_, _, ha⟩ | ⟨_, _, _, _, ha, -⟩
    · cases he.symm.trans ha
    · cases he.symm.trans ha
  | case2 selected _ _ order final => exact ⟨_, rfl⟩
  | case3 selected _ _ f r hf e he =>
    rcases hp.attempt h with ⟨_, _, ha⟩ | ⟨_, _, _, _, ha, hc, -⟩
    · cases hf.symm.trans ha
    · cases hf.symm.trans ha
      cases he.symm.trans hc
  | case4 selected _ _ f r hf c hc e he =>
    rcases hp.attempt h with ⟨_, _, ha⟩ | ⟨_, _, _, _, ha, hc', hl, -⟩
    · cases hf.symm.trans ha
    · cases hf.symm.trans ha
      cases hc.symm.trans hc'
      cases he.symm.trans hl
  | case5 selected _ _ f r hf c hc larger hl _ ih =>
    rcases hp.attempt h with ⟨_, _, ha⟩ | ⟨_, _, _, _, ha, hc', hl', hready⟩
    · cases hf.symm.trans ha
    · cases hf.symm.trans ha
      cases hc.symm.trans hc'
      cases hl.symm.trans hl'
      exact ih hready

end Manageable

theorem Manageable.solve {goal : Goal} {depth : Contract → Nat}
    (hp : p.Manageable goal.required depth) :
    ∃ result, (p.solve goal).outcome = .ok result := by
  have started : ∃ selected, p.initialSelection goal = .ok selected ∧ p.Ready selected := by
    cases goal with
    | maximal => exact ⟨_, rfl, fun c hc => List.mem_filter.1 hc⟩
    | facts fs =>
      refine close_ready ?_ fun c hc => absurd hc List.not_mem_nil
      intro r hr
      obtain ⟨f, hf, rfl⟩ := List.mem_map.1 hr
      exact hp.derivable f hf
  obtain ⟨selected, hsel, hready⟩ := started
  rw [Problem.solve, hsel]
  exact hp.settle hready

end Problem

/-! ## Catalogs -/

/-- One eligible unit supplies or is used by another. -/
structure Precedes (cat : Catalog) (features : Features) (u v : Contract) : Prop where
  before : u ∈ cat ∧ eligible features u = true
  after : v ∈ cat ∧ eligible features v = true
  ne : u ≠ v
  linked : (∃ f ∈ v.needs, f ∈ u.adds) ∨ u.name ∈ v.uses

variable {cat : Catalog} {features : Features} {initial required : FactSet} {u v : Contract}

open Classical in
/-- How many units precede a unit, along whatever way. -/
noncomputable def depth (cat : Catalog) (features : Features) (v : Contract) : Nat :=
  (cat.toList.toFinset.filter fun u => TransGen (Precedes cat features) u v).card

theorem depth_lt (hacyclic : ∀ c, ¬ TransGen (Precedes cat features) c c)
    (h : Precedes cat features u v) : depth cat features u < depth cat features v := by
  classical
  refine Finset.card_lt_card (Finset.ssubset_iff_of_subset ?_ |>.2 ⟨u, ?_, ?_⟩)
  · intro w hw
    obtain ⟨hw, hu⟩ := Finset.mem_filter.1 hw
    exact Finset.mem_filter.2 ⟨hw, hu.tail h⟩
  · exact Finset.mem_filter.2 ⟨List.mem_toFinset.2 h.before.1, .single h⟩
  · intro hu
    exact hacyclic u (Finset.mem_filter.1 hu).2

namespace Problem

variable {selected : List Contract}

theorem eligible_of_drawn (h : (new cat features initial).Drawn selected) :
    ∀ c ∈ ((new cat features initial).selection required selected).units,
      c ∈ cat ∧ Planner.eligible features c = true := by
  intro c hc
  obtain ⟨hl, hs⟩ := mem_units_selection.1 hc
  exact ⟨mem_lineup.1 hl, (h c hs).2⟩

theorem layered_selection
    (hremove : ∀ c ∈ cat, Planner.eligible features c = true → ∀ f, f ∉ c.removes)
    (hacyclic : ∀ c, ¬ TransGen (Precedes cat features) c c)
    (h : (new cat features initial).Drawn selected) :
    ((new cat features initial).selection required selected).Layered (depth cat features) where
  removeless c hc := by
    obtain ⟨hcat, he⟩ := eligible_of_drawn h c hc
    exact hremove c hcat he
  deeper u hu v hv hne hlinked :=
    depth_lt hacyclic ⟨eligible_of_drawn h u hu, eligible_of_drawn h v hv, hne, hlinked⟩

/-- A selection needs no more than all eligible units do. -/
theorem length_needs_le (h : (new cat features initial).Drawn selected) :
    ((new cat features initial).selection required selected).needs.length ≤
      ((cat.toList.filter (Planner.eligible features)).map (·.needs.size)).sum + required.size := by
  have hsub : ((new cat features initial).selection required selected).units.Subperm
      (cat.toList.filter (Planner.eligible features)) := by
    refine List.subperm_of_subset (named_selection cat features initial required selected).nodup ?_
    intro c hc
    exact List.mem_filter.2 (eligible_of_drawn h c hc)
  obtain ⟨units, hperm, hsub⟩ := hsub
  have hle := (hsub.map (·.needs.size)).sum_le_sum fun _ _ => Nat.zero_le _
  rw [(hperm.map _).sum_eq] at hle
  rw [Selection.length_needs]
  exact Nat.add_le_add_right hle _

end Problem

variable {goal : Goal}

/-- If no eligible unit removes a fact or precedes itself, everything that can be derived can be
    planned for, within the budget of the search. -/
theorem removal_free_plans (config : Config)
    (hremove : ∀ c ∈ cat, eligible features c = true → ∀ f, f ∉ c.removes)
    (hacyclic : ∀ c, ¬ TransGen (Precedes cat features) c c)
    (hgoal : ∀ f ∈ goal.required, Derivable cat features initial f)
    (hvalid : validated config cat initial = .ok ())
    (hbudget : ((cat.toList.filter (eligible features)).map (·.needs.size)).sum
      + goal.required.size ≤ 100000) :
    ∃ q, plan cat features config initial goal = .ok q := by
  have manageable : (Problem.new cat features initial).Manageable goal.required
      (depth cat features) :=
    { derivable := fun f hf => Problem.mem_derivable.2 (hgoal f hf)
      named := named_selection cat features initial goal.required
      layered := fun _ h => Problem.layered_selection hremove hacyclic h.drawn
      affordable := fun _ h => (Problem.length_needs_le h.drawn).trans hbudget }
  obtain ⟨⟨settled, order, final⟩, hsolve⟩ := manageable.solve
  exact ⟨_, bind_eq_ok.2 ⟨(), hvalid, bind_eq_ok.2 ⟨_, hsolve, rfl⟩⟩⟩

/-- Adds the fact that `refresh` needs. -/
def load : Contract where
  name := "load"
  description := ""
  granularity := .method
  needs := ∅
  adds := Sorted.ofList [raw]
  removes := ∅
  features := ∅
  uses := ∅
  exclusive := false
  orderHint := 1

/-- Adds again the fact that it needs. -/
def refresh : Contract where
  name := "refresh"
  description := ""
  granularity := .method
  needs := Sorted.ofList [raw]
  adds := Sorted.ofList [raw, lowered]
  removes := ∅
  features := ∅
  uses := ∅
  exclusive := false
  orderHint := 0

/-- Loading, and a unit that adds again what it needs. -/
def reloading : Problem := .new (Sorted.ofList [load, refresh]) ∅ ∅

def reloading.attempt (selected : List Contract) : Attempt :=
  (reloading.selection (Sorted.ofList [lowered]) selected).attempt

/-- Closing the goal selects `refresh` alone; that it cannot supply itself shows only when ordering
    gets stuck, and `load` joins in. -/
theorem removal_free_plans_refresh :
    ∃ q, plan (Sorted.ofList [load, refresh]) ∅ .default ∅ (.facts (Sorted.ofList [lowered]))
      = .ok q ∧ q.units = ["load", "refresh"] := by
  let goal : Goal := .facts (Sorted.ofList [lowered])
  let final : FactSet := Sorted.ofList [raw, lowered]
  have selects : reloading.initialSelection goal = .ok [refresh] := by cbv
  have stuck : (reloading.attempt [refresh]).outcome = .ok (.stuck raw "refresh") := by cbv
  have done : (reloading.attempt [load, refresh]).outcome = .ok (.done [load, refresh] final) := by cbv
  have chosen : reloading.chooseProducer raw "refresh" [refresh] = .ok load := by cbv
  have closed : reloading.select load [refresh] = .ok [load, refresh] := by cbv
  have solves : (reloading.solve goal).outcome = .ok ([load, refresh], [load, refresh], final) := by
    rw [Problem.solve, selects]
    refine (congrArg Course.outcome (Problem.settle_of_stuck stuck chosen closed)).trans ?_
    rw [Problem.settle_of_done done]
  have steps : ∀ q, plan (Sorted.ofList [load, refresh]) ∅ .default ∅ goal = .ok q →
      q.units = ["load", "refresh"] := by
    intro q hq
    obtain ⟨-, settled, order, final', hsolve, rfl⟩ := solve_of_plan hq
    cases solves.symm.trans hsolve
    rfl
  have units (c : Contract) (hc : c ∈ (Sorted.ofList [load, refresh] : Catalog)) :
      c = load ∨ c = refresh := by
    have hc : c ∈ [load, refresh] := hc
    simpa using hc
  have later (u v : Contract) (h : Precedes (Sorted.ofList [load, refresh]) ∅ u v) :
      v.orderHint < u.orderHint := by
    rcases units u h.before.1 with rfl | rfl <;> rcases units v h.after.1 with rfl | rfl
    · exact absurd rfl h.ne
    · decide
    · rcases h.linked with ⟨f, hf, -⟩ | hu
      · exact absurd hf (Sorted.not_mem_empty f)
      · exact absurd hu (Sorted.not_mem_empty _)
    · exact absurd rfl h.ne
  have far (c d : Contract) (h : TransGen (Precedes (Sorted.ofList [load, refresh]) ∅) c d) :
      d.orderHint < c.orderHint := by
    induction h with
    | single h => exact later _ _ h
    | tail _ h ih => exact (later _ _ h).trans ih
  have planned : ∃ q, plan (Sorted.ofList [load, refresh]) ∅ .default ∅ goal = .ok q := by
    refine removal_free_plans .default ?_ (fun c hc => lt_irrefl _ (far c c hc)) ?_ (by cbv) (by decide)
    · intro c hc _ f
      rcases units c hc with rfl | rfl
      · exact Sorted.not_mem_empty f
      · exact Sorted.not_mem_empty f
    · intro f hf
      obtain rfl : f = lowered := OrdSet.mem_ofList.1 hf |> List.mem_singleton.1
      refine .added (c := refresh) (by decide) (by decide) ?_ (by decide)
      intro n hn
      obtain rfl : n = raw := OrdSet.mem_ofList.1 hn |> List.mem_singleton.1
      refine .added (c := load) (by decide) (by decide) ?_ (by decide)
      exact fun m hm => absurd hm (Sorted.not_mem_empty m)
  exact planned.imp fun q hq => ⟨hq, steps q hq⟩

end Trellis.Planner
