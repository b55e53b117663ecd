/-
  Trellis.Proofs.Planner.Circularity — the cycles that ordering reports.

  Among the units of a selection one has to precede another if the other uses it, or needs a fact
  that only it can supply (`Selection.Forces`). Between the nodes of units these are the forced
  edges (`edge_iff_forces`). The start and the end of the plan are nodes too, but no edge enters the
  one and none leaves the other, so neither is ever part of a way round (`lt_length_of_circuit`), and
  a circuit of forced edges is one of units.

  - `cycle_is_exact`: ordering reports a cycle exactly if there is one, and what it reports is one:
    it names the units of a way round, and passes none of them twice.
-/
import Mathlib.Logic.Relation
import Trellis.Proofs.Planner.Completeness

namespace Trellis.Planner.Selection

open Trellis.Graph

variable {s : Selection} {i j : Nat} {u v : Contract} {f : Fact}

/-! ## What has to precede what -/

/-- `u` has to precede `v`, which is another unit: `v` uses it, or needs a fact that does not hold
    initially and that `u` adds, but no third unit does. -/
def Forces (s : Selection) (u v : Contract) : Prop :=
  u ∈ s.units ∧ v ∈ s.units ∧ u ≠ v ∧
    (u.name ∈ v.uses ∨
      ∃ f ∈ v.needs, f ∉ s.initial ∧ f ∈ u.adds ∧ ∀ w ∈ s.units, f ∈ w.adds → w = u ∨ w = v)

theorem nodup_nodesWhere (q : Contract → Bool) : (s.nodesWhere q).Nodup := by
  have hall : (s.units.zipIdx.map Prod.snd).Nodup := by
    rw [List.zipIdx_map_snd]
    exact List.nodup_range'
  exact hall.sublist (List.filter_sublist.map Prod.snd)

/-- A fact that does not hold initially has one supplier only if no other unit adds it. -/
theorem suppliers_eq_singleton (hi : s.units[i]? = some u) (hf : f ∉ s.initial) (hadd : f ∈ u.adds)
    (hij : i ≠ j) (honly : ∀ k w, s.units[k]? = some w → f ∈ w.adds → k = i ∨ k = j) :
    s.suppliers j f = [i] := by
  have hnodup : (s.suppliers j f).Nodup := by
    rw [suppliers, if_neg hf, List.nil_append]
    exact (nodup_nodesWhere _).filter _
  have hmem (k : Nat) : k ∈ s.suppliers j f ↔ k ∈ [i] := by
    rw [mem_suppliers, List.mem_singleton]
    constructor
    · rintro (⟨-, h⟩ | ⟨hkj, w, hw, hadd⟩)
      · exact absurd h hf
      · exact (honly k w hw hadd).resolve_right hkj
    · rintro rfl
      exact .inr ⟨hij, u, hi, hadd⟩
  exact List.perm_singleton.1 ((List.perm_ext_iff_of_nodup hnodup (List.nodup_singleton i)).2 hmem)

/-- Conversely, an only supplier that is a unit is the only unit to add the fact. -/
theorem only_of_suppliers_eq (hi : s.units[i]? = some u) (h : s.suppliers j f = [i]) :
    i ≠ j ∧ f ∉ s.initial ∧ f ∈ u.adds ∧
      ∀ k w, s.units[k]? = some w → f ∈ w.adds → k = i ∨ k = j := by
  have hmem (k : Nat) : k ∈ s.suppliers j f ↔ k = i := by rw [h, List.mem_singleton]
  have hne : i ≠ s.startNode := Nat.ne_of_lt (lt_length_of_getElem? hi)
  rcases mem_suppliers.1 ((hmem i).2 rfl) with ⟨e, -⟩ | ⟨hij, c, hc, hadd⟩
  · exact absurd e hne
  · cases hi.symm.trans hc
    refine ⟨hij, fun hf => ?_, hadd, fun k w hw hadd => ?_⟩
    · exact hne ((hmem s.startNode).1 (mem_suppliers.2 (.inl ⟨rfl, hf⟩))).symm
    · by_cases hkj : k = j
      · exact .inr hkj
      · exact .inl ((hmem k).1 (mem_suppliers.2 (.inr ⟨hkj, w, hw, hadd⟩)))

/-- The forced edges between units are those from what has to precede. -/
theorem edge_iff_forces (hn : s.Named) (hi : s.units[i]? = some u) (hj : s.units[j]? = some v) :
    ⟨i, j⟩ ∈ s.forced.edges ↔ s.Forces u v := by
  have hu : u ∈ s.units := List.mem_of_getElem? hi
  have hv : v ∈ s.units := List.mem_of_getElem? hj
  have place {k : Nat} {w : Contract} (hk : s.units[k]? = some w) (hwu : w = u) : k = i :=
    eq_of_getElem?_of_nodup hn hk hi (congrArg Contract.name hwu)
  constructor
  · intro h
    rcases mem_forced.1 h with h | h | h
    · rcases mem_frame.1 h with h | ⟨k, -, h | h⟩
      · cases h
        cases (getElem?_startNode s).symm.trans hi
      · cases h
        cases (getElem?_startNode s).symm.trans hi
      · cases h
        cases (getElem?_endNode s).symm.trans hj
    · obtain ⟨k, c, name, l, hk, hname, hl, hne, h⟩ := mem_useEdges.1 h
      cases h
      cases hj.symm.trans hk
      obtain ⟨hlt, hnamed, -⟩ := List.findIdx?_eq_some_iff_getElem.1 hl
      have hiu : s.units[i] = u := (List.getElem?_eq_some_iff.1 hi).2
      rw [hiu, decide_eq_true_eq] at hnamed
      exact ⟨hu, hv, fun e => hne (place hj e.symm).symm, .inl (hnamed ▸ hname)⟩
    · obtain ⟨need, hneed, only, hs, -, h⟩ := mem_soleEdges.1 h
      cases h
      rcases mem_needs.1 hneed with ⟨k, c, f, hk, hf, rfl⟩ | ⟨f, -, rfl⟩
      · cases hj.symm.trans hk
        obtain ⟨hij, hinit, hadd, honly⟩ := only_of_suppliers_eq hi hs
        refine ⟨hu, hv, fun e => hij (place hj e.symm).symm, .inr ⟨f, hf, hinit, hadd, fun w hw hw' => ?_⟩⟩
        obtain ⟨l, hl⟩ := List.mem_iff_getElem?.1 hw
        rcases honly l w hl hw' with rfl | rfl
        · exact .inl (Option.some.inj (hl.symm.trans hi))
        · exact .inr (Option.some.inj (hl.symm.trans hj))
      · cases (getElem?_endNode s).symm.trans hj
  · rintro ⟨-, -, hne, h⟩
    have hij : i ≠ j := by
      rintro rfl
      exact hne (Option.some.inj (hi.symm.trans hj))
    rcases h with huse | ⟨f, hf, hinit, hadd, honly⟩
    · exact mem_forced.2 (.inr (.inl (mem_useEdges.2 ⟨j, v, u.name, i, hj, huse, hn.findIdx? hi, hij, rfl⟩)))
    · have hs : s.suppliers j f = [i] := by
        refine suppliers_eq_singleton hi hinit hadd hij fun k w hw hw' => ?_
        rcases honly w (List.mem_of_getElem? hw) hw' with rfl | rfl
        · exact .inl (place hw rfl)
        · exact .inr (eq_of_getElem?_of_nodup hn hw hj rfl)
      have hne : i ≠ s.startNode := Nat.ne_of_lt (lt_length_of_getElem? hi)
      refine mem_forced.2 (.inr (.inr (mem_soleEdges.2 ⟨s.need j f, ?_, i, hs, hne, rfl⟩)))
      exact mem_needs.2 (.inl ⟨j, v, f, hj, hf, rfl⟩)

/-! ## Cycles of units -/

theorem target_ne_start {e : Edge} (h : e ∈ s.forced.edges) : e.target ≠ s.startNode := by
  rcases mem_forced.1 h with h | h | h
  · rcases mem_frame.1 h with rfl | ⟨k, hk, rfl | rfl⟩
    · exact Nat.succ_ne_self _
    · exact Nat.ne_of_lt hk
    · exact Nat.succ_ne_self _
  · obtain ⟨k, c, -, -, hk, -, -, -, rfl⟩ := mem_useEdges.1 h
    exact Nat.ne_of_lt (lt_length_of_getElem? hk)
  · obtain ⟨need, hneed, only, -, -, rfl⟩ := mem_soleEdges.1 h
    rcases mem_needs.1 hneed with ⟨k, c, f, hk, -, rfl⟩ | ⟨f, -, rfl⟩
    · exact Nat.ne_of_lt (lt_length_of_getElem? hk)
    · exact Nat.succ_ne_self _

theorem source_ne_end {e : Edge} (h : e ∈ s.forced.edges) : e.source ≠ s.endNode := by
  have unit {k : Nat} (hk : k < s.units.length) : k ≠ s.endNode := Nat.ne_of_lt (Nat.lt_succ_of_lt hk)
  rcases mem_forced.1 h with h | h | h
  · rcases mem_frame.1 h with rfl | ⟨k, hk, rfl | rfl⟩
    · exact (Nat.succ_ne_self _).symm
    · exact (Nat.succ_ne_self _).symm
    · exact unit hk
  · obtain ⟨_, _, _, k, -, -, hk, -, rfl⟩ := mem_useEdges.1 h
    exact unit (List.findIdx?_eq_some_iff_getElem.1 hk).1
  · obtain ⟨need, hneed, only, hs, hstart, rfl⟩ := mem_soleEdges.1 h
    have honly : only ∈ need.suppliers := by simp [hs]
    rcases mem_needs.1 hneed with ⟨k, c, f, -, -, rfl⟩ | ⟨f, -, rfl⟩
    all_goals
      rcases mem_suppliers.1 honly with ⟨e, -⟩ | ⟨-, d, hd, -⟩
      · exact absurd e hstart
      · exact unit (lt_length_of_getElem? hd)

/-- All nodes of a circuit of forced edges are units. -/
theorem lt_length_of_circuit {cycle : List Nat} (h : s.forced.Circuit cycle) :
    ∀ n ∈ cycle, n < s.units.length := by
  intro n hn
  obtain ⟨⟨a, hin⟩, ⟨b, hout⟩⟩ := h.passes hn
  have hsize : n < s.units.length + 2 := size_forced s ▸ (s.forced.inside _ hin).2
  have hstart : n ≠ s.units.length := target_ne_start hin
  have hend : n ≠ s.units.length + 1 := source_ne_end hout
  omega

/-- Along nodes of units each of which has an edge to the next, each unit has to precede the next. -/
theorem isChain_unitsAt (hn : s.Named) {nodes : List Nat} (hc : s.forced.Chained nodes)
    (hin : ∀ n ∈ nodes, n < s.units.length) : (s.unitsAt nodes).IsChain s.Forces := by
  have unit (n : Nat) (h : n < s.units.length) : ∃ c, s.units[n]? = some c :=
    ⟨_, List.getElem?_eq_getElem h⟩
  induction nodes with
  | nil => exact List.isChain_nil
  | cons i nodes ih =>
    obtain ⟨hi, hin⟩ := List.forall_mem_cons.1 hin
    obtain ⟨u, hu⟩ := unit i hi
    cases nodes with
    | nil =>
      rw [unitsAt_cons hu]
      exact List.isChain_singleton u
    | cons j nodes =>
      obtain ⟨v, hv⟩ := unit j (List.forall_mem_cons.1 hin).1
      obtain ⟨hedge, hc⟩ := List.isChain_cons_cons.1 hc
      replace ih := ih hc hin
      rw [unitsAt_cons hv] at ih
      rw [unitsAt_cons hu, unitsAt_cons hv]
      exact List.isChain_cons_cons.2 ⟨(edge_iff_forces hn hu hv).1 hedge, ih⟩

theorem nodup_names_unitsAt (hn : s.Named) {nodes : List Nat} (h : nodes.Nodup) :
    ((s.unitsAt nodes).map Contract.name).Nodup := by
  rw [unitsAt, List.map_filterMap]
  refine h.filterMap fun i j name hi hj => ?_
  obtain ⟨u, hu, rfl⟩ := Option.map_eq_some_iff.1 hi
  obtain ⟨v, hv, hname⟩ := Option.map_eq_some_iff.1 hj
  exact eq_of_getElem?_of_nodup hn hu hv hname.symm

/-- From a unit and back to it, in steps from what has to precede to what it has to precede, and by
    way of other units, each once. -/
def Circle (s : Selection) (units : List Contract) : Prop :=
  ∃ u mid, units = u :: (mid ++ [u]) ∧ mid ≠ [] ∧ ((u :: mid).map Contract.name).Nodup ∧
    units.IsChain s.Forces

theorem circle_of_circuit (hn : s.Named) {cycle : List Nat} (h : s.forced.Circuit cycle) :
    s.Circle (s.unitsAt cycle) := by
  have hin := lt_length_of_circuit h
  obtain ⟨a, mid, rfl, hnodup, hchain⟩ := h
  have hforces := isChain_unitsAt hn hchain hin
  obtain ⟨ha, hmid⟩ := List.forall_mem_cons.1 hin
  have hu : s.units[a]? = some s.units[a] := List.getElem?_eq_getElem ha
  have hsplit : s.unitsAt (a :: (mid ++ [a])) = s.units[a] :: (s.unitsAt mid ++ [s.units[a]]) := by
    rw [unitsAt_cons hu, unitsAt_append, unitsAt_cons hu]
    rfl
  refine ⟨s.units[a], s.unitsAt mid, hsplit, ?_, ?_, hforces⟩
  · intro hnone
    rw [hsplit, hnone] at hforces
    obtain ⟨-, -, hne, -⟩ := (List.isChain_cons_cons.1 hforces).1
    exact hne rfl
  · rw [← unitsAt_cons hu]
    exact nodup_names_unitsAt hn hnodup

theorem transGen_of_isChain {mid : List Contract} (h : (u :: (mid ++ [v])).IsChain s.Forces) :
    Relation.TransGen s.Forces u v := by
  induction mid generalizing u with
  | nil => exact .single (List.isChain_cons_cons.1 h).1
  | cons w mid ih =>
    obtain ⟨huw, h⟩ := List.isChain_cons_cons.1 h
    exact .head huw (ih h)

theorem path_of_transGen (hn : s.Named) (h : Relation.TransGen s.Forces u v) (hi : s.units[i]? = some u)
    (hj : s.units[j]? = some v) : ∃ k, ⟨i, k⟩ ∈ s.forced.edges ∧ s.forced.Path k j := by
  induction h generalizing j with
  | single h => exact ⟨j, (edge_iff_forces hn hi hj).2 h, .refl j⟩
  | tail _ h ih =>
    obtain ⟨l, hl⟩ := List.mem_iff_getElem?.1 h.1
    obtain ⟨k, hik, hkl⟩ := ih hl
    exact ⟨k, hik, hkl.trans (.single ((edge_iff_forces hn hl hj).2 h))⟩

theorem transGen_iff_not_acyclic (hn : s.Named) :
    (∃ u, Relation.TransGen s.Forces u u) ↔ ¬ s.forced.Acyclic := by
  constructor
  · intro h hacyclic
    obtain ⟨u, h⟩ := h
    have hu : u ∈ s.units := by
      obtain ⟨v, huv, -⟩ := Relation.TransGen.head'_iff.1 h
      exact huv.1
    obtain ⟨i, hi⟩ := List.mem_iff_getElem?.1 hu
    obtain ⟨k, hik, hki⟩ := path_of_transGen hn h hi hi
    exact hacyclic i k hik hki
  · intro h
    obtain ⟨cycle, hcycle⟩ := Option.ne_none_iff_exists'.1 (mt findCycle_eq_none.1 h)
    obtain ⟨u, mid, hsplit, -, -, hforces⟩ := circle_of_circuit hn (circuit_of_findCycle hcycle)
    rw [hsplit] at hforces
    exact ⟨u, transGen_of_isChain hforces⟩

theorem dependencyCycle_iff {names : List String} :
    s.attempt.outcome = .error (.dependencyCycle names) ↔
      ∃ cycle, s.forced.findCycle = some cycle ∧ names = (s.unitsAt cycle).map Contract.name := by
  rcases attempt_cases s with ⟨cycle, hcycle, e⟩ | ⟨hacyclic, e⟩
  · rw [e, hcycle]
    simp [eq_comm]
  · have hnone := findCycle_eq_none.2 hacyclic
    rcases e with ⟨_, _, -, e⟩ | ⟨_, _, _, -, -, -, e⟩
    all_goals
      rw [e, hnone]
      simp

/-- Ordering reports a cycle exactly if units go round in a circle of what has to precede what. What
    it reports are the names of such a circle, all of whose nodes are units. -/
theorem cycle_is_exact (cat : Catalog) (features : Features) (initial required : FactSet)
    (selected : List Contract) :
    let s := (Problem.new cat features initial).selection required selected
    ((∃ names, s.attempt.outcome = .error (.dependencyCycle names)) ↔
      ∃ u, Relation.TransGen s.Forces u u) ∧
    (∀ names, s.attempt.outcome = .error (.dependencyCycle names) →
      ∃ units, names = units.map Contract.name ∧ s.Circle units) ∧
    ∀ cycle, s.forced.findCycle = some cycle → ∀ node ∈ cycle, node < s.units.length := by
  intro s
  have hn : s.Named := named_selection cat features initial required selected
  refine ⟨?iff, fun names h => ?_, fun cycle h => lt_length_of_circuit (circuit_of_findCycle h)⟩
  case iff =>
    rw [transGen_iff_not_acyclic hn, ← findCycle_eq_none, ← ne_eq, Option.ne_none_iff_exists']
    constructor
    · intro h
      obtain ⟨names, h⟩ := h
      obtain ⟨cycle, hcycle, -⟩ := dependencyCycle_iff.1 h
      exact ⟨cycle, hcycle⟩
    · intro h
      obtain ⟨cycle, hcycle⟩ := h
      exact ⟨_, dependencyCycle_iff.2 ⟨cycle, hcycle, rfl⟩⟩
  · obtain ⟨cycle, hcycle, hnames⟩ := dependencyCycle_iff.1 h
    exact ⟨_, hnames, circle_of_circuit hn (circuit_of_findCycle hcycle)⟩

end Trellis.Planner.Selection
