/-
  Trellis.Proofs.Planner.Constraints — the needs of a selection and its forced edges, one
  lemma for each kind.

  All of them lie inside the graph (`needs_inside`, `mem_forced`).
-/
import Trellis.Planner.Ordering
import Trellis.Proofs.Graph.Paths
import Trellis.Proofs.Planner.Links

namespace Trellis.Planner.Selection

open Trellis.Graph

variable {s : Selection} {i : Nat} {c : Contract} {f : Fact} {need : Need} {e : Edge}

theorem lt_length_of_getElem? (h : s.units[i]? = some c) : i < s.units.length :=
  (List.getElem?_eq_some_iff.1 h).1

theorem getElem?_startNode (s : Selection) : s.units[s.startNode]? = none :=
  List.getElem?_eq_none (Nat.le_refl _)

theorem getElem?_endNode (s : Selection) : s.units[s.endNode]? = none :=
  List.getElem?_eq_none (Nat.le_succ _)

theorem size_forced (s : Selection) : s.forced.size = s.units.length + 2 := by
  rw [forced, size_addAll, size_discrete]

/-! ## Needs -/

theorem mem_nodesWhere {q : Contract → Bool} :
    i ∈ s.nodesWhere q ↔ ∃ c, s.units[i]? = some c ∧ q c = true := by
  simp only [nodesWhere, List.mem_map, List.mem_filter, List.mem_zipIdx_iff_getElem?]
  constructor
  · intro h
    obtain ⟨⟨c, j⟩, ⟨hc, hq⟩, rfl⟩ := h
    exact ⟨c, hc, hq⟩
  · intro h
    obtain ⟨c, hc, hq⟩ := h
    exact ⟨(c, i), ⟨hc, hq⟩, rfl⟩

theorem mem_suppliers {consumer x : Nat} : x ∈ s.suppliers consumer f ↔
    x = s.startNode ∧ f ∈ s.initial ∨ x ≠ consumer ∧ ∃ c, s.units[x]? = some c ∧ f ∈ c.adds := by
  simp only [suppliers, List.mem_append, List.mem_filter, mem_nodesWhere, decide_eq_true_eq]
  by_cases hf : f ∈ s.initial
  · simp [hf, and_comm]
  · simp [hf, and_comm]

theorem mem_removers {consumer r : Nat} :
    r ∈ (s.need consumer f).removers ↔ ∃ c, s.units[r]? = some c ∧ f ∈ c.removes := by
  simp only [need, mem_nodesWhere, decide_eq_true_eq]

theorem mem_needs : need ∈ s.needs ↔
    (∃ i c f, s.units[i]? = some c ∧ f ∈ c.needs ∧ need = s.need i f) ∨
    ∃ f ∈ s.required, need = s.need s.endNode f := by
  simp only [needs, List.mem_append, List.mem_flatMap, List.mem_map, List.mem_zipIdx_iff_getElem?,
    Sorted.mem_toList]
  constructor
  · intro h
    rcases h with ⟨⟨c, i⟩, hc, f, hf, rfl⟩ | ⟨f, hf, rfl⟩
    · exact .inl ⟨i, c, f, hc, hf, rfl⟩
    · exact .inr ⟨f, hf, rfl⟩
  · intro h
    rcases h with ⟨i, c, f, hc, hf, rfl⟩ | ⟨f, hf, rfl⟩
    · exact .inl ⟨(c, i), hc, f, hf, rfl⟩
    · exact .inr ⟨f, hf, rfl⟩

theorem need_inside {consumer : Nat} (hc : consumer < s.units.length + 2) :
    (s.need consumer f).Inside (s.units.length + 2) where
  consumer := hc
  suppliers x hx := by
    rcases mem_suppliers.1 hx with ⟨rfl, -⟩ | ⟨-, c, hc, -⟩
    · show s.units.length < _
      omega
    · have := lt_length_of_getElem? hc
      omega
  removers r hr := by
    obtain ⟨c, hc, -⟩ := mem_removers.1 hr
    have := lt_length_of_getElem? hc
    omega

theorem needs_inside : ∀ need ∈ s.needs, need.Inside s.forced.size := by
  intro need hneed
  rw [size_forced]
  rcases mem_needs.1 hneed with ⟨i, c, f, hc, -, rfl⟩ | ⟨f, -, rfl⟩
  · have := lt_length_of_getElem? hc
    exact need_inside (by omega)
  · exact need_inside (Nat.lt_succ_self _)

/-! ## Forced edges -/

theorem mem_frame : e ∈ s.frame ↔ e = ⟨s.startNode, s.endNode⟩ ∨
    ∃ i < s.units.length, e = ⟨s.startNode, i⟩ ∨ e = ⟨i, s.endNode⟩ := by
  simp [frame]

theorem mem_useEdges : e ∈ s.useEdges ↔ ∃ u c name v, s.units[u]? = some c ∧ name ∈ c.uses ∧
    s.units.findIdx? (·.name = name) = some v ∧ v ≠ u ∧ e = ⟨v, u⟩ := by
  simp only [useEdges, List.mem_flatMap, List.mem_filterMap, List.mem_zipIdx_iff_getElem?,
    Sorted.mem_toList]
  constructor
  · intro h
    obtain ⟨⟨c, u⟩, hc, v, ⟨name, hn, hv⟩, he⟩ := h
    by_cases hvu : v = u
    · simp [hvu] at he
    · simp only [hvu, if_false, Option.some.injEq] at he
      exact ⟨u, c, name, v, hc, hn, hv, hvu, he.symm⟩
  · intro h
    obtain ⟨u, c, name, v, hc, hn, hv, hvu, rfl⟩ := h
    exact ⟨(c, u), hc, v, ⟨name, hn, hv⟩, by simp [hvu]⟩

theorem mem_soleEdges : e ∈ s.soleEdges ↔ ∃ need ∈ s.needs, ∃ only,
    need.suppliers = [only] ∧ only ≠ s.startNode ∧ e = ⟨only, need.consumer⟩ := by
  simp only [soleEdges, List.mem_filterMap]
  constructor
  · intro h
    obtain ⟨need, hneed, he⟩ := h
    split at he
    · rename_i only hs
      by_cases ho : only = s.startNode
      · simp [ho] at he
      · simp only [ho, if_false, Option.some.injEq] at he
        exact ⟨need, hneed, only, hs, ho, he.symm⟩
    · cases he
  · intro h
    obtain ⟨need, hneed, only, hs, ho, rfl⟩ := h
    exact ⟨need, hneed, by simp [hs, ho]⟩

theorem mem_forced : e ∈ s.forced.edges ↔ e ∈ s.frame ∨ e ∈ s.useEdges ∨ e ∈ s.soleEdges := by
  have inside : e ∈ s.frame ∨ e ∈ s.useEdges ∨ e ∈ s.soleEdges →
      e.source < s.units.length + 2 ∧ e.target < s.units.length + 2 := by
    intro h
    rcases h with h | h | h
    · rcases mem_frame.1 h with rfl | ⟨i, hi, rfl | rfl⟩ <;> simp only [startNode, endNode] <;> omega
    · obtain ⟨u, c, name, v, hc, -, hv, -, rfl⟩ := mem_useEdges.1 h
      have hu := lt_length_of_getElem? hc
      have hv := (List.findIdx?_eq_some_iff_getElem.1 hv).1
      exact ⟨Nat.lt_add_right 2 hv, Nat.lt_add_right 2 hu⟩
    · obtain ⟨need, hneed, only, hs, -, rfl⟩ := mem_soleEdges.1 h
      have hin := needs_inside need hneed
      rw [size_forced] at hin
      exact ⟨hin.suppliers only (by simp [hs]), hin.consumer⟩
  rw [forced, mem_edges_addAll, size_discrete, List.append_assoc, List.mem_append, List.mem_append]
  constructor
  · intro h
    rcases h with h | h
    · exact absurd h (not_mem_edges_discrete _ e)
    · exact h.1
  · exact fun h => .inr ⟨h, inside h⟩

end Trellis.Planner.Selection
