/-
  Trellis.Proofs.Planner.Completeness — what can be ordered is ordered.

  A permutation of the units solves a selection if used units precede their users, each unit
  finds what it needs and the goal holds in the end (`Solves`). Whatever an attempt answers is
  one (`solves_of_done`). Conversely a solution ranks the nodes by their places. The forced
  edges ascend in this rank, and every need is met under it by the unit that established the
  fact last; so the search always has a choice open that ascends, and succeeds unless its
  budget is spent (`done_of_solves`).

  - `attempt_decides`: an attempt that keeps within its budget finds an order exactly if there
    is a solution, and otherwise reports a cycle or a fact that is not to be had.
-/
import Mathlib
import Trellis.Proofs.Planner.Choices
import Trellis.Proofs.Planner.Safety

namespace Trellis.Planner.Selection

open Trellis.Graph

variable {s : Selection} {g : Graph} {nodes : List Nat} {order : List Contract}

/-- An order of the units that respects their uses and works. -/
structure Solves (order : List Contract) (s : Selection) : Prop where
  complete : order.Perm s.units
  uses : ∀ before u after, order = before ++ u :: after →
    ∀ v ∈ order, v ≠ u → v.name ∈ u.uses → v ∈ before
  feasible : Feasible s.initial order
  required : ∀ f ∈ s.required, f ∈ enact s.initial order

/-- No two units have the same name. -/
def Named (s : Selection) : Prop := (s.units.map Contract.name).Nodup

theorem Named.nodup (hn : s.Named) : s.units.Nodup := List.Nodup.of_map _ hn

theorem Named.findIdx? (hn : s.Named) {i : Nat} {c : Contract} (hc : s.units[i]? = some c) :
    s.units.findIdx? (·.name = c.name) = some i := by
  obtain ⟨hi, rfl⟩ := List.getElem?_eq_some_iff.1 hc
  refine List.findIdx?_eq_some_iff_getElem.2 ⟨hi, by simp, ?_⟩
  intro j hji
  have hj : s.units[j]? = some s.units[j] := List.getElem?_eq_getElem _
  simp only [decide_eq_true_eq]
  intro e
  exact absurd (eq_of_getElem?_of_nodup hn hj hc e) (Nat.ne_of_lt hji)

/-! ## Orders that are answered -/

theorem Serves.uses_unitsAt (hg : Serves g s) (hl : g.Linearizes nodes) (hn : s.Named)
    {before after : List Contract} {u v : Contract} (h : s.unitsAt nodes = before ++ u :: after)
    (hv : v ∈ s.unitsAt nodes) (hne : v ≠ u) (hu : v.name ∈ u.uses) : v ∈ before := by
  obtain ⟨ns, i, ms, hnodes, hi, rfl⟩ := split_unitsAt h
  obtain ⟨j, hj, hv⟩ := mem_unitsAt.1 hv
  have hji : j ≠ i := by
    intro e
    rw [e, hi] at hv
    cases hv
    exact hne rfl
  have he : ⟨j, i⟩ ∈ s.forced.edges :=
    mem_forced.2 (.inr (.inl (mem_useEdges.2 ⟨i, u, v.name, j, hi, hu, hn.findIdx? hv, hji, rfl⟩)))
  have hlt := hl.forward _ (hg.forced _ he)
  have hnodup : (ns ++ i :: ms).Nodup := hnodes ▸ hl.nodup
  rw [hnodes] at hlt
  exact mem_unitsAt.2 ⟨j, (mem_before_iff hnodup).2 hlt, hv⟩

theorem Serves.solves (hg : Serves g s) (hl : g.Linearizes nodes) (hn : s.Named) :
    Solves (s.unitsAt nodes) s where
  complete := perm_unitsAt (hg.size ▸ hl.complete)
  uses _ _ _ h _ hv hne hu := hg.uses_unitsAt hl hn h hv hne hu
  feasible := hg.feasible_unitsAt hl
  required := hg.required_unitsAt hl

theorem solves_of_done (hn : s.Named) {final : FactSet}
    (h : s.attempt.outcome = .ok (.done order final)) :
    Solves order s ∧ final = enact s.initial order := by
  rcases attempt_cases s with ⟨cycle, -, e⟩ | ⟨-, ⟨need, e', -, e⟩ | ⟨p, e', nodes, -, hg, hl, e⟩⟩
  · rw [e] at h
    cases h
  · rw [e] at h
    cases h
  · rw [e] at h
    cases h
    exact ⟨hg.solves (linearizes_of_linearize hl) hn, rfl⟩

/-! ## Orders that exist -/

/-- The rank of a node in an order of the units: the start below them all, the end above. -/
def rank (s : Selection) (order : List Contract) (node : Nat) : Nat :=
  if node = s.startNode then 0
  else match s.units[node]? with
    | some c => order.idxOf c + 1
    | none => order.length + 1

theorem rank_start : s.rank order s.startNode = 0 := if_pos rfl

theorem rank_unit {i : Nat} {c : Contract} (hi : s.units[i]? = some c) :
    s.rank order i = order.idxOf c + 1 := by
  have hne : i ≠ s.startNode := Nat.ne_of_lt (lt_length_of_getElem? hi)
  rw [rank, if_neg hne, hi]

theorem rank_end : s.rank order s.endNode = order.length + 1 := by
  have hne : s.endNode ≠ s.startNode := Nat.succ_ne_self _
  rw [rank, if_neg hne, getElem?_endNode]

namespace Solves

variable (h : Solves order s)

include h

theorem mem_iff {c : Contract} : c ∈ order ↔ ∃ i : Nat, s.units[i]? = some c := by
  rw [h.complete.mem_iff, List.mem_iff_getElem?]

theorem rank_unit_le {i : Nat} {c : Contract} (hi : s.units[i]? = some c) :
    s.rank order i ≤ order.length := by
  rw [rank_unit hi]
  exact List.idxOf_lt_length_of_mem (h.mem_iff.2 ⟨i, hi⟩)

variable (hn : s.Named)

include hn

theorem nodup : order.Nodup := h.complete.nodup_iff.2 hn.nodup

/-- Whoever established a fact last supplies it. -/
theorem met {consumer : Nat} {f : Fact} {before after : List Contract}
    (hsplit : order = before ++ after) (hf : f ∈ enact s.initial before)
    (hpos : 0 < s.rank order consumer)
    (hbefore : ∀ i c, s.units[i]? = some c → c ∈ before → s.rank order i < s.rank order consumer)
    (hafter : ∀ i c, s.units[i]? = some c → c ∈ after →
      i = consumer ∨ s.rank order consumer < s.rank order i) :
    Met (s.rank order) (s.need consumer f) := by
  have place {r : Nat} {d : Contract} (hr : s.units[r]? = some d) :
      d ∈ before ∨ r = consumer ∨ s.rank order consumer < s.rank order r := by
    have hd : d ∈ order := h.mem_iff.2 ⟨r, hr⟩
    rw [hsplit, List.mem_append] at hd
    exact hd.imp_right (hafter r d hr)
  rcases mem_enact.1 hf with ⟨hinit, hkeep⟩ | ⟨b₁, x, b₂, rfl, hadd, hkeep⟩
  · refine ⟨s.startNode, mem_suppliers.2 (.inl ⟨rfl, hinit⟩), ?_, ?_⟩
    · rw [rank_start]
      exact hpos
    · intro r hr
      obtain ⟨d, hd, hrem⟩ := mem_removers.1 hr
      rcases place hd with hb | rfl | hlt
      · exact absurd hrem (hkeep d hb)
      · exact .inl rfl
      · exact .inr (.inr (.inr hlt))
  · obtain ⟨j, hj⟩ := h.mem_iff.1 (show x ∈ order by simp [hsplit])
    have hlt := hbefore j x hj (by simp)
    have hne : j ≠ consumer := by
      rintro rfl
      omega
    refine ⟨j, mem_suppliers.2 (.inr ⟨hne, x, hj, hadd⟩), hlt, ?_⟩
    intro r hr
    obtain ⟨d, hd, hrem⟩ := mem_removers.1 hr
    rcases place hd with hb | rfl | hlt
    · rcases List.mem_append.1 hb with hb | hb
      · have hnodup := h.nodup hn
        rw [hsplit, List.append_assoc, List.cons_append] at hnodup
        have hdx := (mem_before_iff hnodup).1 hb
        refine .inr (.inr (.inl ?_))
        rw [rank_unit hd, rank_unit hj, hsplit, List.append_assoc, List.cons_append]
        omega
      · rcases List.mem_cons.1 hb with rfl | hb
        · exact .inr (.inl (eq_of_getElem?_of_nodup hn hd hj rfl))
        · exact absurd hrem (hkeep d hb)
    · exact .inl rfl
    · exact .inr (.inr (.inr hlt))

theorem met_needs : ∀ need ∈ s.needs, Met (s.rank order) need := by
  intro need hneed
  rcases mem_needs.1 hneed with ⟨i, c, f, hi, hf, rfl⟩ | ⟨f, hf, rfl⟩
  · obtain ⟨before, after, hsplit⟩ := List.append_of_mem (h.mem_iff.2 ⟨i, hi⟩)
    have hnodup := h.nodup hn
    rw [hsplit] at hnodup
    refine h.met hn hsplit (h.feasible before c after hsplit f hf) ?_ ?_ ?_
    · rw [rank_unit hi]
      omega
    · intro j d hj hd
      have hlt := (mem_before_iff hnodup).1 hd
      rw [rank_unit hi, rank_unit hj, hsplit]
      omega
    · intro j d hj hd
      rcases List.mem_cons.1 hd with rfl | hd
      · exact .inl (eq_of_getElem?_of_nodup hn hj hi rfl)
      · have hlt := lt_of_mem_after hnodup hd
        rw [rank_unit hi, rank_unit hj, hsplit]
        exact .inr (by omega)
  · refine h.met hn (List.append_nil order).symm (h.required f hf) ?_ ?_ ?_
    · rw [rank_end]
      omega
    · intro j d hj _
      have hle := h.rank_unit_le hj
      rw [rank_end]
      omega
    · intro j d _ hd
      cases hd

theorem ascends : s.forced.Ascends (s.rank order) := by
  intro e he
  rcases mem_forced.1 he with he | he | he
  · rcases mem_frame.1 he with rfl | ⟨i, hi, rfl | rfl⟩
    · rw [rank_start, rank_end]
      omega
    · rw [rank_start, rank_unit (List.getElem?_eq_getElem hi)]
      omega
    · have hle := h.rank_unit_le (List.getElem?_eq_getElem hi)
      rw [rank_end]
      show s.rank order i < _
      omega
  · obtain ⟨u, c, name, v, hc, hname, hv, hvu, rfl⟩ := mem_useEdges.1 he
    obtain ⟨hlt, hd, -⟩ := List.findIdx?_eq_some_iff_getElem.1 hv
    have hv : s.units[v]? = some s.units[v] := List.getElem?_eq_getElem hlt
    obtain ⟨before, after, hsplit⟩ := List.append_of_mem (h.mem_iff.2 ⟨u, hc⟩)
    have hnodup := h.nodup hn
    rw [hsplit] at hnodup
    have hne : s.units[v] ≠ c := by
      intro e
      exact hvu (eq_of_getElem?_of_nodup hn hv hc (by rw [e]))
    have hused : s.units[v].name ∈ c.uses := by
      rw [of_decide_eq_true hd]
      exact hname
    have hb := h.uses before c after hsplit _ (h.mem_iff.2 ⟨v, hv⟩) hne hused
    have hlt := (mem_before_iff hnodup).1 hb
    rw [rank_unit hv, rank_unit hc, hsplit]
    omega
  · -- The only supplier of a need is the one that meets it.
    obtain ⟨need, hneed, only, hs, -, rfl⟩ := mem_soleEdges.1 he
    obtain ⟨x, hx, hlt, -⟩ := h.met_needs hn need hneed
    rw [hs, List.mem_singleton] at hx
    exact hx ▸ hlt

theorem findCycle : s.forced.findCycle = none := findCycle_eq_none.2 (h.ascends hn).acyclic

theorem done (hb : s.attempt.exhausted = false) :
    ∃ order final, s.attempt.outcome = .ok (.done order final) := by
  have hfound := support_succeeds (h.met_needs hn) (.ofGraph s.forced) .none
    (Precedence.respects_ofGraph (h.ascends hn))
  rcases attempt_cases s with ⟨cycle, hc, -⟩ | ⟨-, ⟨need, e, hs, ha⟩ | ⟨p, e, nodes, -, -, -, ha⟩⟩
  · rw [h.findCycle hn] at hc
    cases hc
  · rw [ha] at hb
    rw [← searchLinks, hs] at hfound
    simp only [Option.isSome_none, Bool.false_eq_true, false_or] at hfound
    simp [hfound] at hb
  · exact ⟨_, _, by rw [ha]⟩

end Solves

/-! ## Both together -/

/-- The units of a selection have names of their own. -/
theorem named_selection (cat : Catalog) (features : Features) (initial required : FactSet)
    (selected : List Contract) :
    ((Problem.new cat features initial).selection required selected).Named :=
  (Problem.nodup_names_lineup cat features initial).sublist (List.filter_sublist.map _)

theorem done_iff (hn : s.Named) (hb : s.attempt.exhausted = false) :
    (∃ order final, s.attempt.outcome = .ok (.done order final)) ↔ ∃ order, Solves order s := by
  constructor
  · intro h
    obtain ⟨order, final, h⟩ := h
    exact ⟨order, (solves_of_done hn h).1⟩
  · intro h
    obtain ⟨order, h⟩ := h
    exact h.done hn hb

/-- An attempt that keeps within its budget finds an order exactly if there is a solution.
    Otherwise it reports a cycle, or that a fact is not to be had. -/
theorem attempt_decides (cat : Catalog) (features : Features) (initial required : FactSet)
    (selected : List Contract) :
    let s := (Problem.new cat features initial).selection required selected
    s.attempt.exhausted = false →
      ((∃ order final, s.attempt.outcome = .ok (.done order final)) ↔ ∃ order, Solves order s) ∧
      ((∃ order final, s.attempt.outcome = .ok (.done order final)) ∨
        (∃ cycle, s.attempt.outcome = .error (.dependencyCycle cycle)) ∨
        ∃ f requester, s.attempt.outcome = .ok (.stuck f requester)) := by
  intro s hb
  refine ⟨done_iff (named_selection cat features initial required selected) hb, ?_⟩
  rcases attempt_cases s with ⟨cycle, -, e⟩ | ⟨-, ⟨need, _, -, e⟩ | ⟨_, _, nodes, -, -, -, e⟩⟩
  · exact .inr (.inl ⟨_, by rw [e]⟩)
  · exact .inr (.inr ⟨_, _, by rw [e]⟩)
  · exact .inl ⟨_, _, by rw [e]⟩

theorem attempt_decides_lowerAndCount :
    let s := (Problem.new (Sorted.ofList [lower, count]) ∅ (Sorted.ofList [raw])).selection
      (Sorted.ofList [lowered, counted]) [lower, count]
    s.attempt.exhausted = false ∧ ∃ order, Solves order s := by
  intro s
  have hb : s.attempt.exhausted = false := by cbv
  have hdone : s.attempt.outcome =
      .ok (.done [count, lower] (Sorted.ofList [counted, lowered])) := by cbv
  have decides := attempt_decides (Sorted.ofList [lower, count]) ∅ (Sorted.ofList [raw])
    (Sorted.ofList [lowered, counted]) [lower, count] hb
  exact ⟨hb, decides.1.1 ⟨_, _, hdone⟩⟩

end Trellis.Planner.Selection
