/-
  Trellis.Proofs.Graph.Cycles — the depth-first search finds a cycle exactly if there is one.

  What the search is done with stands in an order in which every edge points backwards
  (`Settled`): a node is done after all its successors. If the search ends without a cycle, all
  nodes are in that order, which makes a rank (`ascends_of_findCycle`). The way it keeps is a
  chain of edges that passes no node twice, so what it answers is a circuit
  (`circuit_of_findCycle`). Hence `findCycle_eq_none`, and a rank for every acyclic graph
  (`Acyclic.exists_rank`).
-/
import Mathlib.Data.List.Chain
import Trellis.Graph.Cycle
import Trellis.Proofs.Graph.Paths

namespace Trellis.Graph

variable {g : Graph}

/-- Each node once, and before all nodes that its edges lead to. -/
def Settled (g : Graph) : List Nat → Prop
  | [] => True
  | a :: rest => a ∉ rest ∧ (∀ b ∈ g.successors a, b ∈ rest) ∧ Settled g rest

/-- Each node has an edge to the next. -/
def Chained (g : Graph) (nodes : List Nat) : Prop := nodes.IsChain fun a b => ⟨a, b⟩ ∈ g.edges

/-- A way round: from a node along edges back to it, passing no node twice. -/
def Circuit (g : Graph) (cycle : List Nat) : Prop :=
  ∃ a mid, cycle = a :: (mid ++ [a]) ∧ (a :: mid).Nodup ∧ g.Chained cycle

/-! ## Without a cycle -/

namespace Settled

variable {all : List Nat} {a b : Nat}

theorem mem_of_edge (h : g.Settled all) (ha : a ∈ all) (he : ⟨a, b⟩ ∈ g.edges) : b ∈ all := by
  induction all with
  | nil => cases ha
  | cons x rest ih =>
    obtain ⟨-, hsucc, hrest⟩ := h
    rcases List.mem_cons.1 ha with rfl | ha
    · exact List.mem_cons_of_mem _ (hsucc b (g.mem_successors.2 he))
    · exact List.mem_cons_of_mem _ (ih hrest ha)

theorem idxOf_lt (h : g.Settled all) (ha : a ∈ all) (he : ⟨a, b⟩ ∈ g.edges) :
    all.idxOf a < all.idxOf b := by
  induction all with
  | nil => cases ha
  | cons x rest ih =>
    obtain ⟨hx, hsucc, hrest⟩ := h
    rcases List.mem_cons.1 ha with rfl | ha
    · have hb : b ∈ rest := hsucc b (g.mem_successors.2 he)
      have hne : a ≠ b := by
        intro e
        exact hx (e ▸ hb)
      simp [hne]
    · have hb : b ∈ rest := hrest.mem_of_edge ha he
      have hxa : x ≠ a := by
        intro e
        exact hx (e ▸ ha)
      have hxb : x ≠ b := by
        intro e
        exact hx (e ▸ hb)
      have := ih hrest ha
      simp [hxa, hxb]
      omega

end Settled

/-- What a search that closes no cycle is done with: all it was asked for, and nothing new from
    the way it came. -/
theorem explore_ok {way nodes done all : List Nat} (h : g.explore way nodes done = .ok all)
    (hd : g.Settled done) :
    g.Settled all ∧ done ⊆ all ∧ nodes ⊆ all ∧ ∀ a ∈ all, a ∈ done ∨ a ∉ way := by
  fun_induction g.explore way nodes done generalizing all with
  | case1 =>
    cases h
    exact ⟨hd, fun _ ha => ha, fun _ ha => absurd ha List.not_mem_nil, fun _ ha => .inl ha⟩
  | case2 => cases h
  | case3 way node nodes done hway hdone ih =>
    obtain ⟨hs, hsub, hnodes, hnew⟩ := ih h hd
    exact ⟨hs, hsub, List.cons_subset.2 ⟨hsub hdone, hnodes⟩, hnew⟩
  | case4 => cases h
  | case5 way node nodes done hway hdone below hbelow ih₁ ih₂ =>
    obtain ⟨hs, hsub, hsucc, hnew⟩ := ih₁ hbelow hd
    have hfresh : node ∉ below := by
      intro hn
      rcases hnew node hn with hn | hn
      · exact hdone hn
      · exact hn (by simp)
    obtain ⟨hs', hsub', hnodes', hnew'⟩ := ih₂ h ⟨hfresh, fun b hb => hsucc hb, hs⟩
    have hnode : node ∈ all := hsub' List.mem_cons_self
    have hold : below ⊆ all := fun a ha => hsub' (List.mem_cons_of_mem _ ha)
    refine ⟨hs', fun a ha => hold (hsub ha), List.cons_subset.2 ⟨hnode, hnodes'⟩, ?_⟩
    intro a ha
    rcases hnew' a ha with ha | ha
    · rcases List.mem_cons.1 ha with rfl | ha
      · exact .inr hway
      · rcases hnew a ha with ha | ha
        · exact .inl ha
        · exact .inr fun hw => ha (List.mem_append_left _ hw)
    · exact .inr ha

theorem ascends_of_findCycle (h : g.findCycle = none) : ∃ rank, g.Ascends rank := by
  unfold findCycle at h
  split at h
  · rename_i all hall
    obtain ⟨hs, -, hnodes, -⟩ := explore_ok hall trivial
    refine ⟨all.idxOf, fun e he => hs.idxOf_lt (hnodes ?_) he⟩
    exact List.mem_range.2 (g.inside e he).1
  · cases h

/-! ## With a cycle -/

theorem circuit_of_explore {way nodes done cycle : List Nat}
    (h : g.explore way nodes done = .error cycle) (hn : way.Nodup)
    (hc : ∀ n ∈ nodes, g.Chained (way ++ [n])) : g.Circuit cycle := by
  fun_induction g.explore way nodes done with
  | case1 => cases h
  | case2 way node nodes done hway =>
    cases h
    obtain ⟨before, after, rfl, hbefore⟩ := List.eq_append_cons_of_mem hway
    have hskip : (before ++ node :: after).dropWhile (· ≠ node) = node :: after := by
      rw [List.dropWhile_append_of_pos]
      · simp
      · intro a ha
        have hne : a ≠ node := by
          intro e
          exact hbefore (e ▸ ha)
        simpa using hne
    rw [hskip]
    refine ⟨node, after, rfl, (List.nodup_append.1 hn).2.1, ?_⟩
    have := hc node List.mem_cons_self
    rw [Chained, List.append_assoc] at this
    exact (List.isChain_append.1 this).2.1
  | case3 way node nodes done hway hdone ih =>
    exact ih h hn fun n hm => hc n (List.mem_cons_of_mem _ hm)
  | case4 way node nodes done hway hdone found hfound ih =>
    cases h
    refine ih hfound ?_ fun n hm => ?_
    · rw [List.nodup_append]
      refine ⟨hn, by simp, ?_⟩
      intro a ha b hb e
      rw [List.mem_singleton.1 hb] at e
      exact hway (e ▸ ha)
    · refine List.isChain_append.2 ⟨hc node List.mem_cons_self, List.isChain_singleton n, ?_⟩
      intro a ha b hb
      simp at ha hb
      subst ha hb
      exact g.mem_successors.1 hm
  | case5 way node nodes done hway hdone below hbelow ih₁ ih₂ =>
    exact ih₂ h hn fun n hm => hc n (List.mem_cons_of_mem _ hm)

theorem circuit_of_findCycle {cycle : List Nat} (h : g.findCycle = some cycle) :
    g.Circuit cycle := by
  unfold findCycle at h
  split at h
  · cases h
  · rename_i found hfound
    cases h
    exact circuit_of_explore hfound List.nodup_nil fun n _ => List.isChain_singleton n

theorem Chained.path {nodes : List Nat} {a b : Nat} (h : g.Chained (a :: (nodes ++ [b]))) :
    g.Path a b := by
  induction nodes generalizing a with
  | nil => exact .single (List.isChain_cons_cons.1 h).1
  | cons n nodes ih =>
    obtain ⟨he, h⟩ := List.isChain_cons_cons.1 h
    exact .step he (ih h)

theorem Circuit.not_acyclic {cycle : List Nat} (h : g.Circuit cycle) : ¬ g.Acyclic := by
  intro hg
  obtain ⟨a, mid, rfl, -, hc⟩ := h
  cases mid with
  | nil => exact hg a a (List.isChain_cons_cons.1 hc).1 (.refl a)
  | cons b mid =>
    obtain ⟨he, hc⟩ := List.isChain_cons_cons.1 hc
    exact hg a b he (Chained.path hc)

theorem Chained.exists_target {nodes : List Nat} {n last : Nat}
    (h : g.Chained (nodes ++ [last])) (hn : n ∈ nodes) :
    ∃ b, ⟨n, b⟩ ∈ g.edges := by
  obtain ⟨before, after, rfl⟩ := List.append_of_mem hn
  rw [Chained, List.append_assoc, List.cons_append] at h
  have h := (List.isChain_append.1 h).2.1
  cases after with
  | nil => exact ⟨last, (List.isChain_cons_cons.1 h).1⟩
  | cons b after => exact ⟨b, (List.isChain_cons_cons.1 h).1⟩

theorem Chained.exists_source {nodes : List Nat} {n first : Nat}
    (h : g.Chained (first :: nodes)) (hn : n ∈ nodes) :
    ∃ a, ⟨a, n⟩ ∈ g.edges := by
  induction nodes generalizing first with
  | nil => cases hn
  | cons b nodes ih =>
    obtain ⟨hedge, h⟩ := List.isChain_cons_cons.1 h
    rcases List.mem_cons.1 hn with rfl | hn
    · exact ⟨first, hedge⟩
    · exact ih h hn

/-- On a way round, every node is entered and left. -/
theorem Circuit.passes {cycle : List Nat} {n : Nat} (h : g.Circuit cycle) (hn : n ∈ cycle) :
    (∃ a, ⟨a, n⟩ ∈ g.edges) ∧ ∃ b, ⟨n, b⟩ ∈ g.edges := by
  obtain ⟨a, mid, rfl, -, hchain⟩ := h
  have hlast : n ∈ mid ++ [a] := by
    rcases List.mem_cons.1 hn with rfl | hn
    · exact List.mem_append_right mid (List.mem_singleton_self n)
    · exact hn
  have hfirst : n ∈ a :: mid := by
    rcases List.mem_append.1 hlast with hn | hn
    · exact List.mem_cons_of_mem a hn
    · exact List.mem_singleton.1 hn ▸ List.mem_cons_self
  have hchain' : g.Chained ((a :: mid) ++ [a]) := hchain
  exact ⟨hchain.exists_source hlast, hchain'.exists_target hfirst⟩

/-! ## Both -/

theorem findCycle_eq_none : g.findCycle = none ↔ g.Acyclic := by
  constructor
  · intro h
    obtain ⟨rank, hr⟩ := ascends_of_findCycle h
    exact hr.acyclic
  · intro hg
    cases h : g.findCycle with
    | none => rfl
    | some cycle => exact absurd hg (circuit_of_findCycle h).not_acyclic

theorem Acyclic.exists_rank (hg : g.Acyclic) : ∃ rank, g.Ascends rank :=
  ascends_of_findCycle (findCycle_eq_none.2 hg)

end Trellis.Graph
