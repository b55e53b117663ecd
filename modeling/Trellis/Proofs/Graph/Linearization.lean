/-
  Trellis.Proofs.Graph.Linearization — the order that nodes are placed in.

  While nodes are placed, the counters say how many predecessors of a node are not, and the
  ready nodes are those without any (`Frontier.Fits`, kept by `Fits.settle`). So every node is
  placed after its predecessors (`Unfolds`), and on an acyclic graph there is always one ready
  until all are placed.

  - `linearizes_of_linearize`: the order has every node once and agrees with every edge.
  - `Acyclic.linearize`: an acyclic graph has one.
-/
import Mathlib.Data.List.Perm.Subperm
import Trellis.Graph.Linear
import Trellis.Proofs.Graph.Cycles

namespace Trellis.Graph

variable {g : Graph}

/-- An order of all nodes, the source of every edge before its target. -/
structure Linearizes (g : Graph) (order : List Nat) : Prop where
  complete : order.Perm (List.range g.size)
  forward : ∀ e ∈ g.edges, order.idxOf e.source < order.idxOf e.target

namespace Linearizes

variable {order : List Nat}

theorem mem_iff (h : g.Linearizes order) {a : Nat} : a ∈ order ↔ a < g.size := by
  rw [h.complete.mem_iff, List.mem_range]

theorem nodup (h : g.Linearizes order) : order.Nodup :=
  h.complete.nodup_iff.2 List.nodup_range

theorem eq_or_lt (h : g.Linearizes order) {a b : Nat} (hp : g.Path a b) :
    a = b ∨ order.idxOf a < order.idxOf b := by
  have hr : g.Ascends order.idxOf := h.forward
  exact hr.eq_or_lt hp

end Linearizes

/-! ## Predecessors not placed -/

/-- How many edges lead to a node from nodes that are not placed. -/
def pending (g : Graph) (placed : List Nat) (a : Nat) : Nat :=
  g.edges.toList.countP fun e => e.target = a ∧ e.source ∉ placed

theorem pending_nil (a : Nat) : g.pending [] a = g.inDegree a := by
  simp [pending, inDegree]

theorem pending_eq_zero {placed : List Nat} {a : Nat} :
    g.pending placed a = 0 ↔ ∀ p, ⟨p, a⟩ ∈ g.edges → p ∈ placed := by
  simp only [pending, List.countP_eq_zero, decide_eq_true_eq, not_and, Decidable.not_not]
  constructor
  · intro h p hp
    exact h ⟨p, a⟩ hp rfl
  · intro h e he ht
    obtain ⟨p, t⟩ := e
    cases ht
    exact h p he

/-- Placing a node takes one off its successors. -/
theorem pending_cons {placed : List Nat} {node : Nat} (hn : node ∉ placed) (a : Nat) :
    g.pending placed a = g.pending (node :: placed) a + if a ∈ g.successors node then 1 else 0 := by
  have split (es : List Edge) :
      es.countP (fun e => e.target = a ∧ e.source ∉ placed) =
        es.countP (fun e => e.target = a ∧ e.source ∉ node :: placed) + es.count ⟨node, a⟩ := by
    induction es with
    | nil => rfl
    | cons e es ih =>
      obtain ⟨p, t⟩ := e
      rw [List.countP_cons, List.countP_cons, List.count_cons, ih]
      by_cases ht : t = a
      · by_cases hp : p = node
        · subst ht hp
          simp [hn]
          omega
        · by_cases hpl : p ∈ placed
          · simp [ht, hp, hpl]
          · simp [ht, hp, hpl]
            omega
      · simp [ht]
  rw [pending, split, (OrdSet.nodup g.edges).count, pending]
  have hs : a ∈ g.successors node ↔ (⟨node, a⟩ : Edge) ∈ g.edges.toList := g.mem_successors
  by_cases ha : a ∈ g.successors node
  · rw [if_pos ha, if_pos (hs.1 ha)]
  · rw [if_neg ha, if_neg fun he => ha (hs.2 he)]

/-! ## The frontier -/

namespace Frontier

/-- The counters and the ready nodes are right for what has been placed. -/
structure Fits (f : Frontier) (g : Graph) (placed : List Nat) : Prop where
  waiting : ∀ a < g.size, f.waiting[a]? = some (g.pending placed a)
  ready : ∀ a, a ∈ f.ready ↔ a < g.size ∧ a ∉ placed ∧ g.pending placed a = 0
  closed : ∀ a ∈ placed, g.pending placed a = 0

theorem fits_start (g : Graph) : g.start.Fits g [] where
  waiting a ha := by simp [start, ha, pending_nil]
  ready a := by
    simp only [start, OrdSet.mem_ofList, List.mem_filter, List.mem_range, decide_eq_true_eq,
      pending_nil]
    simp
  closed a ha := absurd ha List.not_mem_nil

theorem relax_waiting (f : Frontier) (t a : Nat) :
    (f.relax t).waiting[a]? = (f.waiting[a]?).map fun w => if a = t then w - 1 else w := by
  simp only [relax]
  by_cases h : a = t
  · subst h
    simp
  · rw [List.getElem?_modify_ne _ _ (Ne.symm h)]
    simp [h]

theorem mem_relax_ready (f : Frontier) (t a : Nat) :
    a ∈ (f.relax t).ready ↔ a ∈ f.ready ∨ a = t ∧ ∃ w ≤ 1, f.waiting[a]? = some w := by
  have hz : (f.waiting.modify t (· - 1))[t]? = some 0 ↔ ∃ w ≤ 1, f.waiting[t]? = some w := by
    rw [List.getElem?_modify_eq]
    cases f.waiting[t]? with
    | none => simp
    | some w => simp; omega
  simp only [relax]
  by_cases h : (f.waiting.modify t (· - 1))[t]? = some 0
  · rw [if_pos h, OrdSet.mem_insert]
    constructor
    · intro ha
      rcases ha with rfl | ha
      · exact .inr ⟨rfl, hz.1 h⟩
      · exact .inl ha
    · intro ha
      rcases ha with ha | ⟨ha, -⟩
      · exact .inr ha
      · exact .inl ha
  · rw [if_neg h]
    constructor
    · exact .inl
    · intro ha
      rcases ha with ha | ⟨rfl, hw⟩
      · exact ha
      · exact absurd (hz.2 hw) h

/-- Relaxing different nodes, each loses one, and those that had at most one become ready. -/
theorem foldl_relax {ts : List Nat} (hts : ts.Nodup) (f : Frontier) (a : Nat) :
    (ts.foldl relax f).waiting[a]? = ((f.waiting[a]?).map fun w => if a ∈ ts then w - 1 else w) ∧
    (a ∈ (ts.foldl relax f).ready ↔
      a ∈ f.ready ∨ a ∈ ts ∧ ∃ w ≤ 1, f.waiting[a]? = some w) := by
  induction ts generalizing f with
  | nil => simp
  | cons t ts ih =>
    obtain ⟨ht, hts⟩ := List.nodup_cons.1 hts
    obtain ⟨hw, hr⟩ := ih hts (f.relax t)
    rw [List.foldl_cons, hw, hr, relax_waiting, mem_relax_ready]
    by_cases h : a = t
    · subst h
      simp [ht, Function.comp_def]
    · simp [h]

theorem mem_ready_of_cons {f : Frontier} {node : Nat} {rest : List Nat}
    (hr : f.ready.toList = node :: rest) : node ∈ f.ready := by
  show node ∈ f.ready.toList
  rw [hr]
  exact List.mem_cons_self

end Frontier

theorem nodup_successors (g : Graph) (a : Nat) : (g.successors a).Nodup := by
  refine List.pairwise_map.2 ?_
  refine List.Pairwise.imp_of_mem ?_ ((OrdSet.nodup g.edges).filter _)
  intro e d he hd hne ht
  have he : e.source = a := by simpa using (List.mem_filter.1 he).2
  have hd : d.source = a := by simpa using (List.mem_filter.1 hd).2
  obtain ⟨p, t⟩ := e
  obtain ⟨q, u⟩ := d
  cases he
  cases hd
  cases ht
  exact hne rfl

namespace Frontier.Fits

variable {f : Frontier} {placed : List Nat} {node : Nat}

theorem settle (h : f.Fits g placed) (hn : node ∈ f.ready) :
    (f.settle g node).Fits g (node :: placed) := by
  obtain ⟨hsize, hfresh, hzero⟩ := (h.ready node).1 hn
  have relaxed := foldl_relax (g.nodup_successors node) { f with ready := f.ready.erase node }
  have step := pending_cons (g := g) hfresh
  refine ⟨?_, ?_, ?_⟩
  · intro a ha
    have := step a
    rw [Frontier.settle, (relaxed a).1, h.waiting a ha]
    by_cases hs : a ∈ g.successors node
    · simp [hs] at this ⊢
      omega
    · simp [hs] at this ⊢
      omega
  · intro a
    have hstep := step a
    rw [Frontier.settle, (relaxed a).2, OrdSet.mem_erase, h.ready a, List.mem_cons, not_or]
    constructor
    · intro ha
      rcases ha with ⟨⟨hs, hp, hz⟩, hne⟩ | ⟨hs, w, hw, hwa⟩
      · exact ⟨hs, ⟨hne, hp⟩, by omega⟩
      · have hlt : a < g.size := (g.inside _ (g.mem_successors.1 hs)).2
        rw [h.waiting a hlt, Option.some.injEq] at hwa
        rw [if_pos hs] at hstep
        refine ⟨hlt, ⟨?_, ?_⟩, by omega⟩
        · intro e
          subst e
          omega
        · intro hp
          have := h.closed a hp
          omega
    · intro ha
      obtain ⟨hlt, ⟨hne, hp⟩, hz⟩ := ha
      by_cases hs : a ∈ g.successors node
      · rw [if_pos hs] at hstep
        exact .inr ⟨hs, _, by omega, h.waiting a hlt⟩
      · rw [if_neg hs] at hstep
        exact .inl ⟨⟨hlt, hp, by omega⟩, hne⟩
  · intro a ha
    have := step a
    rcases List.mem_cons.1 ha with rfl | ha
    · omega
    · have := h.closed a ha
      omega

/-- As long as an acyclic graph has nodes to place, one is ready. -/
theorem exists_ready (h : f.Fits g placed) (hg : g.Acyclic) {a : Nat} (ha : a < g.size)
    (hp : a ∉ placed) : ∃ node, node ∈ f.ready := by
  obtain ⟨rank, hr⟩ := hg.exists_rank
  induction hn : rank a using Nat.strongRecOn generalizing a with
  | ind n ih =>
    by_cases hz : g.pending placed a = 0
    · exact ⟨a, (h.ready a).2 ⟨ha, hp, hz⟩⟩
    · rw [pending_eq_zero] at hz
      simp only [Classical.not_forall] at hz
      obtain ⟨p, he, hnp⟩ := hz
      exact ih (rank p) (hn ▸ hr _ he) (g.inside _ he).1 hnp rfl

end Frontier.Fits

/-! ## The order -/

/-- What may be placed one after the other: each node once, and after its predecessors. -/
def Unfolds (g : Graph) : (placed order : List Nat) → Prop
  | _, [] => True
  | placed, a :: order =>
    a < g.size ∧ a ∉ placed ∧ (∀ p, ⟨p, a⟩ ∈ g.edges → p ∈ placed) ∧ Unfolds g (a :: placed) order

namespace Unfolds

variable {placed order : List Nat}

theorem lt_size (h : g.Unfolds placed order) : ∀ a ∈ order, a < g.size ∧ a ∉ placed := by
  induction order generalizing placed with
  | nil => simp
  | cons x order ih =>
    obtain ⟨hx, hp, -, h⟩ := h
    intro a ha
    rcases List.mem_cons.1 ha with rfl | ha
    · exact ⟨hx, hp⟩
    · obtain ⟨hs, hn⟩ := ih h a ha
      exact ⟨hs, fun hm => hn (List.mem_cons_of_mem _ hm)⟩

theorem nodup (h : g.Unfolds placed order) : order.Nodup := by
  induction order generalizing placed with
  | nil => exact List.nodup_nil
  | cons x order ih =>
    obtain ⟨-, -, -, h⟩ := h
    refine List.nodup_cons.2 ⟨?_, ih h⟩
    intro hx
    exact (h.lt_size x hx).2 List.mem_cons_self

theorem idxOf_lt (h : g.Unfolds placed order) {p a : Nat} (ha : a ∈ order) (he : ⟨p, a⟩ ∈ g.edges)
    (hp : p ∉ placed) : order.idxOf p < order.idxOf a := by
  induction order generalizing placed with
  | nil => cases ha
  | cons x order ih =>
    obtain ⟨-, -, hpred, h⟩ := h
    by_cases hxa : x = a
    · subst hxa
      exact absurd (hpred p he) hp
    · have ha : a ∈ order := by simpa [Ne.symm hxa] using ha
      by_cases hxp : x = p
      · subst hxp
        simp [hxa]
      · have hp : p ∉ x :: placed := by simp [Ne.symm hxp, hp]
        have := ih h ha hp
        simp [hxa, hxp]
        omega

end Unfolds

namespace Frontier.Fits

variable {f : Frontier} {placed : List Nat}

theorem unfolds_drain (h : f.Fits g placed) (room : Nat) :
    g.Unfolds placed (Frontier.drain g room f) := by
  induction room generalizing f placed with
  | zero => trivial
  | succ room ih =>
    rw [Frontier.drain]
    split
    · trivial
    · rename_i node rest hr
      have hn := mem_ready_of_cons hr
      obtain ⟨hs, hp, hz⟩ := (h.ready node).1 hn
      exact ⟨hs, hp, pending_eq_zero.1 hz, ih (h.settle hn)⟩

theorem length_drain (h : f.Fits g placed) (hg : g.Acyclic) {room : Nat} (hn : placed.Nodup)
    (hroom : placed.length + room = g.size) : (Frontier.drain g room f).length = room := by
  induction room generalizing f placed with
  | zero => rfl
  | succ room ih =>
    rw [Frontier.drain]
    split
    · rename_i hr
      -- Nodes are left to place, so the frontier cannot be empty.
      have hleft : ∃ a, a < g.size ∧ a ∉ placed := by
        refine Classical.byContradiction fun hall => ?_
        have hsub : List.range g.size ⊆ placed := by
          intro a ha
          refine Classical.byContradiction fun hp => hall ⟨a, List.mem_range.1 ha, hp⟩
        have := (List.subperm_of_subset List.nodup_range hsub).length_le
        rw [List.length_range] at this
        omega
      obtain ⟨a, ha, hp⟩ := hleft
      obtain ⟨node, hnode⟩ := h.exists_ready hg ha hp
      replace hnode : node ∈ f.ready.toList := hnode
      rw [hr] at hnode
      cases hnode
    · rename_i node rest hr
      have hnode := mem_ready_of_cons hr
      obtain ⟨-, hp, -⟩ := (h.ready node).1 hnode
      have := ih (h.settle hnode) (List.nodup_cons.2 ⟨hp, hn⟩) (by simp; omega)
      simpa using this

end Frontier.Fits

theorem linearizes_of_linearize {order : List Nat} (h : g.linearize = some order) :
    g.Linearizes order := by
  simp only [linearize] at h
  split at h
  · rename_i hlen
    have hu := (Frontier.fits_start g).unfolds_drain g.size
    cases h
    have hsub : Frontier.drain g g.size g.start ⊆ List.range g.size := by
      intro a ha
      exact List.mem_range.2 (hu.lt_size a ha).1
    have hperm := (List.subperm_of_subset hu.nodup hsub).perm_of_length_le (by simp [hlen])
    refine ⟨hperm, fun e he => hu.idxOf_lt ?_ he List.not_mem_nil⟩
    exact hperm.mem_iff.2 (List.mem_range.2 (g.inside e he).2)
  · cases h

theorem Acyclic.linearize (hg : g.Acyclic) : ∃ order, g.linearize = some order := by
  have hlen : (Frontier.drain g g.size g.start).length = g.size :=
    (Frontier.fits_start g).length_drain hg List.nodup_nil (Nat.zero_add _)
  refine ⟨Frontier.drain g g.size g.start, ?_⟩
  simp [Graph.linearize, hlen]

end Trellis.Graph
