/-
  Trellis.Proofs.Graph.Leastness — the order that nodes are placed in is the least.

  A counter that a placed node takes one off counts this node, so it is not down to zero; and as
  long as fewer nodes are placed than the graph has, there is room for the next. Placing nodes thus
  ends without a counter underflowing (`Frontier.Fits.drains`), as `Drains` has it, which runs while
  a node is ready and takes nothing off zero.

  Whatever order the edges agree with, the first node in it that is left to place is ready. The node
  that is placed is the least of the ready ones, so the order made is the least of these orders
  (`linearize_least`).
-/
import Trellis.Proofs.Graph.Linearization
import Trellis.Proofs.Places

namespace Trellis.Graph

variable {g : Graph} {placed order other : List Nat}

/-! ## Counters -/

namespace Frontier

/-- Relaxes a node, unless it has no counter or one that is down to zero. -/
def relax? (f : Frontier) (node : Nat) : Option Frontier :=
  match f.waiting[node]? with
  | some (_ + 1) => some (f.relax node)
  | _ => none

def settle? (g : Graph) (f : Frontier) (node : Nat) : Option Frontier :=
  (g.successors node).foldlM relax? { f with ready := f.ready.erase node }

/-- Placing the least ready node until there is none places these nodes, and takes nothing off a
    counter that is down to zero. -/
inductive Drains (g : Graph) : Frontier → List Nat → Prop
  | done {f : Frontier} : f.ready.toList = [] → Drains g f []
  | place {f f' : Frontier} {node : Nat} {rest order : List Nat} : f.ready.toList = node :: rest →
      f.settle? g node = some f' → Drains g f' order → Drains g f (node :: order)

theorem foldlM_relax? {ts : List Nat} (hts : ts.Nodup) (f : Frontier)
    (hpos : ∀ t ∈ ts, ∃ w, f.waiting[t]? = some (w + 1)) :
    ts.foldlM relax? f = some (ts.foldl relax f) := by
  induction ts generalizing f with
  | nil => rfl
  | cons t ts ih =>
    obtain ⟨ht, hts⟩ := List.nodup_cons.1 hts
    obtain ⟨w, hw⟩ := hpos t List.mem_cons_self
    have hrelax : f.relax? t = some (f.relax t) := by rw [relax?, hw]
    have hrest : ∀ t' ∈ ts, ∃ w, (f.relax t).waiting[t']? = some (w + 1) := by
      intro t' ht'
      have hne : t' ≠ t := fun heq => ht (heq ▸ ht')
      obtain ⟨w, hw⟩ := hpos t' (List.mem_cons_of_mem t ht')
      exact ⟨w, by rw [relax_waiting, hw, Option.map_some, if_neg hne]⟩
    rw [List.foldlM_cons, hrelax, List.foldl_cons]
    exact ih hts (f.relax t) hrest

namespace Fits

variable {f : Frontier} {node : Nat}

/-- The successors of a ready node wait for it, so each of their counters has one to take off. -/
theorem settle?_eq (h : f.Fits g placed) (hn : node ∈ f.ready) :
    f.settle? g node = some (f.settle g node) := by
  obtain ⟨-, hfresh, -⟩ := (h.ready node).1 hn
  refine foldlM_relax? (g.nodup_successors node) _ fun t ht => ⟨g.pending (node :: placed) t, ?_⟩
  have hlt : t < g.size := (g.inside _ (g.mem_successors.1 ht)).2
  rw [h.waiting t hlt, pending_cons hfresh, if_pos ht]

/-- A ready node is one more than those placed, of which there are no more than nodes. -/
theorem length_lt (h : f.Fits g placed) (hplaced : placed.Nodup) (hin : ∀ a ∈ placed, a < g.size)
    (hn : node ∈ f.ready) : placed.length < g.size := by
  obtain ⟨hlt, hfresh, -⟩ := (h.ready node).1 hn
  have hsub : node :: placed ⊆ List.range g.size :=
    List.cons_subset.2 ⟨List.mem_range.2 hlt, fun a ha => List.mem_range.2 (hin a ha)⟩
  have hle := (List.subperm_of_subset (List.nodup_cons.2 ⟨hfresh, hplaced⟩) hsub).length_le
  rwa [List.length_cons, List.length_range] at hle

/-- The room is never used up while a node is ready. -/
theorem drains (h : f.Fits g placed) (hplaced : placed.Nodup) (hin : ∀ a ∈ placed, a < g.size)
    {room : Nat} (hroom : placed.length + room = g.size) : Drains g f (drain g room f) := by
  induction room generalizing f placed with
  | zero =>
    refine .done (List.eq_nil_iff_forall_not_mem.2 fun node hn => ?_)
    exact absurd (h.length_lt hplaced hin hn) (by omega)
  | succ room ih =>
    rw [drain]
    split
    · rename_i hnone
      exact .done hnone
    · rename_i node rest hready
      have hn := mem_ready_of_cons hready
      obtain ⟨hlt, hfresh, -⟩ := (h.ready node).1 hn
      refine .place hready (h.settle?_eq hn) (ih (h.settle hn) (List.nodup_cons.2 ⟨hfresh, hplaced⟩) ?_ ?_)
      · exact List.forall_mem_cons.2 ⟨hlt, hin⟩
      · rw [List.length_cons]
        omega

end Fits

end Frontier

theorem drains_start (g : Graph) : Frontier.Drains g g.start (Frontier.drain g g.size g.start) :=
  (Frontier.fits_start g).drains List.nodup_nil (fun _ ha => absurd ha List.not_mem_nil)
    (Nat.zero_add _)

/-! ## The least order -/

/-- The edges agree with the order, and with none that comes before it in lexicographic order. -/
structure Least (g : Graph) (order : List Nat) : Prop where
  linearizes : g.Linearizes order
  least : ∀ other, g.Linearizes other → order = other ∨ List.Lex (· < ·) order other

theorem Linearizes.unfolds (h : g.Linearizes order) : g.Unfolds [] order := by
  suffices hrest : ∀ placed rest, order = placed.reverse ++ rest → g.Unfolds placed rest from
    hrest [] order rfl
  intro placed rest
  induction rest generalizing placed with
  | nil => exact fun _ => trivial
  | cons a rest ih =>
    intro horder
    have hnodup : (placed.reverse ++ a :: rest).Nodup := horder ▸ h.nodup
    have hlt : a < g.size := h.mem_iff.1 (by simp [horder])
    have hfresh : a ∉ placed := fun ha =>
      (List.nodup_append.1 hnodup).2.2 a (List.mem_reverse.2 ha) a List.mem_cons_self rfl
    refine ⟨hlt, hfresh, fun p hp => ?_, ih (a :: placed) (by simp [horder])⟩
    have hbefore := h.forward _ hp
    rw [horder] at hbefore
    exact List.mem_reverse.1 ((mem_before_iff hnodup).2 hbefore)

theorem Frontier.Fits.drain_least {f : Frontier} (h : f.Fits g placed) (hu : g.Unfolds placed other) :
    drain g other.length f = other ∨ List.Lex (· < ·) (drain g other.length f) other := by
  induction other generalizing f placed with
  | nil => exact .inl rfl
  | cons b other ih =>
    obtain ⟨hlt, hfresh, hpred, hu⟩ := hu
    have hb : b ∈ f.ready.toList := (h.ready b).2 ⟨hlt, hfresh, pending_eq_zero.2 hpred⟩
    rw [List.length_cons, drain]
    split
    · rename_i hnone
      rw [hnone] at hb
      cases hb
    · rename_i node rest hready
      have hascending := f.ready.ascending
      rw [hready] at hb hascending
      rcases List.mem_cons.1 hb with rfl | hb
      · rcases ih (h.settle (mem_ready_of_cons hready)) hu with heq | hlex
        · exact .inl (by rw [heq])
        · exact .inr (.cons hlex)
      · exact .inr (.rel (Nat.compare_eq_lt.1 ((List.pairwise_cons.1 hascending).1 b hb)))

theorem linearize_least (h : g.linearize = some order) : g.Least order := by
  refine ⟨linearizes_of_linearize h, fun other hother => ?_⟩
  have hlength : other.length = g.size := by
    rw [hother.complete.length_eq, List.length_range]
  have hleast := (Frontier.fits_start g).drain_least hother.unfolds
  simp only [linearize] at h
  split at h
  · cases h
    rwa [hlength] at hleast
  · cases h

theorem isSome_linearize : g.linearize.isSome = true ↔ g.Acyclic := by
  rw [Option.isSome_iff_exists]
  constructor
  · rintro ⟨order, h⟩
    have hrank : g.Ascends order.idxOf := (linearizes_of_linearize h).forward
    exact hrank.acyclic
  · exact Acyclic.linearize

/-- Where two orders that the edges agree with part, there is no edge between the nodes that come
    next in the one and in the other. -/
theorem Linearizes.not_mem_edges_of_part {pre xs ys : List Nat} {a b : Nat}
    (hx : g.Linearizes (pre ++ a :: xs)) (hy : g.Linearizes (pre ++ b :: ys)) :
    ⟨a, b⟩ ∉ g.edges := by
  intro hedge
  have ha : a ∈ pre := (mem_before_iff hy.nodup).2 (hy.forward _ hedge)
  exact (List.nodup_append.1 hx.nodup).2.2 a ha a List.mem_cons_self rfl

end Trellis.Graph
