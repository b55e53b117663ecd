/-
  Trellis.Proofs.Graph.Reachability — the rows of bits say what the edges reach.

  Adding an edge changes the rows by the same rule as the paths (`reaches_add`, `path_add`), so
  rows that are those of a graph stay those of the graph (`Tracks.add`).
-/
import Trellis.Graph.Reach
import Trellis.Proofs.Graph.Paths

namespace Trellis.Graph

namespace Reach

@[simp] theorem length_add (r : Reach) (a b : Nat) : (r.add a b).rows.length = r.rows.length := by
  simp [add]

/-- Rows that do not exist gain nothing: nothing is reached from them, before or after. -/
theorem reaches_add (r : Reach) (a b x y : Nat) :
    (r.add a b).reaches x y = (r.reaches x y || (r.reaches x a && r.reaches b y)) := by
  have row_add : (r.add a b).row x = if (r.row x).testBit a then r.row x ||| r.row b else r.row x := by
    by_cases hx : x < r.rows.length
    · simp [row, add, hx]
    · simp [row, add, hx]
  simp only [reaches, row_add]
  by_cases hx : (r.row x).testBit a
  · simp [hx, Nat.testBit_or]
  · simp [hx]

/-- The rows are those of a graph. -/
structure Tracks (r : Reach) (g : Graph) : Prop where
  length : r.rows.length = g.size
  reaches_iff : ∀ {a b : Nat}, a < g.size → (r.reaches a b = true ↔ g.Path a b)

theorem Tracks.lt_size {r : Reach} {g : Graph} (h : r.Tracks g) {a b : Nat}
    (hr : r.reaches a b = true) : a < g.size := by
  rw [← h.length]
  refine Nat.lt_of_not_le fun ha => ?_
  simp [reaches, row, ha] at hr

theorem tracks_discrete (n : Nat) : (discrete n).Tracks (Graph.discrete n) where
  length := by simp [discrete]
  reaches_iff {a b} ha := by
    replace ha : a < n := ha
    rw [path_discrete]
    simp [reaches, row, discrete, ha, Nat.one_shiftLeft, Nat.testBit_two_pow]

theorem Tracks.add {r : Reach} {g : Graph} (h : r.Tracks g) {a b : Nat} (ha : a < g.size)
    (hb : b < g.size) : (r.add a b).Tracks (g.add a b) where
  length := by simp [h.length]
  reaches_iff {x y} hx := by
    rw [size_add] at hx
    rw [reaches_add, path_add ha hb, Bool.or_eq_true, Bool.and_eq_true, h.reaches_iff hx,
      h.reaches_iff hx, h.reaches_iff hb]

theorem Tracks.addAll {r : Reach} {g : Graph} (h : r.Tracks g) {es : List Edge}
    (hes : ∀ e ∈ es, e.source < g.size ∧ e.target < g.size) : (r.addAll es).Tracks (g.addAll es) := by
  induction es generalizing r g with
  | nil => exact h
  | cons e es ih =>
    obtain ⟨hs, ht⟩ := hes e List.mem_cons_self
    refine ih (h.add hs ht) fun d hd => ?_
    rw [size_add]
    exact hes d (List.mem_cons_of_mem _ hd)

end Reach

theorem tracks_reach (g : Graph) : g.reach.Tracks g := by
  have h := Reach.Tracks.addAll (Reach.tracks_discrete g.size) (fun e he => g.inside e he)
  rw [addAll_edges] at h
  exact h

end Trellis.Graph
