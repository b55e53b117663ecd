/-
  Trellis.Proofs.Graph.Paths — paths and cycles while edges are added.

  A graph is its size and the set of its edges (`ext_edges`), so the order in which edges were
  added is forgotten. An edge adds exactly the paths that pass it once (`path_add`), and keeps
  the graph acyclic unless it closes a path (`acyclic_add`).

  A rank that every edge ascends rules cycles out (`Ascends.acyclic`); that every acyclic graph
  has one is shown where cycles are looked for.
-/
import Trellis.Graph

namespace Trellis.Graph

variable {g h : Graph}

/-! ## Edges -/

theorem ext_edges (hs : g.size = h.size) (he : ∀ e, e ∈ g.edges ↔ e ∈ h.edges) : g = h := by
  obtain ⟨n, es, hin⟩ := g
  obtain ⟨m, fs, hin'⟩ := h
  cases hs
  have : es = fs := Sorted.ext_mem he
  subst this
  rfl

@[simp] theorem size_discrete (n : Nat) : (discrete n).size = n := rfl

@[simp] theorem size_add (g : Graph) (a b : Nat) : (g.add a b).size = g.size := by
  unfold add
  split <;> rfl

@[simp] theorem size_addAll (g : Graph) (es : List Edge) : (g.addAll es).size = g.size := by
  induction es generalizing g with
  | nil => rfl
  | cons e es ih => exact (ih _).trans (size_add g _ _)

theorem not_mem_edges_discrete (n : Nat) (e : Edge) : e ∉ (discrete n).edges :=
  Sorted.not_mem_empty e

theorem mem_edges_add {a b : Nat} {e : Edge} :
    e ∈ (g.add a b).edges ↔ e ∈ g.edges ∨ e = ⟨a, b⟩ ∧ a < g.size ∧ b < g.size := by
  unfold add
  split
  · rename_i hs
    rw [OrdSet.mem_insert]
    constructor
    · rintro (he | he)
      · exact .inr ⟨he, hs⟩
      · exact .inl he
    · rintro (he | ⟨he, -⟩)
      · exact .inr he
      · exact .inl he
  · rename_i hs
    exact ⟨.inl, fun h => h.elim id fun h => absurd h.2 hs⟩

theorem mem_edges_addAll {es : List Edge} {e : Edge} :
    e ∈ (g.addAll es).edges ↔ e ∈ g.edges ∨ e ∈ es ∧ e.source < g.size ∧ e.target < g.size := by
  induction es generalizing g with
  | nil => simp [addAll]
  | cons d ds ih =>
    show e ∈ ((g.add d.source d.target).addAll ds).edges ↔ _
    rw [ih, mem_edges_add, size_add, List.mem_cons]
    constructor
    · rintro ((h | ⟨rfl, h⟩) | h)
      · exact .inl h
      · exact .inr ⟨.inl rfl, h⟩
      · exact .inr ⟨.inr h.1, h.2⟩
    · rintro (h | ⟨rfl | h, hs⟩)
      · exact .inl (.inl h)
      · exact .inl (.inr ⟨rfl, hs⟩)
      · exact .inr ⟨h, hs⟩

/-- The last edge of a list may as well be added last. -/
theorem addAll_cons (g : Graph) (e : Edge) (es : List Edge) :
    g.addAll (e :: es) = (g.addAll es).add e.source e.target := by
  refine ext_edges (by simp) fun d => ?_
  rw [mem_edges_addAll, mem_edges_add, mem_edges_addAll, size_addAll, List.mem_cons]
  constructor
  · rintro (h | ⟨rfl | h, hs⟩)
    · exact .inl (.inl h)
    · exact .inr ⟨rfl, hs⟩
    · exact .inl (.inr ⟨h, hs⟩)
  · rintro ((h | h) | ⟨rfl, hs⟩)
    · exact .inl h
    · exact .inr ⟨.inr h.1, h.2⟩
    · exact .inr ⟨.inl rfl, hs⟩

theorem addAll_edges (g : Graph) : (discrete g.size).addAll g.edges.toList = g := by
  refine ext_edges (by simp) fun e => ?_
  rw [mem_edges_addAll, size_discrete]
  constructor
  · rintro (h | ⟨h, -⟩)
    · exact absurd h (not_mem_edges_discrete _ e)
    · exact h
  · exact fun h => .inr ⟨h, g.inside e h⟩

/-! ## Paths -/

namespace Path

theorem single {a b : Nat} (h : ⟨a, b⟩ ∈ g.edges) : g.Path a b := .step h (.refl b)

theorem trans {a b c : Nat} (hab : g.Path a b) (hbc : g.Path b c) : g.Path a c := by
  induction hab with
  | refl => exact hbc
  | step h _ ih => exact .step h (ih hbc)

theorem mono (hsub : ∀ e ∈ g.edges, e ∈ h.edges) {a b : Nat} (hp : g.Path a b) : h.Path a b := by
  induction hp with
  | refl a => exact .refl a
  | step he _ ih => exact .step (hsub _ he) ih

end Path

theorem path_discrete {n a b : Nat} : (discrete n).Path a b ↔ a = b := by
  constructor
  · intro hp
    cases hp with
    | refl => rfl
    | step he => exact absurd he (not_mem_edges_discrete n _)
  · rintro rfl
    exact .refl a

theorem path_add {a b x y : Nat} (ha : a < g.size) (hb : b < g.size) :
    (g.add a b).Path x y ↔ g.Path x y ∨ g.Path x a ∧ g.Path b y := by
  have old : ∀ e ∈ g.edges, e ∈ (g.add a b).edges := fun e he => mem_edges_add.2 (.inl he)
  constructor
  · intro hp
    induction hp with
    | refl x => exact .inl (.refl x)
    | step he _ ih =>
      rcases mem_edges_add.1 he with he | ⟨he, -⟩
      · rcases ih with ih | ih
        · exact .inl (.step he ih)
        · exact .inr ⟨.step he ih.1, ih.2⟩
      · cases he
        -- A second pass of the new edge starts anew from its target.
        rcases ih with ih | ih
        · exact .inr ⟨.refl a, ih⟩
        · exact .inr ⟨.refl a, ih.2⟩
  · rintro (hp | ⟨hxa, hby⟩)
    · exact hp.mono old
    · have new : (g.add a b).Path a b := .single (mem_edges_add.2 (.inr ⟨rfl, ha, hb⟩))
      exact (hxa.mono old).trans (new.trans (hby.mono old))

/-! ## Cycles -/

theorem acyclic_add {a b : Nat} (hg : g.Acyclic) (ha : a < g.size) (hb : b < g.size)
    (hba : ¬ g.Path b a) : (g.add a b).Acyclic := by
  intro x y he hp
  rw [path_add ha hb] at hp
  rcases mem_edges_add.1 he with he | ⟨he, -⟩
  · rcases hp with hp | ⟨hya, hbx⟩
    · exact hg x y he hp
    · exact hba (hbx.trans (.step he hya))
  · cases he
    exact hba (hp.elim id And.left)

/-! ## Ranks -/

/-- Every edge leads from a smaller rank to a larger one. -/
def Ascends (g : Graph) (rank : Nat → Nat) : Prop :=
  ∀ e ∈ g.edges, rank e.source < rank e.target

namespace Ascends

variable {rank : Nat → Nat}

theorem eq_or_lt (hr : g.Ascends rank) {a b : Nat} (hp : g.Path a b) : a = b ∨ rank a < rank b := by
  induction hp with
  | refl => exact .inl rfl
  | step he _ ih =>
    have := hr _ he
    rcases ih with rfl | ih
    · exact .inr this
    · exact .inr (Nat.lt_trans this ih)

theorem acyclic (hr : g.Ascends rank) : g.Acyclic := by
  intro a b he hp
  have hlt : rank a < rank b := hr _ he
  rcases hr.eq_or_lt hp with rfl | h
  · omega
  · omega

end Ascends

end Trellis.Graph
