/-
  Trellis.Proofs.Execution.Commit — what a step commits to the tags of a node.

  Staged changes forget what was removed and give created nodes the tags expected of them;
  effects add and remove the declared tags below the target. Over a step the two alternate,
  target by target. A node that no invocation removed, and that only an invocation above it
  created, ends up with what it had or was created with, less the declared removals, plus the
  declared additions, if it is below some target (`mem_tags_commitAll`).
-/
import Trellis.Execution
import Trellis.Proofs.Store

namespace Trellis.Session

variable {τ : Type} [MarkerFamily τ] {s : Session τ} {store : Store τ} {c : Contract}
  {expected : FactSet} {n target : NodeId} {t u : Tag}

theorem tags_foldl_clearMarker (store : Store τ) (kinds : List String) (nodes : List NodeId) :
    Store.tags (kinds.foldl (fun store kind =>
      nodes.foldl (fun store n => Store.clearMarker store n kind) store) store) n =
      Store.tags store n := by
  have inner (store : Store τ) (kind : String) :
      Store.tags (nodes.foldl (fun store n => Store.clearMarker store n kind) store) n =
        Store.tags store n := by
    induction nodes generalizing store with
    | nil => rfl
    | cons m nodes ih => rw [List.foldl_cons, ih, Store.tags_clearMarker]
  induction kinds generalizing store with
  | nil => rfl
  | cons kind kinds ih => rw [List.foldl_cons, ih, inner]

theorem mem_tags_commitEffects : u ∈ Store.tags (s.commitEffects c target).store n ↔
    Fact.tag u ∈ c.adds ∧ n ∈ s.tree.descendantsOfKind target u.scope ∨
    u ∈ Store.tags s.store n ∧
      ¬ (Fact.tag u ∈ c.removes ∧ n ∈ s.tree.descendantsOfKind target u.scope) := by
  unfold commitEffects
  dsimp only
  rw [tags_foldl_clearMarker, mem_tags_foldl_tagAll, mem_tags_foldl_removeTags, FactSet.mem_tags,
    FactSet.mem_tags]

theorem mem_tags_dropAll {nodes : List NodeId} :
    u ∈ Store.tags (dropAll store nodes) n ↔ u ∈ Store.tags store n ∧ n ∉ nodes := by
  rw [dropAll]
  induction nodes generalizing store with
  | nil => simp
  | cons m nodes ih =>
    rw [List.foldl_cons, ih, Store.mem_tags_drop, List.mem_cons]
    grind

theorem mem_tags_welcome {tree : Tree} {m : NodeId} :
    u ∈ Store.tags (welcome tree expected store m) n ↔
      m = n ∧ tree.kind? n = some u.scope ∧ Fact.tag u ∈ expected ∨ u ∈ Store.tags store n := by
  have insertAll (tags : List Tag) (store : Store τ) :
      u ∈ Store.tags (tags.foldl (fun store t => Store.insertTag store m t) store) n ↔
        m = n ∧ u ∈ tags ∨ u ∈ Store.tags store n := by
    induction tags generalizing store with
    | nil => simp
    | cons t tags ih =>
      rw [List.foldl_cons, ih, Store.mem_tags_insertTag, List.mem_cons]
      grind
  unfold welcome
  split
  · rename_i k hk
    rw [insertAll, FactSet.mem_tagsOf]
    by_cases e : m = n
    · subst e
      simp [hk, eq_comm]
    · simp [e]
  · rename_i hk
    by_cases e : m = n
    · subst e
      simp [hk]
    · simp [e]

theorem mem_tags_foldl_welcome {tree : Tree} {nodes : List NodeId} :
    u ∈ Store.tags (nodes.foldl (welcome tree expected) store) n ↔
      n ∈ nodes ∧ tree.kind? n = some u.scope ∧ Fact.tag u ∈ expected ∨ u ∈ Store.tags store n := by
  induction nodes generalizing store with
  | nil => simp
  | cons m nodes ih =>
    rw [List.foldl_cons, ih, mem_tags_welcome, List.mem_cons]
    grind

theorem mem_tags_commitStaged {staged : Staged τ} :
    u ∈ Store.tags (s.commitStaged expected staged).store n ↔
      n ∈ staged.created ∧ s.tree.kind? n = some u.scope ∧ Fact.tag u ∈ expected ∨
      u ∈ Store.tags s.store n ∧ n ∉ staged.removed := by
  have markers (changes : List (NodeId × MarkerChanges τ)) (store : Store τ) :
      Store.tags (changes.foldl (fun store change =>
        if s.tree.contains change.1 then Store.applyChanges store change.1 change.2 else store)
        store) n = Store.tags store n := by
    induction changes generalizing store with
    | nil => rfl
    | cons change changes ih =>
      rw [List.foldl_cons, ih]
      split
      · rw [Store.tags_applyChanges]
      · rfl
  unfold commitStaged
  dsimp only
  rw [markers, mem_tags_foldl_welcome, mem_tags_dropAll]

/-! ## The outcomes of a step -/

/-- Some invocation created the node. -/
def Created (outcomes : List (NodeId × Outcome τ)) (n : NodeId) : Prop :=
  ∃ target staged, (target, Outcome.completed staged) ∈ outcomes ∧ n ∈ staged.created

/-- The node is of kind `k` and below the target of some outcome. -/
def Reached (tree : Tree) (outcomes : List (NodeId × Outcome τ)) (k : Kind) (n : NodeId) : Prop :=
  ∃ o ∈ outcomes, n ∈ tree.descendantsOfKind o.1 k

/-- What the outcomes of a step without failure do not do to a node of a tree that is still there:
    none removed it, and one that created it did so below its target. -/
structure Spares (tree : Tree) (outcomes : List (NodeId × Outcome τ)) (n : NodeId) : Prop where
  succeeds : ∀ target staged e, (target, Outcome.failed staged e) ∉ outcomes
  keeps : ∀ target staged, (target, Outcome.completed staged) ∈ outcomes → n ∉ staged.removed
  owns : ∀ target staged k, (target, Outcome.completed staged) ∈ outcomes → n ∈ staged.created →
    tree.kind? n = some k → n ∈ tree.descendantsOfKind target k

theorem commit_tree (c : Contract) (expected : FactSet) (s : Session τ) (o : NodeId × Outcome τ) :
    (s.commit c expected o).tree = s.tree := by
  rcases o with ⟨target, _ | staged | ⟨staged, e⟩⟩ <;> rfl

theorem mem_tags_commit {o : NodeId × Outcome τ} (h : Spares s.tree [o] n) :
    u ∈ Store.tags (s.commit c expected o).store n ↔
      Fact.tag u ∈ c.adds ∧ Reached s.tree [o] u.scope n ∨
      (Created [o] n ∧ s.tree.kind? n = some u.scope ∧ Fact.tag u ∈ expected ∨
        u ∈ Store.tags s.store n) ∧ ¬ (Fact.tag u ∈ c.removes ∧ Reached s.tree [o] u.scope n) := by
  have reached : Reached s.tree [o] u.scope n ↔ n ∈ s.tree.descendantsOfKind o.1 u.scope := by
    simp [Reached]
  rw [reached]
  rcases o with ⟨target, _ | staged | ⟨staged, e⟩⟩
  · have : ¬ Created [(target, (.skipped : Outcome τ))] n := by simp [Created]
    rw [commit, mem_tags_commitEffects]
    simp [this]
  · have created : Created [(target, Outcome.completed staged)] n ↔ n ∈ staged.created := by
      constructor
      · intro h
        obtain ⟨target', staged', h, hn⟩ := h
        cases List.mem_singleton.1 h
        exact hn
      · exact fun hn => ⟨target, staged, List.mem_singleton.2 rfl, hn⟩
    have kept := h.keeps target staged List.mem_cons_self
    rw [commit, mem_tags_commitEffects, mem_tags_commitStaged, created]
    simp [kept, commitStaged]
  · exact absurd List.mem_cons_self (h.succeeds target staged e)

omit [MarkerFamily τ] in
theorem created_cons (o : NodeId × Outcome τ) (outcomes : List (NodeId × Outcome τ)) :
    Created (o :: outcomes) n ↔ Created [o] n ∨ Created outcomes n := by
  simp only [Created, List.mem_cons, List.not_mem_nil, or_false, or_and_right, exists_or]

omit [MarkerFamily τ] in
theorem reached_cons {tree : Tree} {k : Kind} (o : NodeId × Outcome τ)
    (outcomes : List (NodeId × Outcome τ)) :
    Reached tree (o :: outcomes) k n ↔ Reached tree [o] k n ∨ Reached tree outcomes k n := by
  simp only [Reached, List.mem_cons, List.not_mem_nil, or_false, or_and_right, exists_or]

omit [MarkerFamily τ] in
theorem spares_cons {tree : Tree} {o : NodeId × Outcome τ} {outcomes : List (NodeId × Outcome τ)} :
    Spares tree (o :: outcomes) n ↔ Spares tree [o] n ∧ Spares tree outcomes n := by
  constructor
  · intro h
    refine ⟨⟨?_, ?_, ?_⟩, ⟨?_, ?_, ?_⟩⟩
    · exact fun target staged e ho => h.succeeds target staged e (by simp_all)
    · exact fun target staged ho => h.keeps target staged (by simp_all)
    · exact fun target staged k ho => h.owns target staged k (by simp_all)
    · exact fun target staged e ho => h.succeeds target staged e (List.mem_cons_of_mem _ ho)
    · exact fun target staged ho => h.keeps target staged (List.mem_cons_of_mem _ ho)
    · exact fun target staged k ho => h.owns target staged k (List.mem_cons_of_mem _ ho)
  · intro h
    obtain ⟨h, hs⟩ := h
    refine ⟨?_, ?_, ?_⟩
    · intro target staged e ho
      rcases List.mem_cons.1 ho with rfl | ho
      · exact h.succeeds target staged e List.mem_cons_self
      · exact hs.succeeds target staged e ho
    · intro target staged ho
      rcases List.mem_cons.1 ho with rfl | ho
      · exact h.keeps target staged List.mem_cons_self
      · exact hs.keeps target staged ho
    · intro target staged k ho
      rcases List.mem_cons.1 ho with rfl | ho
      · exact h.owns target staged k List.mem_cons_self
      · exact hs.owns target staged k ho

omit [MarkerFamily τ] in
theorem Spares.reached {tree : Tree} {outcomes : List (NodeId × Outcome τ)} {k : Kind}
    (h : Spares tree outcomes n) (hc : Created outcomes n) (hk : tree.kind? n = some k) :
    Reached tree outcomes k n := by
  obtain ⟨target, staged, ho, hn⟩ := hc
  exact ⟨_, ho, h.owns target staged k ho hn hk⟩

/-- The tags of a node after all outcomes of a step are committed. -/
theorem mem_tags_commitAll {outcomes : List (NodeId × Outcome τ)} (h : Spares s.tree outcomes n)
    (hd : Fact.tag u ∈ c.adds → Fact.tag u ∉ c.removes) :
    u ∈ Store.tags (outcomes.foldl (commit c expected) s).store n ↔
      Fact.tag u ∈ c.adds ∧ Reached s.tree outcomes u.scope n ∨
      (Created outcomes n ∧ s.tree.kind? n = some u.scope ∧ Fact.tag u ∈ expected ∨
        u ∈ Store.tags s.store n) ∧
        ¬ (Fact.tag u ∈ c.removes ∧ Reached s.tree outcomes u.scope n) := by
  induction outcomes generalizing s with
  | nil => simp [Created, Reached]
  | cons o outcomes ih =>
    obtain ⟨ho, hos⟩ := spares_cons.1 h
    have first : u ∈ Store.tags (s.commit c expected o).store n ↔ _ := mem_tags_commit ho
    -- A node created later is below a target that comes later.
    have later : _ → s.tree.kind? n = some u.scope → _ := hos.reached
    have sooner : _ → s.tree.kind? n = some u.scope → _ := ho.reached
    have tree := commit_tree c expected s o
    rw [List.foldl_cons, ih (by rw [tree]; exact hos), tree, first, created_cons o outcomes,
      reached_cons o outcomes]
    by_cases hadd : Fact.tag u ∈ c.adds
    · have hrem := hd hadd
      simp only [hadd, hrem, true_and, false_and, not_false_eq_true, and_true]
      grind
    · simp only [hadd, false_and, false_or]
      grind

end Trellis.Session
