/-
  Trellis.Proofs.Execution.Locality — where a commit writes, and what it reads.

  Committing an outcome touches what lies within its target and what the invocation has listed:
  the nodes it created and removed and those it staged markers for (`Touches`). Everywhere else
  the store stays as it is (`lookup_commit`), and of the tree it only matters what the touched
  nodes are (`commit_store_congr`). Both carry over to all outcomes of a step.
-/
import Mathlib.Data.List.Basic
import Trellis.Proofs.Execution.Step

namespace Trellis

variable {τ : Type} [MarkerFamily τ]

namespace Store

variable {s : Store τ} {m n : NodeId}

theorem lookup_write (hne : m ≠ n) (f : Entry τ → Entry τ) : lookup (write s m f) n = lookup s n := by
  rw [lookup, write, OrdMap.get?_set, if_neg hne, lookup]

theorem lookup_amend (hne : m ≠ n) (f : Entry τ → Entry τ) : lookup (amend s m f) n = lookup s n := by
  rw [lookup, amend, OrdMap.get?_adjust, if_neg hne, lookup]

theorem lookup_drop : lookup (drop s m) n = if m = n then none else lookup s n :=
  OrdMap.get?_erase s m n

/-- Writes none of which changes what is kept of a node. -/
theorem lookup_foldl {α : Type} {f : Store τ → α → Store τ} {l : List α}
    (hf : ∀ a ∈ l, ∀ s, lookup (f s a) n = lookup s n) (s : Store τ) :
    lookup (l.foldl f s) n = lookup s n := by
  induction l generalizing s with
  | nil => rfl
  | cons a l ih =>
    obtain ⟨ha, hl⟩ := List.forall_mem_cons.1 hf
    rw [List.foldl_cons, ih hl, ha]

end Store

namespace Session

variable {s s' : Session τ} {c : Contract} {expected : FactSet} {n target : NodeId}
  {staged : Staged τ} {o : NodeId × Outcome τ} {outcomes : List (NodeId × Outcome τ)}

/-- Of the nodes of a tree and others, those that committing an outcome is about. -/
def Touches (t : Tree) (o : NodeId × Outcome τ) (n : NodeId) : Prop :=
  n ∈ t.descendants o.1 ∨ ∃ staged ∈ o.2.staged?,
    n ∈ staged.created ∨ n ∈ staged.removed ∨ ∃ change ∈ staged.markers, change.1 = n

/-! ## Writing -/

theorem lookup_dropAll {store : Store τ} {nodes : List NodeId} :
    Store.lookup (dropAll store nodes) n = if n ∈ nodes then none else Store.lookup store n := by
  rw [dropAll]
  induction nodes generalizing store with
  | nil => rfl
  | cons m nodes ih =>
    rw [List.foldl_cons, ih, Store.lookup_drop]
    by_cases hmem : n ∈ nodes
    · rw [if_pos hmem, if_pos (List.mem_cons_of_mem _ hmem)]
    · by_cases hm : m = n
      · rw [if_neg hmem, if_pos hm, if_pos (by simp [hm])]
      · rw [if_neg hmem, if_neg hm, if_neg (by simp [hmem, Ne.symm hm])]

theorem lookup_commitEffects (h : n ∉ s.tree.descendants target) :
    Store.lookup (s.commitEffects c target).store n = Store.lookup s.store n := by
  have off {k : Kind} {m : NodeId} (hm : m ∈ s.tree.descendantsOfKind target k) : m ≠ n :=
    fun e => h (e ▸ (List.mem_filter.1 hm).1)
  have off' {m : NodeId} (hm : m ∈ s.tree.descendants target) : m ≠ n := fun e => h (e ▸ hm)
  unfold commitEffects
  dsimp only
  rw [Store.lookup_foldl, Store.lookup_foldl, Store.lookup_foldl]
  · intro tag _ store
    exact Store.lookup_foldl (fun m hm _ => Store.lookup_amend (off hm) _) store
  · intro tag _ store
    exact Store.lookup_foldl (fun m hm _ => Store.lookup_write (off hm) _) store
  · intro kind _ store
    exact Store.lookup_foldl (fun m hm _ => Store.lookup_amend (off' hm) _) store

theorem lookup_welcome {tree : Tree} {store : Store τ} {m : NodeId} (hne : m ≠ n) :
    Store.lookup (welcome tree expected store m) n = Store.lookup store n := by
  unfold welcome
  split
  · exact Store.lookup_foldl (fun _ _ _ => Store.lookup_write hne _) store
  · rfl

theorem lookup_commitStaged (hc : n ∉ staged.created) (hr : n ∉ staged.removed)
    (hm : ∀ change ∈ staged.markers, change.1 ≠ n) :
    Store.lookup (s.commitStaged expected staged).store n = Store.lookup s.store n := by
  unfold commitStaged
  dsimp only
  rw [Store.lookup_foldl, Store.lookup_foldl, lookup_dropAll, if_neg hr]
  · intro m hm store
    exact lookup_welcome fun e => hc (e ▸ hm)
  · intro change hchange store
    split
    · exact Store.lookup_write (hm change hchange) _
    · rfl

/-- A commit leaves alone what it does not touch. -/
theorem lookup_commit (h : ¬ Touches s.tree o n) :
    Store.lookup (s.commit c expected o).store n = Store.lookup s.store n := by
  obtain ⟨hd, hs⟩ := not_or.1 h
  rcases o with ⟨target, _ | staged | ⟨staged, e⟩⟩
  · exact lookup_commitEffects hd
  · have spared : ∀ change ∈ staged.markers, change.1 ≠ n :=
      fun change hc e => hs ⟨staged, rfl, .inr (.inr ⟨change, hc, e⟩)⟩
    have listed : Store.lookup (s.commitStaged expected staged).store n = Store.lookup s.store n := by
      refine lookup_commitStaged ?_ ?_ spared
      · exact fun hc => hs ⟨staged, rfl, .inl hc⟩
      · exact fun hr => hs ⟨staged, rfl, .inr (.inl hr)⟩
    have effects : Store.lookup ((s.commitStaged expected staged).commitEffects c target).store n =
        Store.lookup (s.commitStaged expected staged).store n := lookup_commitEffects hd
    exact effects.trans listed
  · rw [commit, lookup_dropAll, if_neg fun hr => hs ⟨staged, rfl, .inr (.inl hr)⟩]

theorem lookup_commitAll (h : ∀ o ∈ outcomes, ¬ Touches s.tree o n) :
    Store.lookup (outcomes.foldl (commit c expected) s).store n = Store.lookup s.store n := by
  induction outcomes generalizing s with
  | nil => rfl
  | cons o outcomes ih =>
    obtain ⟨ho, hos⟩ := List.forall_mem_cons.1 h
    rw [List.foldl_cons, ih (by rw [commit_tree]; exact hos), lookup_commit ho]

/-! ## Reading -/

theorem contains_eq (t : Tree) (n : NodeId) : t.contains n = (t.kind? n).isSome := by
  rw [Tree.contains, Tree.kind?, Option.isSome_map]

/-- Two trees that are alike to a commit: the target has the same below it, and what is touched is
    of the same kind in both, or in neither. -/
structure Alike (t u : Tree) (o : NodeId × Outcome τ) : Prop where
  descendants : t.descendants o.1 = u.descendants o.1
  kind? : ∀ n, Touches t o n → t.kind? n = u.kind? n

theorem commitEffects_congr (hstore : s.store = s'.store)
    (hd : s.tree.descendants target = s'.tree.descendants target)
    (hk : ∀ n ∈ s.tree.descendants target, s.tree.kind? n = s'.tree.kind? n) :
    (s.commitEffects c target).store = (s'.commitEffects c target).store := by
  have within (k : Kind) : s.tree.descendantsOfKind target k = s'.tree.descendantsOfKind target k := by
    rw [Tree.descendantsOfKind, Tree.descendantsOfKind, ← hd]
    exact List.filter_congr fun n hn => by rw [hk n hn]
  unfold commitEffects
  dsimp only
  simp only [within, hd, hstore]

theorem commitStaged_congr (hstore : s.store = s'.store)
    (hk : ∀ n, n ∈ staged.created ∨ (∃ change ∈ staged.markers, change.1 = n) →
      s.tree.kind? n = s'.tree.kind? n) :
    (s.commitStaged expected staged).store = (s'.commitStaged expected staged).store := by
  have welcomed (store : Store τ) : staged.created.foldl (welcome s.tree expected) store =
      staged.created.foldl (welcome s'.tree expected) store := by
    refine List.foldl_ext _ _ store fun store n hn => ?_
    rw [welcome, welcome, hk n (.inl hn)]
  unfold commitStaged
  dsimp only
  rw [welcomed, hstore]
  refine List.foldl_ext _ _ _ fun store change hc => ?_
  rw [contains_eq, contains_eq, hk change.1 (.inr ⟨change, hc, rfl⟩)]

/-- What a commit makes of a store depends on the tree only in what it touches. -/
theorem commit_store_congr (hstore : s.store = s'.store) (h : Alike s.tree s'.tree o) :
    (s.commit c expected o).store = (s'.commit c expected o).store := by
  have below : ∀ n ∈ s.tree.descendants o.1, s.tree.kind? n = s'.tree.kind? n :=
    fun n hn => h.kind? n (.inl hn)
  rcases o with ⟨target, _ | staged | ⟨staged, e⟩⟩
  · exact commitEffects_congr hstore h.descendants below
  · have listed : (s.commitStaged expected staged).store = (s'.commitStaged expected staged).store :=
      commitStaged_congr hstore fun n hn => h.kind? n (.inr ⟨staged, rfl, hn.imp_right .inr⟩)
    exact commitEffects_congr listed h.descendants below
  · rw [commit, commit, hstore]

theorem commitAll_store_congr (hstore : s.store = s'.store)
    (h : ∀ o ∈ outcomes, Alike s.tree s'.tree o) :
    (outcomes.foldl (commit c expected) s).store = (outcomes.foldl (commit c expected) s').store := by
  induction outcomes generalizing s s' with
  | nil => exact hstore
  | cons o outcomes ih =>
    obtain ⟨ho, hos⟩ := List.forall_mem_cons.1 h
    refine ih (commit_store_congr hstore ho) ?_
    rw [commit_tree, commit_tree]
    exact hos

/-- All that a commit changes is the store. -/
theorem commitAll_eq (c : Contract) (expected : FactSet) (outcomes : List (NodeId × Outcome τ))
    (s : Session τ) : outcomes.foldl (commit c expected) s =
      { s with store := (outcomes.foldl (commit c expected) s).store } := by
  induction outcomes generalizing s with
  | nil => rfl
  | cons o outcomes ih =>
    rw [List.foldl_cons, ih]
    rcases o with ⟨target, _ | staged | ⟨staged, e⟩⟩ <;> rfl

end Session

end Trellis
