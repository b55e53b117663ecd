/-
  Trellis.Proofs.Execution.Commute — commits that can change places.

  A commit makes of the entry of a node what it makes of it whatever else is stored
  (`lookup_commit_congr`), and leaves entries alone that it does not touch. So two commits that
  touch no node in common can be made in either order, and the outcomes of a step in any, if they
  touch different nodes (`commitAll_perm`).
-/
import Trellis.Proofs.Execution.Locality

namespace Trellis

variable {τ : Type} [MarkerFamily τ]

namespace Store

variable {s s' : Store τ} {m n : NodeId}

/-- Stores that have the same of every node are the same. -/
theorem ext (h : ∀ n, lookup s n = lookup s' n) : s = s' := OrdMap.ext h

/-! Each write makes of the entry of a node what it makes of it in any store. -/

variable (h : lookup s n = lookup s' n)

include h

theorem lookup_write_congr (f : Entry τ → Entry τ) :
    lookup (write s m f) n = lookup (write s' m f) n := by
  rw [lookup, lookup, write, write, OrdMap.get?_set, OrdMap.get?_set]
  split
  · rename_i e
    rw [e, entry, entry, h]
  · exact h

theorem lookup_amend_congr (f : Entry τ → Entry τ) :
    lookup (amend s m f) n = lookup (amend s' m f) n := by
  rw [lookup, lookup, amend, amend, OrdMap.get?_adjust, OrdMap.get?_adjust]
  split
  · exact congrArg _ h
  · exact h

theorem lookup_foldl_congr {α : Type} {f : Store τ → α → Store τ} {l : List α}
    (hf : ∀ a ∈ l, ∀ s s', lookup s n = lookup s' n → lookup (f s a) n = lookup (f s' a) n) :
    lookup (l.foldl f s) n = lookup (l.foldl f s') n := by
  induction l generalizing s s' with
  | nil => exact h
  | cons a l ih =>
    obtain ⟨ha, hl⟩ := List.forall_mem_cons.1 hf
    exact ih (ha s s' h) hl

end Store

namespace Session

variable {s s' : Session τ} {c : Contract} {expected : FactSet} {n target : NodeId}
  {staged : Staged τ} {x y : NodeId × Outcome τ} {outcomes outcomes' : List (NodeId × Outcome τ)}

section Congr

variable (htree : s.tree = s'.tree) (h : Store.lookup s.store n = Store.lookup s'.store n)

include htree h

theorem lookup_commitEffects_congr : Store.lookup (s.commitEffects c target).store n =
    Store.lookup (s'.commitEffects c target).store n := by
  unfold commitEffects
  dsimp only
  rw [htree]
  refine Store.lookup_foldl_congr (Store.lookup_foldl_congr (Store.lookup_foldl_congr h ?_) ?_) ?_
  · exact fun _ _ _ _ h => Store.lookup_foldl_congr h fun _ _ _ _ h => Store.lookup_amend_congr h _
  · exact fun _ _ _ _ h => Store.lookup_foldl_congr h fun _ _ _ _ h => Store.lookup_write_congr h _
  · exact fun _ _ _ _ h => Store.lookup_foldl_congr h fun _ _ _ _ h => Store.lookup_amend_congr h _

theorem lookup_commitStaged_congr : Store.lookup (s.commitStaged expected staged).store n =
    Store.lookup (s'.commitStaged expected staged).store n := by
  have dropped : Store.lookup (dropAll s.store staged.removed) n =
      Store.lookup (dropAll s'.store staged.removed) n := by
    rw [lookup_dropAll, lookup_dropAll, h]
  unfold commitStaged
  dsimp only
  rw [htree]
  refine Store.lookup_foldl_congr (Store.lookup_foldl_congr dropped ?_) ?_
  · intro m _ store store' h
    unfold welcome
    split
    · exact Store.lookup_foldl_congr h fun _ _ _ _ h => Store.lookup_write_congr h _
    · exact h
  · intro change _ store store' h
    split
    · exact Store.lookup_write_congr h _
    · exact h

/-- What a commit makes of the entry of a node does not depend on other entries. -/
theorem lookup_commit_congr : Store.lookup (s.commit c expected x).store n =
    Store.lookup (s'.commit c expected x).store n := by
  rcases x with ⟨target, _ | staged | ⟨staged, e⟩⟩
  · exact lookup_commitEffects_congr htree h
  · have listed : Store.lookup (s.commitStaged expected staged).store n =
      Store.lookup (s'.commitStaged expected staged).store n := lookup_commitStaged_congr htree h
    exact lookup_commitEffects_congr (s := s.commitStaged expected staged) htree listed
  · rw [commit, commit, lookup_dropAll, lookup_dropAll, h]

end Congr

theorem commit_comm (hxy : ∀ n, Touches s.tree x n → ¬ Touches s.tree y n) :
    ((s.commit c expected x).commit c expected y).store =
      ((s.commit c expected y).commit c expected x).store := by
  have tree (o : NodeId × Outcome τ) : (s.commit c expected o).tree = s.tree := commit_tree c expected s o
  -- Of two commits the one that does not touch a node can as well be left out.
  have spared {x y : NodeId × Outcome τ} {n : NodeId} (hx : ¬ Touches s.tree x n) :
      Store.lookup ((s.commit c expected x).commit c expected y).store n =
        Store.lookup ((s.commit c expected y).commit c expected x).store n := by
    have last : Store.lookup ((s.commit c expected y).commit c expected x).store n =
        Store.lookup (s.commit c expected y).store n :=
      lookup_commit (by rw [tree]; exact hx)
    exact (lookup_commit_congr (tree x) (lookup_commit hx)).trans last.symm
  refine Store.ext fun n => ?_
  by_cases hx : Touches s.tree x n
  · exact (spared (hxy n hx)).symm
  · exact spared hx

/-- What committing outcomes makes of the store, outcome by outcome. -/
theorem commitAll_store (c : Contract) (expected : FactSet) (s : Session τ) (store : Store τ)
    (outcomes : List (NodeId × Outcome τ)) :
    (outcomes.foldl (commit c expected) { s with store }).store =
      outcomes.foldl (fun store o => (commit c expected { s with store } o).store) store := by
  induction outcomes generalizing store with
  | nil => rfl
  | cons o outcomes ih =>
    have first := commitAll_eq c expected [o] { s with store }
    rw [List.foldl_cons, List.foldl_nil] at first
    rw [List.foldl_cons, List.foldl_cons, first, ih]

/-- Outcomes that touch different nodes can be committed in any order. -/
theorem commitAll_perm (hperm : outcomes.Perm outcomes')
    (hdisj : ∀ x ∈ outcomes, ∀ y ∈ outcomes, x ≠ y → ∀ n, Touches s.tree x n → ¬ Touches s.tree y n) :
    (outcomes.foldl (commit c expected) s).store = (outcomes'.foldl (commit c expected) s).store := by
  refine (commitAll_store c expected s s.store outcomes).trans
    (.trans ?_ (commitAll_store c expected s s.store outcomes').symm)
  refine hperm.foldl_eq' (fun x hx y hy store => ?_) s.store
  by_cases e : x = y
  · rw [e]
  · have swap (x y : NodeId × Outcome τ) :
        (commit c expected { s with store := (commit c expected { s with store } x).store } y).store =
          ((commit c expected { s with store } x).commit c expected y).store :=
      (commitAll_store c expected s store [x, y]).symm
    rw [swap, swap]
    exact commit_comm (hdisj x hx y hy e)

end Session

end Trellis
