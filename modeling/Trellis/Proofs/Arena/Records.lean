/-
  Trellis.Proofs.Arena.Records — a nested tree written down as records.

  `Tree.arena` writes a record for every node of a tree and winds the counter back to 32 bits.
  Two arenas are the same if they hold the same records and their counters stand alike, so what an
  edit does to an arena can be said record by record.

  - `get?_arena`: the record of a node is what the tree tells of it.
  - `arena_rename`, `arena_add`: renaming and adding do to the records what they do to the tree,
    as long as there is a number left; where they fail the records stay as they are.
-/
import Trellis.Arena
import Trellis.Proofs.Store
import Trellis.Proofs.Tree.Ascents

namespace Trellis

namespace Forest

/-- The records of all nodes, in pre-order; `above` is the parent of the outermost nodes. -/
def records (above : Option NodeId) : Forest → List Node
  | empty => []
  | node id kind name below beside =>
    ⟨id, kind, name, above, below.roots⟩ :: (below.records (some id) ++ beside.records above)

theorem map_id_records (f : Forest) (above : Option NodeId) : (f.records above).map Node.id = f.ids := by
  induction f generalizing above with
  | empty => rfl
  | node id kind name below beside ihb ihs =>
    rw [records, List.map_cons, List.map_append, ihb, ihs, ids]

theorem find?_records (f : Forest) (above : Option NodeId) (n : NodeId) :
    (f.records above).find? (·.id = n) = f.find? n above := by
  induction f generalizing above with
  | empty => rfl
  | node id kind name below beside ihb ihs =>
    rw [records, find?, List.find?_cons]
    by_cases e : id = n
    · simp [e]
    · simp [e, List.find?_append, ihb, ihs]

theorem roots_rename (n : NodeId) (new : String) (f : Forest) : (f.rename n new).roots = f.roots := by
  induction f with
  | empty => rfl
  | node id kind name below beside _ ihs =>
    rw [rename]
    split
    · rfl
    · rw [roots, ihs, roots]

theorem find?_rename (m n : NodeId) (new : String) (f : Forest) (above : Option NodeId)
    (hd : f.Distinct) : (f.rename n new).find? m above =
      (f.find? m above).map fun node => if m = n then { node with name := new } else node := by
  induction f generalizing above with
  | empty => rfl
  | node id kind name below beside ihb ihs =>
    obtain ⟨⟨hib, his⟩, hb, hbs, -⟩ := distinct_node.1 hd
    rw [rename]
    by_cases e : id = n
    · subst e
      rw [if_pos rfl, find?, find?]
      by_cases em : id = m
      · simp [em]
      · rw [if_neg em, if_neg em]
        cases (below.find? m (some id)).or (beside.find? m above) with
        | none => rfl
        | some node => rw [Option.map_some, if_neg (Ne.symm em)]
    · rw [if_neg e, find?, find?, roots_rename, ihb _ hb, ihs _ hbs, ← Option.map_or]
      split
      · rename_i em
        rw [Option.map_some, if_neg fun emn => e (em.trans emn)]
      · rfl

end Forest

/-! ## Records under an edit -/

namespace Arena

variable {a b : Arena} {m n : NodeId}

theorem ext (hnodes : ∀ n, a.get? n = b.get? n) (hnext : a.next = b.next) : a = b := by
  cases a
  cases b
  rw [mk.injEq]
  exact ⟨OrdMap.ext hnodes, hnext⟩

theorem get?_insert (a : Arena) (node : Node) (m : NodeId) :
    (a.insert node).get? m = if node.id = m then some node else a.get? m :=
  OrdMap.get?_set _ _ _ _

theorem get?_adjust (a : Arena) (n : NodeId) (f : Node → Node) (m : NodeId) :
    (a.adjust n f).get? m = if n = m then (a.get? m).map f else a.get? m :=
  OrdMap.get?_adjust _ _ _ _

theorem eraseAll_eq (a : Arena) (gone : List NodeId) :
    a.eraseAll gone = { a with nodes := a.nodes.eraseAll gone } := by
  induction gone generalizing a with
  | nil => rfl
  | cons n gone ih => exact ih (a.erase n)

theorem get?_eraseAll (a : Arena) (gone : List NodeId) (m : NodeId) :
    (a.eraseAll gone).get? m = if m ∈ gone then none else a.get? m := by
  rw [eraseAll_eq]
  exact OrdMap.get?_eraseAll _ _ _

theorem next_eraseAll (a : Arena) (gone : List NodeId) : (a.eraseAll gone).next = a.next := by
  rw [eraseAll_eq]

end Arena

/-! ## A tree as an arena -/

namespace Tree

open Forest

/-- The records of a tree, and its counter as 32 bits show it. -/
def arena (t : Tree) : Arena :=
  ⟨Sorted.ofList ((t.whole.records none).map fun node => (node.id, node)), t.next % idCount⟩

/-- The tree that an edit leaves: after a failure the old one. -/
def after {α : Type} (t : Tree) : Except TreeError (α × Tree) → Tree
  | .ok (_, u) => u
  | .error _ => t

/-- How an edit ends, and the arena of the tree that it leaves. -/
def leaves {α : Type} (t : Tree) (result : Except TreeError (α × Tree)) : Except TreeError α × Arena :=
  (result.map Prod.fst, (t.after result).arena)

variable {t u : Tree} {n parent : NodeId}

theorem next_arena (t : Tree) : t.arena.next = t.next % idCount := rfl

theorem arena_new (name : String) : (new name).arena = Arena.new name := rfl

namespace WellFormed

variable (h : t.WellFormed)

include h

theorem get?_arena (n : NodeId) : t.arena.get? n = t.get? n := by
  have single : (((t.whole.records none).map fun node => (node.id, node)).map Prod.fst).Nodup := by
    rw [List.map_map]
    exact (map_id_records t.whole none).symm ▸ h.distinct
  rw [Arena.get?, arena, OrdMap.get?, Sorted.find?_ofList single, List.find?_map]
  refine Eq.trans ?_ (find?_records t.whole none n)
  simp [Function.comp_def]

theorem contains_arena (n : NodeId) : t.arena.contains n = t.contains n := by
  rw [Arena.contains, h.get?_arena, contains]

theorem kind?_arena (n : NodeId) : t.arena.kind? n = t.kind? n := by
  rw [Arena.kind?, h.get?_arena, kind?]

theorem parent?_arena (n : NodeId) : t.arena.parent? n = t.parent? n := by
  rw [Arena.parent?, h.get?_arena, parent?]

theorem children_arena (n : NodeId) : t.arena.children n = t.children n := by
  rw [Arena.children, h.get?_arena]
  cases hn : t.get? n with
  | none => simp only [children, hn]
  | some node => simp only [children, hn]

theorem arena_rename (n : NodeId) (name : String) :
    t.arena.rename n name = t.leaves ((t.rename n name).map fun u => ((), u)) := by
  rw [Arena.rename, Tree.rename, h.contains_arena]
  split
  · rename_i hn
    have hu := h.rename (rename_eq_ok.2 ⟨hn, rfl⟩ : t.rename n name = .ok _)
    rw [leaves, Prod.mk.injEq]
    refine ⟨rfl, Arena.ext (fun m => ?_) rfl⟩
    refine Eq.trans ?_ (hu.get?_arena m).symm
    rw [Arena.get?_adjust, h.get?_arena]
    show _ = (t.whole.rename n name).find? m none
    rw [find?_rename _ _ _ _ _ h.distinct, ← get?]
    by_cases e : n = m
    · rw [if_pos e, e]
      simp
    · simp [e, Ne.symm e]
  · rfl

/-- What adding makes of the records: the child has one, and the parent lists it. -/
theorem get?_add_cases {kind : Kind} {name : String} (he : t.add parent kind name = .ok (n, u))
    (m : NodeId) : u.get? m =
      if parent = m then (t.get? m).map fun node => { node with children := node.children ++ [n] }
      else if n = m then some ⟨n, kind, name, some parent, []⟩ else t.get? m := by
  obtain ⟨_, hk, -, rfl, rfl⟩ := add_eq_ok.1 he
  obtain ⟨p, hp, rfl, -⟩ := h.kind?_eq_some.1 hk
  rw [get?, get?]
  by_cases e : p.id = m
  · rw [if_pos e, ← e, find?_attach_self]
    rfl
  rw [if_neg e]
  by_cases hm : t.next = m
  · have fresh : t.next ∉ t.whole.ids := fun hin => Nat.lt_irrefl _ (h.fresh _ hin)
    rw [if_pos hm, ← hm, find?_attach_of_mem (mem_ids_iff.2 ⟨p, hp, rfl⟩) fresh, find?, if_pos rfl]
    rfl
  · rw [if_neg hm]
    exact find?_attach (Ne.symm e) (fun hin => hm (List.mem_singleton.1 hin).symm) none

/-- A new node gets the next number, if there is one left. -/
theorem arena_add {kind : Kind} {name : String}
    (few : (t.after (t.add parent kind name)).next ≤ idCount) :
    t.arena.add parent kind name = t.leaves (t.add parent kind name) := by
  cases hadd : t.add parent kind name with
  | error e =>
    rw [Arena.add, h.kind?_arena]
    rw [Tree.add] at hadd
    cases hk : t.kind? parent with
    | none =>
      rw [hk] at hadd
      cases hadd
      rfl
    | some k =>
      rw [hk] at hadd
      dsimp only at hadd ⊢
      split at hadd
      · cases hadd
      · rename_i hcan
        cases hadd
        rw [if_neg hcan]
        rfl
  | ok added =>
    obtain ⟨n, u⟩ := added
    rw [hadd] at few
    have hu := (h.grows_add hadd).elim fun _ hg => hg.2.wellFormed
    have records := h.get?_add_cases hadd
    obtain ⟨k, hk, hcan, rfl, rfl⟩ := add_eq_ok.1 hadd
    have few : t.next < idCount := few
    obtain ⟨p, hp, rfl, -⟩ := h.kind?_eq_some.1 hk
    have hne : t.next ≠ p.id := fun e => Nat.lt_irrefl _ (e ▸ h.lt_next hp)
    have hissue : t.arena.issue = (t.next, ⟨t.arena.nodes, (t.next + 1) % idCount⟩) := by
      rw [Arena.issue, next_arena, Nat.mod_eq_of_lt few]
    -- The parent is there still when the child has its record.
    have hthere : (Arena.insert ⟨t.arena.nodes, (t.next + 1) % idCount⟩
        ⟨t.next, kind, name, some p.id, []⟩).contains p.id = true := by
      rw [Arena.contains, Arena.get?_insert, if_neg hne]
      exact (h.contains_arena p.id).trans (h.contains_of_mem hp)
    rw [Arena.add, h.kind?_arena, hk, hissue]
    dsimp only
    rw [if_pos hcan, if_pos hthere, leaves, Prod.mk.injEq]
    refine ⟨rfl, Arena.ext (fun m => ?_) rfl⟩
    have hold : Arena.get? ⟨t.arena.nodes, (t.next + 1) % idCount⟩ m = t.get? m := h.get?_arena m
    refine Eq.trans ?_ ((hu.get?_arena m).trans (records m)).symm
    rw [Arena.get?_adjust, Arena.get?_insert, hold]
    by_cases e : p.id = m
    · rw [if_pos e, if_pos e, if_neg fun hm => hne (hm.trans e.symm)]
    · rw [if_neg e, if_neg e]

end WellFormed

end Tree

end Trellis
