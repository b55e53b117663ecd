/-
  Trellis.Proofs.Tree.Records — what an edit leaves of the records of other nodes.

  The record of a node is its kind, its name, its parent and its children in order. Attaching
  below a node changes no other record (`find?_attach`). Taking a node out leaves outside its
  subtree every record as it was, but for the one of its parent, which loses a child and keeps
  the order of the others (`find?_detach`).
-/
import Trellis.Proofs.Tree.Kinship

namespace Trellis

/-- The record of a node that `n` is no child of any more. -/
def Node.withoutChild (node : Node) (n : NodeId) : Node :=
  { node with children := node.children.filter (· ≠ n) }

theorem Node.withoutChild_of_not_mem {node : Node} {n : NodeId} (h : n ∉ node.children) :
    node.withoutChild n = node := by
  have kept : node.children.filter (· ≠ n) = node.children := by
    refine List.filter_eq_self.2 fun c hc => decide_eq_true ?_
    rintro rfl
    exact h hc
  rw [withoutChild, kept]

namespace Forest

variable {f g child : Forest} {m n c : NodeId} {above : List (NodeId × Kind)}

theorem find?_append (f g : Forest) (n : NodeId) (up : Option NodeId) :
    (f ++ g).find? n up = (f.find? n up).or (g.find? n up) := by
  show (f.append g).find? n up = _
  induction f with
  | empty => rfl
  | node id kind name below beside _ ihs =>
    simp only [append, find?]
    split
    · rfl
    · rw [ihs, Option.or_assoc]

theorem mem_ids_of_mem_children {up : Option NodeId} {node : Node} (h : f.find? n up = some node)
    (hc : c ∈ node.children) : c ∈ f.ids := by
  induction f generalizing up with
  | empty => cases h
  | node id kind name below beside ihb ihs =>
    rw [ids, List.mem_cons, List.mem_append]
    rw [find?] at h
    split at h
    · cases h
      exact .inr (.inl (roots_subset_ids below hc))
    · rcases Option.or_eq_some_iff.1 h with h | ⟨-, h⟩
      · exact .inr (.inl (ihb h))
      · exact .inr (.inr (ihs h))

/-! ## Attaching -/

theorem roots_attach (n : NodeId) (child f : Forest) : (attach n child f).roots = f.roots := by
  induction f with
  | empty => rfl
  | node id kind name below beside _ ihs =>
    rw [attach]
    split
    · rfl
    · rw [roots, ihs, roots]

/-- A node that was there, other than the one that gets the child. -/
theorem find?_attach (hne : m ≠ n) (hchild : m ∉ child.ids) (up : Option NodeId) :
    (attach n child f).find? m up = f.find? m up := by
  induction f generalizing up with
  | empty => rfl
  | node id kind name below beside ihb ihs =>
    rw [attach]
    split
    · rename_i e
      have hid : id ≠ m := fun em => hne (em.symm.trans e)
      rw [find?, find?, if_neg hid, if_neg hid, find?_append, (find?_eq_none _).2 hchild,
        Option.or_none]
    · rw [find?, find?, ihb, ihs, roots_attach]

/-! ## Detaching -/

theorem roots_detach (hd : f.Distinct) : (f.detach n).roots = f.roots.filter (· ≠ n) := by
  induction f with
  | empty => rfl
  | node id kind name below beside _ ihs =>
    obtain ⟨⟨-, his⟩, -, hbs, -⟩ := distinct_node.1 hd
    rw [detach, roots]
    split
    · rename_i e
      have rest : beside.roots.filter (· ≠ n) = beside.roots := by
        refine List.filter_eq_self.2 fun r hr => decide_eq_true ?_
        rintro rfl
        exact his (e ▸ roots_subset_ids beside hr)
      rw [List.filter_cons_of_neg (by simpa using e), rest]
    · rename_i hne
      rw [roots, ihs hbs, List.filter_cons_of_pos (by simpa using hne)]

/-- A node that does not lie within the one that is taken out. -/
theorem find?_detach (hd : f.Distinct) (hm : ∀ p ∈ f.layout above, p.id = m → ¬ p.Within n)
    (up : Option NodeId) : (f.detach n).find? m up = (f.find? m up).map (·.withoutChild n) := by
  induction f generalizing above up with
  | empty => rfl
  | node id kind name below beside ihb ihs =>
    obtain ⟨⟨hib, his⟩, hb, hbs, -⟩ := distinct_node.1 hd
    obtain ⟨hself, hmb, hms⟩ := forall_mem_layout_node.1 hm
    rw [detach]
    split
    · rename_i e
      subst e
      have hne : id ≠ m := fun em => hself em (Place.within_self _)
      -- The forest beside knows nothing of the node, not even as a child.
      have rest : ∀ node ∈ beside.find? m up, node.withoutChild id = node := fun node hnode =>
        Node.withoutChild_of_not_mem fun hc => his (mem_ids_of_mem_children hnode hc)
      rw [find?, if_neg hne, (find?_eq_none _).2 (not_mem_below hmb), Option.none_or]
      cases hfind : beside.find? m up with
      | none => rfl
      | some node => rw [Option.map_some, rest node hfind]
    · rw [find?, find?]
      split
      · rw [Option.map_some, Node.withoutChild, roots_detach hb]
      · rw [ihb hb hmb, ihs hbs hms, Option.map_or]

end Forest

/-! ## In a tree -/

namespace Tree

variable {t u : Tree} {m n parent source : NodeId}

theorem get?_add {kind : Kind} {name : String} (he : t.add parent kind name = .ok (n, u))
    (hm : m < t.next) (hne : m ≠ parent) : u.get? m = t.get? m := by
  obtain ⟨-, -, -, rfl, rfl⟩ := add_eq_ok.1 he
  refine Forest.find?_attach hne (fun hin => ?_) none
  cases List.mem_singleton.1 hin
  exact Nat.lt_irrefl _ hm

theorem get?_clone {pairs : List (NodeId × NodeId)} (he : t.clone source parent = .ok (pairs, u))
    (hm : m < t.next) (hne : m ≠ parent) : u.get? m = t.get? m := by
  obtain ⟨-, sub, -, -, -, -, -, -, rfl, rfl⟩ := clone_eq_ok.1 he
  refine Forest.find?_attach hne (fun hin => ?_) none
  rw [Forest.ids_renumber, List.mem_range'_1] at hin
  exact Nat.not_lt.2 hin.1 hm

theorem WellFormed.get?_remove (h : t.WellFormed) {gone : List NodeId}
    (he : t.remove n = .ok (gone, u)) (hm : ∀ p ∈ t.places, p.id = m → ¬ p.Within n) :
    u.get? m = (t.get? m).map (·.withoutChild n) := by
  obtain ⟨-, -, rfl, rfl⟩ := remove_eq_ok.1 he
  exact Forest.find?_detach h.distinct hm none

end Tree

end Trellis
