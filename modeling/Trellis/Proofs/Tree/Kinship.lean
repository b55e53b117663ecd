/-
  Trellis.Proofs.Tree.Kinship — parents, children and subtrees, read off the places.

  The parent of a node is the innermost of the nodes above it, and its children are the nodes
  whose parent it is, in pre-order. So the two ways of asking who belongs to whom have the same
  answer (`mem_children`), and the subtree of a node is the node followed by the subtrees of its
  children (`descendants_eq`).
-/
import Trellis.Proofs.Tree.Subtrees

namespace Trellis

/-- The innermost of the nodes above. -/
def Place.parent? (p : Place) : Option NodeId := p.above.head?.map Prod.fst

namespace Forest

variable {f g : Forest} {above : List (NodeId × Kind)} {n r : NodeId} {p q : Place}

/-! ## Parents and children -/

/-- The nodes among some places whose parent is `n`. -/
def childrenOf (n : NodeId) (ps : List Place) : List NodeId :=
  (ps.filter (·.parent? = some n)).map Place.id

theorem mem_childrenOf {ps : List Place} {c : NodeId} :
    c ∈ childrenOf n ps ↔ ∃ q ∈ ps, q.id = c ∧ q.parent? = some n := by
  simp only [childrenOf, List.mem_map, List.mem_filter, decide_eq_true_eq]
  grind

theorem childrenOf_append (n : NodeId) (ps qs : List Place) :
    childrenOf n (ps ++ qs) = childrenOf n ps ++ childrenOf n qs := by
  simp [childrenOf]

theorem childrenOf_cons_of_ne {ps : List Place} (h : p.parent? ≠ some n) :
    childrenOf n (p :: ps) = childrenOf n ps := by
  simp [childrenOf, h]

/-- The parent of a node of a forest is the one the forest stands below, or in the forest. -/
theorem parent?_cases (hp : p ∈ f.layout above) :
    p.parent? = above.head?.map Prod.fst ∨ ∃ m ∈ f.ids, p.parent? = some m := by
  obtain ⟨mid, hmid, hin⟩ := above_eq hp
  cases mid with
  | nil => exact .inl (by rw [Place.parent?, hmid, List.nil_append])
  | cons x mid => exact .inr ⟨x.1, hin x List.mem_cons_self, by rw [Place.parent?, hmid]; rfl⟩

theorem childrenOf_eq_nil (hids : n ∉ f.ids) (habove : above.head?.map Prod.fst ≠ some n) :
    childrenOf n (f.layout above) = [] := by
  refine List.eq_nil_iff_forall_not_mem.2 fun c hc => ?_
  obtain ⟨q, hq, -, hparent⟩ := mem_childrenOf.1 hc
  rcases parent?_cases hq with h | ⟨m, hm, h⟩
  · exact habove (h.symm.trans hparent)
  · rw [h, Option.some.injEq] at hparent
    exact hids (hparent ▸ hm)

/-- The children of the node that a forest stands below are its outermost nodes. -/
theorem childrenOf_eq_roots (hids : n ∉ f.ids) (habove : above.head?.map Prod.fst = some n) :
    childrenOf n (f.layout above) = f.roots := by
  induction f with
  | empty => rfl
  | node id kind name below beside _ ihs =>
    simp only [ids, List.mem_cons, List.mem_append, not_or] at hids
    have hbelow : childrenOf n (below.layout ((id, kind) :: above)) = [] :=
      childrenOf_eq_nil hids.2.1 (by simpa using Ne.symm hids.1)
    have hfirst : childrenOf n [⟨id, kind, above⟩] = [id] := by
      simp [childrenOf, Place.parent?, habove]
    rw [layout, ← List.singleton_append, childrenOf_append, childrenOf_append, hfirst, hbelow,
      ihs hids.2.2, roots]
    rfl

/-- What a look-up finds of the parent and the children. -/
theorem find?_kin (hd : f.Distinct) (habove : ∀ x ∈ above, x.1 ∉ f.ids) {node : Node}
    (h : f.find? n (above.head?.map Prod.fst) = some node) :
    (∃ p ∈ f.layout above, p.id = n ∧ node.parent? = p.parent?) ∧
      node.children = childrenOf n (f.layout above) := by
  induction f generalizing above with
  | empty => cases h
  | node id kind name below beside ihb ihs =>
    obtain ⟨⟨hib, his⟩, hb, hbs, hdisj⟩ := distinct_node.1 hd
    have hfirst : n ∈ (Forest.node id kind name below beside).ids →
        (⟨id, kind, above⟩ : Place).parent? ≠ some n := by
      intro hn e
      obtain ⟨x, hx, rfl⟩ := Option.map_eq_some_iff.1 e
      exact habove x (List.mem_of_mem_head? hx) hn
    have haboves : ∀ x ∈ above, x.1 ∉ beside.ids := fun x hx hin => habove x hx (by simp [ids, hin])
    have hheads : n ∈ (Forest.node id kind name below beside).ids →
        above.head?.map Prod.fst ≠ some n := hfirst
    rw [find?] at h
    rw [layout]
    split at h
    · rename_i e
      cases h
      subst e
      have hmem : id ∈ (Forest.node id kind name below beside).ids := List.mem_cons_self
      refine ⟨⟨_, List.mem_cons_self, rfl, rfl⟩, ?_⟩
      rw [childrenOf_cons_of_ne (hfirst hmem), childrenOf_append, childrenOf_eq_roots hib rfl,
        childrenOf_eq_nil his (hheads hmem), List.append_nil]
    · rename_i hne
      rcases Option.or_eq_some_iff.1 h with h | ⟨-, h⟩
      · have habove' : ∀ x ∈ (id, kind) :: above, x.1 ∉ below.ids := by
          intro x hx hin
          rcases List.mem_cons.1 hx with rfl | hx
          · exact hib hin
          · exact habove x hx (by simp [ids, hin])
        obtain ⟨⟨p, hp, rfl, hparent⟩, hchildren⟩ := ihb hb habove' h
        have hin : p.id ∈ below.ids := (mem_ids _).2 ⟨p, hp, rfl⟩
        have hmem : p.id ∈ (Forest.node id kind name below beside).ids := by simp [ids, hin]
        refine ⟨⟨p, by simp [hp], rfl, hparent⟩, ?_⟩
        rw [childrenOf_cons_of_ne (hfirst hmem), childrenOf_append, hchildren,
          childrenOf_eq_nil (hdisj _ hin) (hheads hmem), List.append_nil]
      · obtain ⟨⟨p, hp, rfl, hparent⟩, hchildren⟩ := ihs hbs haboves h
        have hin : p.id ∈ beside.ids := (mem_ids _).2 ⟨p, hp, rfl⟩
        have hmem : p.id ∈ (Forest.node id kind name below beside).ids := by simp [ids, hin]
        refine ⟨⟨p, by simp [hp], rfl, hparent⟩, ?_⟩
        rw [childrenOf_cons_of_ne (hfirst hmem), childrenOf_append, hchildren,
          childrenOf_eq_nil (fun hb => hdisj _ hb hin) (by simpa using hne), List.nil_append]

/-! ## Subtrees of subtrees -/

theorem find?_eq_none (up : Option NodeId) : f.find? n up = none ↔ n ∉ f.ids := by
  induction f generalizing up with
  | empty => simp [find?, ids]
  | node id kind name below beside ihb ihs =>
    by_cases e : id = n
    · simp [find?, ids, e]
    · simp [find?, ids, e, Ne.symm e, ihb, ihs]

/-- What a look-up finds is the node at the top of the subtree. -/
theorem find?_of_subtree? {k : Kind} {name : String} {below : Forest} (up : Option NodeId)
    (hs : f.subtree? n = some (node n k name below empty)) :
    ∃ parent?, f.find? n up = some ⟨n, k, name, parent?, below.roots⟩ := by
  induction f generalizing up with
  | empty => cases hs
  | node id kind name' below' beside ihb ihs =>
    rw [subtree?] at hs
    rw [find?]
    split at hs
    · rename_i e
      cases hs
      exact ⟨up, if_pos rfl⟩
    · rename_i hne
      rw [if_neg hne]
      rcases Option.or_eq_some_iff.1 hs with hs | ⟨hnone, hs⟩
      · obtain ⟨parent?, hfind⟩ := ihb (some id) hs
        exact ⟨parent?, by rw [hfind, Option.some_or]⟩
      · obtain ⟨parent?, hfind⟩ := ihs up hs
        refine ⟨parent?, ?_⟩
        rw [(find?_eq_none _).2 (subtree?_eq_none.1 hnone), Option.none_or, hfind]

theorem roots_subset_ids (f : Forest) : f.roots ⊆ f.ids := by
  induction f with
  | empty => exact List.Subset.refl _
  | node id kind name below beside _ ihs =>
    rw [roots, ids]
    exact List.cons_subset_cons id fun r hr => List.mem_append_right _ (ihs hr)

/-- The subtree of a node that lies in the subtree of another. -/
theorem subtree?_of_mem (hd : f.Distinct) {sub : Forest} (hs : f.subtree? n = some sub)
    (hr : r ∈ sub.ids) : f.subtree? r = sub.subtree? r := by
  induction f with
  | empty => cases hs
  | node id kind name below beside ihb ihs =>
    obtain ⟨⟨hib, his⟩, hb, hbs, hdisj⟩ := distinct_node.1 hd
    rw [subtree?] at hs
    split at hs
    · cases hs
      have hbeside : r ∉ beside.ids := by
        rw [ids, ids, List.append_nil, List.mem_cons] at hr
        rcases hr with rfl | hr
        · exact his
        · exact hdisj r hr
      rw [subtree?, subtree?, subtree?_eq_none.2 hbeside]
      rfl
    · rcases Option.or_eq_some_iff.1 hs with hs | ⟨-, hs⟩
      · have hin : r ∈ below.ids := (sublist_ids_subtree hs).subset hr
        have hne : id ≠ r := fun e => hib (e ▸ hin)
        rw [subtree?, if_neg hne, subtree?_eq_none.2 (hdisj r hin), Option.or_none, ihb hb hs]
      · have hin : r ∈ beside.ids := (sublist_ids_subtree hs).subset hr
        have hne : id ≠ r := fun e => his (e ▸ hin)
        rw [subtree?, if_neg hne, subtree?_eq_none.2 fun hb => hdisj r hb hin, Option.none_or,
          ihs hbs hs]

/-- Pre-order goes through the trees of a forest one after the other. -/
theorem ids_eq_flatMap_roots (hd : f.Distinct) :
    f.ids = f.roots.flatMap fun r => (f.subtree? r).elim [] ids := by
  induction f with
  | empty => rfl
  | node id kind name below beside _ ihs =>
    obtain ⟨⟨hib, his⟩, hb, hbs, hdisj⟩ := distinct_node.1 hd
    have hfirst : (node id kind name below beside).subtree? id = some (node id kind name below empty) := by
      rw [subtree?, if_pos rfl]
    have hrest : (beside.roots.flatMap fun r => ((node id kind name below beside).subtree? r).elim [] ids) =
        beside.roots.flatMap fun r => (beside.subtree? r).elim [] ids := by
      refine List.flatMap_congr fun r hr => ?_
      have hr : r ∈ beside.ids := roots_subset_ids beside hr
      have hne : id ≠ r := fun e => his (e ▸ hr)
      rw [subtree?, if_neg hne, subtree?_eq_none.2 fun hb => hdisj r hb hr, Option.none_or]
    rw [roots, List.flatMap_cons, hfirst, hrest, ← ihs hbs]
    simp [ids]

end Forest

namespace Tree

open Forest

variable {t : Tree} {m n a d : NodeId} {p q : Place}

theorem descendants_eq_elim (t : Tree) (n : NodeId) :
    t.descendants n = (t.whole.subtree? n).elim [] Forest.ids := by
  rw [descendants]
  split <;> simp_all

namespace WellFormed

variable (h : t.WellFormed)

include h

theorem get?_kin {node : Node} (hn : t.get? n = some node) :
    (∃ p ∈ t.places, p.id = n ∧ node.parent? = p.parent?) ∧ node.children = childrenOf n t.places :=
  find?_kin h.distinct (by simp) hn

theorem get?_of_mem (hp : p ∈ t.places) : ∃ node, t.get? p.id = some node ∧
    node.parent? = p.parent? ∧ node.children = childrenOf p.id t.places := by
  obtain ⟨node, hnode⟩ := Option.isSome_iff_exists.1 (h.contains_of_mem hp)
  obtain ⟨⟨q, hq, hid, hparent⟩, hchildren⟩ := h.get?_kin hnode
  rw [h.eq_of_id_eq hq hp hid] at hparent
  exact ⟨node, hnode, hparent, hchildren⟩

/-- The record of a node is told by its place and its subtree. -/
theorem get?_congr {u : Tree} (h' : u.WellFormed) (hp : p ∈ t.places) (hp' : p ∈ u.places)
    (hs : u.whole.subtree? p.id = t.whole.subtree? p.id) : u.get? p.id = t.get? p.id := by
  obtain ⟨node, hnode, hparent, -⟩ := h.get?_of_mem hp
  obtain ⟨node', hnode', hparent', -⟩ := h'.get?_of_mem hp'
  cases hsub : t.whole.subtree? p.id with
  | none => exact absurd (mem_ids_iff.2 ⟨p, hp, rfl⟩) (subtree?_eq_none.1 hsub)
  | some sub =>
    obtain ⟨r, -, name, below, hid, rfl, -⟩ := layout_subtree? [] h.distinct List.not_mem_nil hsub
    rw [← hid] at hsub hs hnode hnode' ⊢
    obtain ⟨parent, hfind⟩ := find?_of_subtree? none hsub
    obtain ⟨parent', hfind'⟩ := find?_of_subtree? none (hs.trans hsub)
    cases hfind.symm.trans hnode
    cases hfind'.symm.trans hnode'
    -- Both parents are the one of the place.
    rw [get?, get?, hfind, hfind', show parent = p.parent? from hparent,
      show parent' = p.parent? from hparent']

theorem parent?_of_mem (hp : p ∈ t.places) : t.parent? p.id = p.parent? := by
  obtain ⟨node, hnode, hparent, -⟩ := h.get?_of_mem hp
  rw [Tree.parent?, hnode]
  exact hparent

theorem children_of_mem (hp : p ∈ t.places) : t.children p.id = childrenOf p.id t.places := by
  obtain ⟨node, hnode, -, hchildren⟩ := h.get?_of_mem hp
  rw [children, hnode]
  exact hchildren

theorem parent?_eq_some : t.parent? n = some m ↔ ∃ p ∈ t.places, p.id = n ∧ p.parent? = some m := by
  constructor
  · intro hn
    obtain ⟨node, hnode, hparent⟩ := Option.bind_eq_some_iff.1 hn
    obtain ⟨⟨p, hp, hid, he⟩, -⟩ := h.get?_kin hnode
    exact ⟨p, hp, hid, he.symm.trans hparent⟩
  · intro hn
    obtain ⟨p, hp, rfl, hparent⟩ := hn
    rw [h.parent?_of_mem hp, hparent]

omit h in
/-- The parent of a node has a place, with the rest of the line above it. -/
theorem exists_parent_place (hp : p ∈ t.places) (hparent : p.parent? = some m) :
    ∃ q ∈ t.places, q.id = m ∧ p.above = q.line := by
  obtain ⟨x, hx, rfl⟩ := Option.map_eq_some_iff.1 hparent
  obtain ⟨rest, habove⟩ : ∃ rest, p.above = x :: rest := by
    cases habove : p.above with
    | nil => simp [habove] at hx
    | cons y rest => exact ⟨rest, by simp_all⟩
  have hline : p.line = [(p.id, p.kind)] ++ x :: (rest ++ []) := by simp [Place.line, habove]
  have hq := mem_layout_of_line hp hline
  rw [List.append_nil] at hq
  exact ⟨_, hq, rfl, habove⟩

/-- A node is listed among the children of exactly the node it names as its parent. -/
theorem mem_children : n ∈ t.children m ↔ t.parent? n = some m := by
  rw [h.parent?_eq_some]
  constructor
  · intro hn
    rw [children] at hn
    split at hn
    · rename_i node hnode
      rw [(h.get?_kin hnode).2, mem_childrenOf] at hn
      exact hn
    · cases hn
  · intro hn
    obtain ⟨p, hp, hid, hparent⟩ := hn
    obtain ⟨q, hq, rfl, -⟩ := exists_parent_place hp hparent
    rw [h.children_of_mem hq, mem_childrenOf]
    exact ⟨p, hp, hid, hparent⟩

theorem nodup_children (m : NodeId) : (t.children m).Nodup := by
  rw [children]
  split
  · rename_i node hnode
    rw [(h.get?_kin hnode).2]
    refine List.Nodup.sublist (List.filter_sublist.map _) ?_
    rw [← ids_eq_map_places]
    exact h.distinct
  · exact List.nodup_nil

theorem nodup_descendants (n : NodeId) : (t.descendants n).Nodup := by
  rw [descendants_eq_elim]
  cases hs : t.whole.subtree? n with
  | none => exact List.nodup_nil
  | some sub => exact h.distinct.subtree hs

/-- The subtree of a node is the node, followed by the subtrees of its children. -/
theorem descendants_eq (hn : t.contains n = true) :
    t.descendants n = n :: (t.children n).flatMap t.descendants := by
  obtain ⟨p, hp, rfl⟩ : ∃ p ∈ t.places, p.id = n := by
    obtain ⟨node, hnode⟩ := Option.isSome_iff_exists.1 hn
    obtain ⟨⟨p, hp, hid, -⟩, -⟩ := h.get?_kin hnode
    exact ⟨p, hp, hid⟩
  cases hs : t.whole.subtree? p.id with
  | none => exact absurd (mem_ids_iff.2 ⟨p, hp, rfl⟩) (subtree?_eq_none.1 hs)
  | some sub =>
    obtain ⟨r, hr, name, below, hid, rfl, hl⟩ := layout_subtree? [] h.distinct List.not_mem_nil hs
    obtain rfl := h.eq_of_id_eq hr hp hid
    have hsub : (node r.id r.kind name below empty).Distinct := h.distinct.subtree hs
    obtain ⟨⟨hbelow, -⟩, hdistinct, -⟩ := distinct_node.1 hsub
    -- The children of the node are the outermost of the nodes below it.
    have hchildren : t.children r.id = below.roots := by
      obtain ⟨parent?, hfind⟩ := find?_of_subtree? none hs
      rw [children, get?, hfind]
    rw [hchildren, descendants_eq_elim, hs, Option.elim_some, Forest.ids, Forest.ids, List.append_nil,
      ids_eq_flatMap_roots hdistinct]
    refine congrArg _ (List.flatMap_congr fun c hc => ?_)
    have hc := roots_subset_ids below hc
    have hne : r.id ≠ c := fun e => hbelow (e ▸ hc)
    rw [descendants_eq_elim, subtree?_of_mem h.distinct hs (by simp [Forest.ids, hc]), subtree?,
      if_neg hne, subtree?, Option.or_none]

end WellFormed

end Tree

end Trellis
