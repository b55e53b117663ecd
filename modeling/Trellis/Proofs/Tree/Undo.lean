/-
  Trellis.Proofs.Tree.Undo — removing a node takes its subtree and nothing else.

  What goes is what the walk from the node finds: the nodes from which parents lead up to it. Of
  the others only the parent has changed, by a child that it has no more (`Removed`). So removing
  what has just been added or copied gives back the tree as it was, but for the counter
  (`remove_attach`).

  - `removal_undoes`: all of it, for every tree that calls have built.
-/
import Trellis.Proofs.Tree.Copies

namespace Trellis.Tree

open Forest

/-- `u` is `t` without `n` and what is below it, which `gone` lists. -/
structure Removed (t : Tree) (n : NodeId) (gone : List NodeId) (u : Tree) : Prop where
  descendants : gone = t.descendants n
  walked : t.Walk [n] gone
  /-- What goes are the nodes from which parents lead up to `n`. -/
  below : ∀ m, m ∈ gone ↔ t.contains m = true ∧
    Relation.ReflTransGen (fun child parent => t.parent? child = some parent) m n
  live : ∀ m, u.contains m = true ↔ t.contains m = true ∧ m ∉ gone
  /-- The parent keeps its other children in their order. -/
  parent : ∀ m node, t.parent? n = some m → t.get? m = some node → u.get? m = some (node.withoutChild n)
  others : ∀ m, m ∉ gone → t.parent? n ≠ some m → u.get? m = t.get? m
  next : u.next = t.next

variable {t u : Tree} {m n c parent : NodeId} {gone : List NodeId} {p q : Place}

namespace WellFormed

variable (h : t.WellFormed)

include h

/-- A node lies within another if parents lead from it to that one. -/
theorem within_iff_reflTransGen (hq : q ∈ t.places) : q.Within n ↔
    Relation.ReflTransGen (fun child parent => t.parent? child = some parent) q.id n := by
  constructor
  · intro hw
    induction habove : q.above generalizing q with
    | nil =>
      rw [Place.Within, Place.line, habove, List.map_singleton, List.mem_singleton] at hw
      rw [hw]
    | cons x rest ih =>
      rw [Place.Within, Place.line, List.map_cons, List.mem_cons] at hw
      rcases hw with rfl | hw
      · exact .refl
      · have hparent : q.parent? = some x.1 := by rw [Place.parent?, habove]; rfl
        obtain ⟨r, hr, hid, hline⟩ := exists_parent_place hq hparent
        rw [habove, Place.line, List.cons.injEq] at hline
        refine .head (h.parent?_eq_some.2 ⟨q, hq, rfl, hid ▸ hparent⟩) (ih hr ?_ hline.2.symm)
        rwa [Place.Within, Place.line, ← hline.1, ← hline.2, ← habove]
  · intro hup
    generalize hid : q.id = a at hup
    induction hup using Relation.ReflTransGen.head_induction_on generalizing q with
    | refl => exact hid ▸ q.within_self
    | head hstep _ ih =>
      obtain ⟨q', hq', rfl, hparent⟩ := h.parent?_eq_some.1 hstep
      obtain rfl := h.eq_of_id_eq hq hq' hid
      obtain ⟨r, hr, rfl, habove⟩ := exists_parent_place hq hparent
      rw [Place.Within, Place.line, List.map_cons, List.mem_cons, habove]
      exact .inr (ih hr rfl)

omit h in
theorem exists_remove_iff :
    (∃ gone u, t.remove n = .ok (gone, u)) ↔ t.contains n = true ∧ n ≠ root := by
  constructor
  · rintro ⟨gone, u, he⟩
    obtain ⟨hroot, hlive, -⟩ := remove_eq_ok.1 he
    exact ⟨hlive, hroot⟩
  · rintro ⟨hlive, hroot⟩
    exact ⟨_, _, remove_eq_ok.2 ⟨hroot, hlive, rfl, rfl⟩⟩

theorem removed (he : t.remove n = .ok (gone, u)) : Removed t n gone u := by
  obtain ⟨rfl, hs⟩ := h.shrinks_remove he
  have hout (m : NodeId) (hm : m ∉ t.descendants n) : ∀ p ∈ t.places, p.id = m → ¬ p.Within n :=
    fun p hp hid hw => hm (h.mem_descendants.2 ⟨p, hp, hid, hw⟩)
  refine ⟨rfl, h.walk_iff.2 rfl, fun m => ?below, fun m => ?live, fun m node hparent hm => ?parent,
    fun m hm hparent => ?others, hs.next⟩
  case below =>
    rw [h.mem_descendants, h.contains_iff]
    constructor
    · rintro ⟨p, hp, rfl, hw⟩
      exact ⟨⟨p, hp, rfl⟩, (h.within_iff_reflTransGen hp).1 hw⟩
    · rintro ⟨⟨p, hp, rfl⟩, hup⟩
      exact ⟨p, hp, rfl, (h.within_iff_reflTransGen hp).2 hup⟩
  case live =>
    rw [hs.wellFormed.contains_iff, h.contains_iff]
    constructor
    · rintro ⟨p, hp, rfl⟩
      obtain ⟨hp, hw⟩ := (hs.places p).1 hp
      refine ⟨⟨p, hp, rfl⟩, fun hin => ?_⟩
      obtain ⟨q, hq, hid, hqw⟩ := h.mem_descendants.1 hin
      exact hw (h.eq_of_id_eq hq hp hid ▸ hqw)
    · rintro ⟨⟨p, hp, rfl⟩, hm⟩
      exact ⟨p, (hs.places p).2 ⟨hp, hout p.id hm p hp rfl⟩, rfl⟩
  case parent =>
    have hm' : m ∉ t.descendants n := by
      intro hin
      obtain ⟨p, hp, rfl, hw⟩ := h.mem_descendants.1 hin
      -- Else parents would lead from the parent back to itself.
      have hcycle := Relation.TransGen.tail' ((h.within_iff_reflTransGen hp).1 hw) hparent
      exact h.coherent.acyclic _ hcycle
    rw [h.get?_remove he (hout m hm'), hm, Option.map_some]
  case others =>
    rw [h.get?_remove he (hout m hm)]
    cases hnode : t.get? m with
    | none => rfl
    | some node =>
      have hchild : n ∉ node.children := by
        intro hin
        refine hparent (h.mem_children.1 ?_)
        rw [children, hnode]
        exact hin
      rw [Option.map_some, Node.withoutChild_of_not_mem hchild]

/-- Removing a new node with what is below it gives back the tree it was attached to. -/
theorem remove_attach (hp : p ∈ t.places) {kind : Kind} {name : String} {below : Forest} {next : NodeId}
    (hnew : c ∉ t.whole.ids) :
    (⟨Forest.attach p.id (.node c kind name below .empty) t.whole, next⟩ : Tree).remove c =
      .ok (c :: below.ids, { t with next := next }) := by
  have hlive : p.id ∈ t.whole.ids := mem_ids_iff.2 ⟨p, hp, rfl⟩
  have hroot : c ≠ root := by
    rintro rfl
    obtain ⟨q, hq, hid, -⟩ := h.topmost_program.2 rfl
    exact hnew (mem_ids_iff.2 ⟨q, hq, hid⟩)
  have hcontains :
      (⟨Forest.attach p.id (.node c kind name below .empty) t.whole, next⟩ : Tree).contains c = true := by
    rw [contains, get?, find?_attach_of_mem hlive hnew, find?, if_pos rfl]
    rfl
  rw [remove, if_neg hroot, if_pos hcontains, descendants_eq_elim, subtree?_attach_of_mem hlive hnew,
    subtree?, if_pos rfl, detach_attach hnew, detach, if_pos rfl, attach_empty, Option.elim_some,
    Forest.ids, Forest.ids, List.append_nil]

theorem remove_add {kind : Kind} {name : String} (he : t.add parent kind name = .ok (c, u)) :
    t.next < u.next ∧ u.remove c = .ok ([c], { t with next := u.next }) := by
  obtain ⟨k, hk, -, rfl, rfl⟩ := add_eq_ok.1 he
  obtain ⟨p, hp, rfl, -⟩ := h.kind?_eq_some.1 hk
  exact ⟨Nat.lt_succ_self _, h.remove_attach hp fun hin => Nat.lt_irrefl _ (h.fresh _ hin)⟩

theorem remove_clone {source : NodeId} {pairs : List (NodeId × NodeId)}
    (he : t.clone source parent = .ok (pairs, u)) :
    ∃ copy, pairs.head? = some (source, copy) ∧ t.next < u.next ∧
      u.remove copy = .ok (pairs.map Prod.snd, { t with next := u.next }) := by
  obtain ⟨-, sub, kind, k, hs, -, hk, -, rfl, rfl⟩ := clone_eq_ok.1 he
  obtain ⟨p, hp, rfl, -⟩ := h.kind?_eq_some.1 hk
  obtain ⟨r, -, name, below, rfl, rfl, -⟩ := layout_subtree? [] h.distinct List.not_mem_nil hs
  refine ⟨t.next, rfl, ?_, ?_⟩
  · exact Nat.lt_add_of_pos_right (by rw [Forest.size]; omega)
  · rw [show ∀ f : Forest, (f.ids.zip (f.renumber t.next).ids).map Prod.snd = (f.renumber t.next).ids
      from fun f => map_snd_renumbering f t.next, renumber, renumber,
      h.remove_attach hp fun hin => Nat.lt_irrefl _ (h.fresh _ hin), Forest.ids, Forest.ids,
      List.append_nil]

end WellFormed

/-- After any calls on a new tree: every live node but the root can be removed, and nothing else;
    what goes is its subtree, and what stays is as it was, but for the parent's list of children;
    and a node that has just been added or copied is removed without a trace but in the counter. -/
theorem removal_undoes (name : String) (cs : List Call) :
    let t := ((new name).calls cs).2
    (∀ n, (∃ gone u, t.remove n = .ok (gone, u)) ↔ t.contains n = true ∧ n ≠ root) ∧
    (∀ n gone u, t.remove n = .ok (gone, u) → Removed t n gone u) ∧
    (∀ parent kind label c u, t.add parent kind label = .ok (c, u) →
      t.next < u.next ∧ u.remove c = .ok ([c], { t with next := u.next })) ∧
    ∀ source parent pairs u, t.clone source parent = .ok (pairs, u) →
      ∃ copy, pairs.head? = some (source, copy) ∧ t.next < u.next ∧
        u.remove copy = .ok (pairs.map Prod.snd, { t with next := u.next }) := by
  intro t
  have h : t.WellFormed := ((wellFormed_new name).calls cs).1
  exact ⟨fun n => WellFormed.exists_remove_iff, fun n gone u he => h.removed he,
    fun parent kind label c u he => h.remove_add he,
    fun source parent pairs u he => h.remove_clone he⟩

end Trellis.Tree
