/-
  Trellis.Proofs.Arena.Walks — walks over the records of a tree, and the edits that go by them.

  Over the records of a well-formed tree every walk comes to its end and finds what there is in the
  nested structure: the subtree (`arena_descendants`), the line upwards (`arena_isWithin`,
  `arena_ancestorOfKind`) and the outermost nodes of a kind (`arena_locate`). So removing and cloning
  do to the records what they do to the tree (`arena_remove`, `arena_clone`), as long as the numbers
  last, and where one of them fails the records stay as they are.
-/
import Trellis.Proofs.Arena.Records
import Trellis.Proofs.Tree.Routes

namespace Trellis.Tree

open Forest

variable {t u : Tree} {g : Forest} {n c parent source : NodeId} {k : Kind} {node : Node}
  {ns stack found : List NodeId} {wanted : NodeId → Prop} {r : Option NodeId}
  {pairs left : List (NodeId × NodeId)}

namespace WellFormed

variable (h : t.WellFormed)

include h

/-! ## Walks -/

theorem arena_walk (hw : t.Walk stack found) (before : List NodeId) :
    loop t.arena.walkTurn (stack, before) = some (before ++ found) := by
  induction hw generalizing before with
  | done =>
    rw [List.append_nil]
    exact loop_answer rfl
  | gone hn _ ih =>
    rw [← ih before]
    refine loop_turn ?_
    rw [Arena.walkTurn, h.get?_arena, hn]
  | live hn _ ih =>
    rw [List.append_cons, ← ih]
    refine loop_turn ?_
    rw [Arena.walkTurn, h.get?_arena, hn]

theorem arena_descendants (n : NodeId) : t.arena.descendants n = some (t.descendants n) :=
  h.arena_walk (h.walk_iff.2 rfl) []

theorem arena_descendantsOfKind (n : NodeId) (k : Kind) :
    t.arena.descendantsOfKind n k = some (t.descendantsOfKind n k) := by
  rw [Arena.descendantsOfKind, h.arena_descendants, descendantsOfKind]
  simp only [h.kind?_arena]
  rfl

theorem arena_climb [DecidablePred wanted] (ha : t.Ascent wanted n r) :
    loop (t.arena.climbTurn fun m => wanted m) (some n) = some r := by
  induction ha with
  | found hn =>
    refine loop_answer ?_
    rw [Arena.climbTurn, if_pos (decide_eq_true hn)]
  | top hn hp =>
    refine (loop_turn ?_).trans (loop_answer (s := none) rfl)
    rw [Arena.climbTurn, if_neg (by simpa using hn), h.parent?_arena, hp]
  | up hn hp _ ih =>
    rw [← ih]
    refine loop_turn ?_
    rw [Arena.climbTurn, if_neg (by simpa using hn), h.parent?_arena, hp]

theorem arena_isWithin (n b : NodeId) : t.arena.isWithin n b = some (t.isWithin n b) := by
  rw [Arena.isWithin, h.arena_climb ((h.ascent_isWithin n b).2 rfl)]
  cases t.isWithin n b with
  | true => rfl
  | false => rfl

theorem arena_ancestorOfKind (n : NodeId) (k : Kind) :
    t.arena.ancestorOfKind n k = some (t.ancestorOfKind n k) := by
  rw [Arena.ancestorOfKind]
  simp only [h.kind?_arena]
  exact h.arena_climb (h.ascent_ancestorOfKind n k)

/-- The search for the outermost nodes of a kind goes through the trees on top of its stack first. -/
theorem arena_outermost (hd : g.Distinct) (hs : t.Shows g) :
    loop (t.arena.outermostTurn k) (g.roots ++ stack, found) =
      loop (t.arena.outermostTurn k) (stack, found ++ g.outermost k) := by
  induction g generalizing stack found with
  | empty => rw [roots, Forest.outermost, List.nil_append, List.append_nil]
  | node id kind name below beside ihb ihs =>
    obtain ⟨-, hb, hbs, -⟩ := distinct_node.1 hd
    obtain ⟨⟨up, hid⟩, hsb, hss⟩ := hs.of_node hd
    have hkind : t.arena.kind? id = some kind := by
      rw [h.kind?_arena, kind?, hid, Option.map_some]
    have hchildren : t.arena.children id = below.roots := by
      rw [Arena.children, h.get?_arena, hid]
    rw [roots, Forest.outermost, List.cons_append]
    by_cases e : kind = k
    · have hturn : t.arena.outermostTurn k (id :: (beside.roots ++ stack), found) =
          .inr (beside.roots ++ stack, found ++ [id]) := by
        rw [Arena.outermostTurn, hkind, if_pos (congrArg some e)]
      rw [loop_turn hturn, ihs hbs hss, if_pos e, List.append_assoc]
      rfl
    · have hturn : t.arena.outermostTurn k (id :: (beside.roots ++ stack), found) =
          .inr (below.roots ++ (beside.roots ++ stack), found) := by
        rw [Arena.outermostTurn, hkind, hchildren, if_neg fun he => e (Option.some.inj he)]
      rw [loop_turn hturn, ihb hb hsb, ihs hbs hss, if_neg e, List.append_assoc]

theorem arena_locate (a : Adapter) (n : NodeId) : a.locate t.arena n = some (a.expand t n) := by
  rw [Adapter.locate, Adapter.expand, under, Arena.children, h.get?_arena]
  cases hs : t.whole.subtree? n with
  | none =>
    rw [get?_eq_none.2 hs]
    exact loop_answer rfl
  | some sub =>
    obtain ⟨p, -, name, below, -, rfl, -⟩ := layout_subtree? [] h.distinct List.not_mem_nil hs
    have hd : (Forest.node n p.kind name below .empty).Distinct := h.distinct.subtree hs
    obtain ⟨⟨up, hn⟩, hbelow, -⟩ := (h.shows_subtree hs).of_node hd
    obtain ⟨-, hdb, -, -⟩ := distinct_node.1 hd
    have hsearch : loop (t.arena.outermostTurn a.target) (below.roots ++ [], []) = _ :=
      h.arena_outermost hdb hbelow
    rw [List.append_nil] at hsearch
    rw [hn]
    exact hsearch.trans (loop_answer rfl)

theorem arena_follow (chain : List Adapter) (nodes : List NodeId) :
    AdapterSet.follow t.arena chain nodes =
      some (chain.foldl (fun nodes a => nodes.flatMap (a.expand t)) nodes) := by
  induction chain generalizing nodes with
  | nil => rfl
  | cons a chain ih =>
    have hstep : nodes.mapM (a.locate t.arena) = some (nodes.map (a.expand t)) := by
      rw [funext (h.arena_locate a)]
      exact List.mapM_pure
    rw [AdapterSet.follow, hstep]
    exact ih _

theorem arena_locateRoot (as : AdapterSet) (k : Kind) :
    as.locateRoot t.arena k = some (as.expandRoot t k) := by
  rw [AdapterSet.locateRoot, AdapterSet.expandRoot]
  cases as.chain k with
  | ok chain => exact congrArg (Option.map Except.ok) (h.arena_follow chain [root])
  | error e => rfl

/-! ## Removing -/

/-- What removing makes of the records: those of the subtree are gone, and the parent has lost a
    child. -/
theorem get?_remove_cases {gone : List NodeId} (he : t.remove n = .ok (gone, u))
    (hparent : t.parent? n = some parent) (m : NodeId) : u.get? m =
      if m ∈ gone then none
      else if parent = m then (t.get? m).map (·.withoutChild n) else t.get? m := by
  obtain ⟨-, hlive, rfl, -⟩ := remove_eq_ok.1 he
  by_cases hm : m ∈ t.descendants n
  · obtain ⟨q, hq, rfl, hw⟩ := h.mem_descendants.1 hm
    rw [if_pos hm]
    refine (find?_eq_none none).2 fun hin => ?_
    obtain ⟨q', hq', hid⟩ := mem_ids_iff.1 hin
    obtain ⟨hq', hout⟩ := ((h.shrinks_remove he).2.places q').1 hq'
    exact hout (h.eq_of_id_eq hq' hq hid ▸ hw)
  · have hout : ∀ q ∈ t.places, q.id = m → ¬ q.Within n := fun q hq hid hw =>
      hm (h.mem_descendants.2 ⟨q, hq, hid, hw⟩)
    rw [if_neg hm, h.get?_remove he hout]
    by_cases e : parent = m
    · rw [if_pos e]
    rw [if_neg e]
    cases hget : t.get? m with
    | none => rfl
    | some other =>
      have hno : n ∉ other.children := fun hc => by
        have hchild : n ∈ t.children m := by rw [children, hget]; exact hc
        exact e (Option.some.inj (hparent.symm.trans (h.mem_children.1 hchild)))
      rw [Option.map_some, Node.withoutChild_of_not_mem hno]

theorem arena_remove (n : NodeId) : t.arena.remove n = some (t.leaves (t.remove n)) := by
  rw [Arena.remove, Tree.remove, contains, h.get?_arena]
  by_cases hroot : n = root
  · rw [if_pos hroot, if_pos hroot]
    rfl
  rw [if_neg hroot, if_neg hroot]
  cases hn : t.get? n with
  | none => rfl
  | some node =>
    have hlive : t.contains n = true := by rw [contains, hn, Option.isSome_some]
    have hremove := remove_eq_ok.2 ⟨hroot, hlive, rfl, rfl⟩
    have hu := (h.shrinks_remove hremove).2.wellFormed
    obtain ⟨parent, hparent⟩ : ∃ parent, t.parent? n = some parent := by
      cases he : t.parent? n with
      | some parent => exact ⟨parent, rfl⟩
      | none => exact absurd ((h.coherent.orphan n hlive).1 he) hroot
    have hup : node.parent? = some parent := by rwa [Tree.parent?, hn] at hparent
    rw [h.arena_descendants, Option.isSome_some, if_pos rfl, leaves]
    simp only [hup]
    refine congrArg some (Prod.ext rfl (Arena.ext (fun m => ?_) (Arena.next_eraseAll _ _)))
    refine Eq.trans ?_ ((hu.get?_arena m).trans (h.get?_remove_cases hremove hparent m)).symm
    rw [Arena.get?_eraseAll, Arena.get?_adjust, h.get?_arena]
    rfl

end WellFormed

/-! ## Copying -/

theorem WellFormed.copying {r : Except TreeError (List (NodeId × NodeId))} (h : t.WellFormed)
    (hc : Copying t ns parent r u) : u.WellFormed ∧ t.next ≤ u.next := by
  induction hc with
  | done => exact ⟨h, Nat.le_refl _⟩
  | stopped => exact ⟨h, Nat.le_refl _⟩
  | broken hn _ ihb =>
    obtain ⟨-, -, hu, hle⟩ := h.copyNode_ok hn
    exact (ihb hu).imp_right hle.trans
  | copied hn _ _ ihb ihs =>
    obtain ⟨-, -, hu, hle⟩ := h.copyNode_ok hn
    obtain ⟨hv, hle'⟩ := ihb hu
    exact (ihs hv).imp_right (hle.trans hle').trans

/-- How copying ends when that of the first nodes has ended with `r` and others are left. -/
noncomputable def goOn (a : Arena) (pairs left : List (NodeId × NodeId)) :
    Except TreeError (List (NodeId × NodeId)) → Option (Except TreeError (List (NodeId × NodeId)) × Arena)
  | .ok more => loop Arena.copyTurn (a, pairs ++ more, left)
  | .error e => some (.error e, a)

theorem WellFormed.arena_copyNode (h : t.WellFormed) (hn : t.copyNode n parent = .ok (node, c, u))
    (few : u.next ≤ idCount) : Arena.copyTurn (t.arena, pairs, (n, parent) :: left) =
      .inr (u.arena, pairs ++ [(n, c)], node.children.map (·, c) ++ left) := by
  obtain ⟨hget, hadd, -, -⟩ := h.copyNode_ok hn
  have harena : t.arena.add parent node.kind node.name = (.ok c, u.arena) := by
    rw [h.arena_add (by rwa [hadd]), hadd]
    rfl
  rw [Arena.copyTurn, h.get?_arena, hget]
  dsimp only
  rw [harena]

/-- Copying node by node leads through arenas of the trees that it leads through. -/
theorem WellFormed.arena_copy {r : Except TreeError (List (NodeId × NodeId))} (h : t.WellFormed)
    (hc : Copying t ns parent r u) (few : u.next ≤ idCount) :
    loop Arena.copyTurn (t.arena, pairs, ns.map (·, parent) ++ left) = goOn u.arena pairs left r := by
  induction hc generalizing pairs left with
  | done => rw [goOn, List.append_nil, List.map_nil, List.nil_append]
  | stopped hn =>
    refine loop_answer ?_
    rw [List.map_cons, List.cons_append, Arena.copyTurn, h.get?_arena]
    rcases copyNode_error hn with ⟨hget, rfl⟩ | ⟨node, hget, hadd⟩
    · rw [hget]
    · rw [hget]
      dsimp only
      rw [h.arena_add (by rwa [hadd]), hadd]
      rfl
  | broken hn hb ihb =>
    obtain ⟨-, -, hu, -⟩ := h.copyNode_ok hn
    have few' := (hu.copying hb).2.trans few
    exact (loop_turn (h.arena_copyNode hn few')).trans (ihb hu few)
  | @copied _ _ _ _ n c _ _ _ below r hn hb hs ihb ihs =>
    obtain ⟨-, -, hu, -⟩ := h.copyNode_ok hn
    obtain ⟨hv, hle⟩ := hu.copying hb
    have few' := (hv.copying hs).2.trans few
    refine (loop_turn (h.arena_copyNode hn (hle.trans few'))).trans ((ihb hu few').trans ?_)
    refine (ihs hv few).trans ?_
    cases r with
    | ok beside => exact congrArg (fun pairs => loop Arena.copyTurn (_, pairs, left)) (by simp)
    | error e => rfl

/-- Cloning node by node does to the records what cloning at once does to the tree. -/
theorem WellFormed.arena_clone (h : t.WellFormed) (few : (t.after (t.clone source parent)).next ≤ idCount) :
    t.arena.clone source parent = some (t.leaves (t.clone source parent)) := by
  obtain ⟨r, u, hc, he, hfail⟩ := h.exists_cloning source parent
  rw [Arena.clone, h.arena_isWithin]
  rw [he] at few ⊢
  have hu : t.leaves (r.map (·, u)) = (r, u.arena) ∧ u.next ≤ idCount := by
    cases r with
    | ok pairs => exact ⟨rfl, few⟩
    | error e =>
      rw [hfail e rfl]
      exact ⟨rfl, few⟩
  rw [hu.1]
  cases hc with
  | inside hin =>
    rw [hin]
    rfl
  | outside hout hc =>
    have hcopy : loop Arena.copyTurn (t.arena, [], [(source, parent)]) = goOn u.arena [] [] r :=
      h.arena_copy hc hu.2
    rw [hout]
    refine hcopy.trans ?_
    cases r with
    | ok pairs => exact loop_answer rfl
    | error e => rfl

end Trellis.Tree
