/-
  Trellis.Proofs.Tree.Copies — a copied subtree is the same subtree over new numbers.

  Renumbering a forest pairs each of its nodes with the one in the same place of the copy
  (`Forest.renumbering`). Under that pairing kinds and names are the same, and parents and child
  lists correspond, in order (`find?_renumber`). Attached in a tree, the copy is all that has
  changed (`CopyOf`).

  - `clones_mirror`: whatever calls have built a tree, a copy is made exactly where the two nodes are
    live, the new parent lies outside what is copied and can contain it; it mirrors what is copied;
    and the copy made node by node, which stops where it is, is either this one or has changed
    nothing.
-/
import Trellis.Proofs.Tree.Walks

namespace Trellis

/-- `mirror` is among the copies what `original` is among the nodes copied. -/
structure Node.Mirrors (pairs : List (NodeId × NodeId)) (original mirror : Node) : Prop where
  kind : mirror.kind = original.kind
  name : mirror.name = original.name
  children : List.Forall₂ (fun m c => (m, c) ∈ pairs) original.children mirror.children

theorem Node.Mirrors.mono {pairs more : List (NodeId × NodeId)} {original mirror : Node}
    (h : Node.Mirrors pairs original mirror) (hsub : pairs ⊆ more) : Node.Mirrors more original mirror :=
  ⟨h.kind, h.name, h.children.imp fun _ _ hmem => hsub hmem⟩

namespace Forest

variable {f : Forest} {m n c first : NodeId} {pairs : List (NodeId × NodeId)}

/-- Each node with the one in its place after renumbering. -/
def renumbering (f : Forest) (first : NodeId) : List (NodeId × NodeId) := f.ids.zip (f.renumber first).ids

theorem length_ids_renumber (f : Forest) (first : NodeId) : (f.renumber first).ids.length = f.ids.length := by
  rw [← size_eq_length_ids, ← size_eq_length_ids, size_renumber]

theorem renumbering_node (id : NodeId) (kind : Kind) (name : String) (below beside : Forest)
    (first : NodeId) : (node id kind name below beside).renumbering first =
      (id, first) :: (below.renumbering (first + 1) ++ beside.renumbering (first + 1 + below.size)) := by
  simp only [renumbering, renumber, ids, List.zip_cons_cons,
    List.zip_append (length_ids_renumber below (first + 1)).symm]

theorem map_fst_renumbering (f : Forest) (first : NodeId) : (f.renumbering first).map Prod.fst = f.ids :=
  List.map_fst_zip (length_ids_renumber f first).ge

theorem map_snd_renumbering (f : Forest) (first : NodeId) :
    (f.renumbering first).map Prod.snd = (f.renumber first).ids :=
  List.map_snd_zip (length_ids_renumber f first).le

theorem forall₂_roots (f : Forest) (first : NodeId) :
    List.Forall₂ (fun m c => (m, c) ∈ f.renumbering first) f.roots (f.renumber first).roots := by
  induction f generalizing first with
  | empty => exact .nil
  | node id kind name below beside _ ihs =>
    rw [renumbering_node]
    refine .cons List.mem_cons_self ((ihs _).imp fun m c hmem => ?_)
    exact List.mem_cons_of_mem _ (List.mem_append_right _ hmem)

theorem mem_ids_of_mem_renumbering (h : (m, c) ∈ f.renumbering first) :
    m ∈ f.ids ∧ first ≤ c ∧ c < first + f.size := by
  have hc : c ∈ (f.renumber first).ids := (List.of_mem_zip h).2
  rw [ids_renumber, List.mem_range'_1] at hc
  exact ⟨(List.of_mem_zip h).1, hc⟩

/-- A node that is copied and its copy: each is found with the same kind and name, over the pairs of
    their children, and under the pair of their parents, or else outermost as the other. -/
theorem find?_renumber (hd : f.Distinct) (up up' : Option NodeId) (h : (m, c) ∈ f.renumbering first) :
    ∃ original mirror, f.find? m up = some original ∧ (f.renumber first).find? c up' = some mirror ∧
      Node.Mirrors (f.renumbering first) original mirror ∧
      ((m ∈ f.roots ∧ original.parent? = up ∧ mirror.parent? = up') ∨
        ∃ a b, original.parent? = some a ∧ mirror.parent? = some b ∧ (a, b) ∈ f.renumbering first) := by
  induction f generalizing first up up' with
  | empty => cases h
  | node id kind name below beside ihb ihs =>
    obtain ⟨⟨hib, his⟩, hb, hbs, hdisj⟩ := distinct_node.1 hd
    rw [renumbering_node] at h ⊢
    rw [renumber, find?, find?, roots]
    rcases List.mem_cons.1 h with heq | h
    · cases heq
      refine ⟨_, _, if_pos rfl, if_pos rfl, ⟨rfl, rfl, ?_⟩, .inl ⟨List.mem_cons_self, rfl, rfl⟩⟩
      refine (forall₂_roots below (c + 1)).imp fun m d hmem => ?_
      exact List.mem_cons_of_mem _ (List.mem_append_left _ hmem)
    · rcases List.mem_append.1 h with h | h
      · obtain ⟨hm, hlow, -⟩ := mem_ids_of_mem_renumbering h
        have hsub : below.renumbering (first + 1) ⊆
            (id, first) :: (below.renumbering (first + 1) ++ beside.renumbering (first + 1 + below.size)) :=
          List.subset_cons_of_subset _ (List.subset_append_left _ _)
        have hne : id ≠ m := fun e => hib (e ▸ hm)
        have hne' : first ≠ c := Nat.ne_of_lt hlow
        obtain ⟨original, mirror, ho, hr, hmirrors, hup⟩ := ihb hb (some id) (some first) h
        refine ⟨original, mirror, ?_, ?_, hmirrors.mono hsub, .inr ?_⟩
        · rw [if_neg hne, ho, Option.some_or]
        · rw [if_neg hne', hr, Option.some_or]
        · rcases hup with ⟨-, hup, hup'⟩ | ⟨a, b, ha, hb, hab⟩
          · exact ⟨id, first, hup, hup', List.mem_cons_self⟩
          · exact ⟨a, b, ha, hb, hsub hab⟩
      · obtain ⟨hm, hlow, -⟩ := mem_ids_of_mem_renumbering h
        have hsub : beside.renumbering (first + 1 + below.size) ⊆
            (id, first) :: (below.renumbering (first + 1) ++ beside.renumbering (first + 1 + below.size)) :=
          List.subset_cons_of_subset _ (List.subset_append_right _ _)
        have hne : id ≠ m := fun e => his (e ▸ hm)
        have hne' : first ≠ c := Nat.ne_of_lt (Nat.lt_of_lt_of_le (Nat.lt_succ_self _)
          (Nat.le_trans (Nat.le_add_right _ _) hlow))
        have hbelow : c ∉ (below.renumber (first + 1)).ids := by
          rw [ids_renumber, List.mem_range'_1]
          exact fun hin => Nat.not_lt.2 hlow hin.2
        obtain ⟨original, mirror, ho, hr, hmirrors, hup⟩ := ihs hbs up up' h
        refine ⟨original, mirror, ?_, ?_, hmirrors.mono hsub, ?_⟩
        · rw [if_neg hne, (find?_eq_none _).2 fun hb => hdisj m hb hm, Option.none_or, ho]
        · rw [if_neg hne', (find?_eq_none _).2 hbelow, Option.none_or, hr]
        · rcases hup with ⟨hroot, hup⟩ | ⟨a, b, ha, hb, hab⟩
          · exact .inl ⟨List.mem_cons_of_mem _ hroot, hup⟩
          · exact .inr ⟨a, b, ha, hb, hsub hab⟩

end Forest

/-! ## In a tree -/

namespace Tree

open Forest

/-- In `u` the node `copy` is the last child of `parent` and the top of a copy of what `source` is
    the top of in `t`, as `pairs` has it, and nothing else has changed. -/
structure CopyOf (t : Tree) (source parent copy : NodeId) (pairs : List (NodeId × NodeId)) (u : Tree) :
    Prop where
  head : pairs.head? = some (source, copy)
  originals : pairs.map Prod.fst = t.descendants source
  copies : pairs.map Prod.snd = u.descendants copy
  /-- The copies have the numbers that come next. -/
  numbers : pairs.map Prod.snd = List.range' t.next pairs.length
  next : u.next = t.next + pairs.length
  mirrored : ∀ m c, (m, c) ∈ pairs →
    ∃ original mirror, t.get? m = some original ∧ u.get? c = some mirror ∧ Node.Mirrors pairs original mirror
  top : u.parent? copy = some parent
  /-- Below the top the parent of a copy is the copy of the parent. -/
  inner : ∀ m c, (m, c) ∈ pairs → m ≠ source →
    ∃ a b, t.parent? m = some a ∧ u.parent? c = some b ∧ (a, b) ∈ pairs
  appended : ∃ node, t.get? parent = some node ∧
    u.get? parent = some { node with children := node.children ++ [copy] }
  others : ∀ m, m ≠ parent → m ∉ pairs.map Prod.snd → u.get? m = t.get? m

variable {t u : Tree} {n parent source : NodeId} {pairs : List (NodeId × NodeId)}

namespace WellFormed

variable (h : t.WellFormed)

include h

theorem copyOf_clone (he : t.clone source parent = .ok (pairs, u)) :
    CopyOf t source parent t.next pairs u := by
  obtain ⟨-, sub, kind, k, hs, -, hk, -, rfl, rfl⟩ := clone_eq_ok.1 he
  obtain ⟨p, hp, rfl, rfl⟩ := h.kind?_eq_some.1 hk
  obtain ⟨r, -, name, below, rfl, hsub, -⟩ := layout_subtree? [] h.distinct List.not_mem_nil hs
  have hd : sub.Distinct := h.distinct.subtree hs
  have hlive : p.id ∈ t.whole.ids := mem_ids_iff.2 ⟨p, hp, rfl⟩
  have hnew : ∀ c ∈ (sub.renumber t.next).ids, c ∉ t.whole.ids := by
    intro c hc hin
    rw [ids_renumber, List.mem_range'_1] at hc
    exact Nat.not_lt.2 hc.1 (h.fresh c hin)
  have hfirst : t.next ∈ (sub.renumber t.next).ids := by
    rw [hsub]
    exact List.mem_cons_self
  obtain ⟨up, hold⟩ := find?_of_mem_subtree h.distinct hs none
  -- A pair of nodes, each found where it stands.
  have look {m c : NodeId} (hmc : (m, c) ∈ sub.renumbering t.next) := by
    have hc := (List.of_mem_zip hmc).2
    have := find?_renumber hd up (some p.id) hmc
    rwa [← hold m (List.of_mem_zip hmc).1, ← find?_attach_of_mem hlive (hnew c hc) none] at this
  have hlength : (sub.renumbering t.next).length = sub.size := by
    rw [size_eq_length_ids, ← map_fst_renumbering sub t.next, List.length_map]
  refine ⟨?head, ?originals, ?copies, ?numbers, ?next, ?mirrored, ?top, ?inner, ?appended, ?others⟩
  case head =>
    rw [hsub]
    rfl
  case originals =>
    rw [descendants_eq_elim, hs]
    exact map_fst_renumbering sub t.next
  case copies =>
    have hself : (sub.renumber t.next).subtree? t.next = some (sub.renumber t.next) := by
      rw [hsub]
      exact if_pos rfl
    rw [descendants_eq_elim, subtree?_attach_of_mem hlive (hnew t.next hfirst), hself]
    exact map_snd_renumbering sub t.next
  case numbers =>
    show (sub.renumbering t.next).map Prod.snd = List.range' t.next (sub.renumbering t.next).length
    rw [hlength, map_snd_renumbering, ids_renumber]
  case next => exact congrArg (t.next + ·) hlength.symm
  case mirrored =>
    intro m c hmc
    obtain ⟨original, mirror, ho, hm, hmirrors, -⟩ := look hmc
    exact ⟨original, mirror, ho, hm, hmirrors⟩
  case top =>
    rw [Tree.parent?, get?, find?_attach_of_mem hlive (hnew t.next hfirst), hsub, renumber, find?,
      if_pos rfl]
    rfl
  case inner =>
    intro m c hmc hne
    obtain ⟨original, mirror, ho, hm, -, hup⟩ := look hmc
    rcases hup with ⟨hroot, -⟩ | ⟨a, b, ha, hb, hab⟩
    · rw [hsub, roots, roots, List.mem_singleton] at hroot
      exact absurd hroot hne
    · refine ⟨a, b, ?_, ?_, hab⟩
      · rwa [Tree.parent?, get?, ho]
      · rwa [Tree.parent?, get?, hm]
  case appended =>
    obtain ⟨node, hnode, -⟩ := h.get?_of_mem hp
    refine ⟨node, hnode, ?_⟩
    rw [get?, find?_attach_self, ← get?, hnode, hsub]
    rfl
  case others =>
    intro m hne hout
    rw [show ((sub.ids.zip (sub.renumber t.next).ids).map Prod.snd) = _ from
      map_snd_renumbering sub t.next] at hout
    exact find?_attach hne hout none

theorem exists_clone_iff : (∃ pairs u, t.clone source parent = .ok (pairs, u)) ↔
    t.contains source = true ∧ t.contains parent = true ∧ parent ∉ t.descendants source ∧
      ∃ kind k, t.kind? source = some kind ∧ t.kind? parent = some k ∧ k.canContain kind = true := by
  constructor
  · rintro ⟨pairs, u, he⟩
    obtain ⟨hout, sub, kind, k, hs, hkind, hk, hcan, -⟩ := clone_eq_ok.1 he
    obtain ⟨q, hq, rfl, -⟩ := h.kind?_eq_some.1 hkind
    obtain ⟨p, hp, rfl, -⟩ := h.kind?_eq_some.1 hk
    refine ⟨h.contains_of_mem hq, h.contains_of_mem hp, ?_, kind, k, hkind, hk, hcan⟩
    rw [descendants_eq_elim, hs]
    exact h.not_mem_of_isWithin hs hp hout
  · rintro ⟨-, -, hout, kind, k, hkind, hk, hcan⟩
    obtain ⟨q, hq, rfl, -⟩ := h.kind?_eq_some.1 hkind
    obtain ⟨p, hp, rfl, -⟩ := h.kind?_eq_some.1 hk
    have hapart : t.isWithin p.id q.id = false := by
      refine Bool.eq_false_iff.2 fun hin => hout (h.mem_descendants.2 ⟨p, hp, rfl, ?_⟩)
      exact (h.isWithin_iff hp).1 hin
    cases hs : t.whole.subtree? q.id with
    | none => exact absurd (mem_ids_iff.2 ⟨q, hq, rfl⟩) (subtree?_eq_none.1 hs)
    | some sub => exact ⟨_, _, clone_eq_ok.2 ⟨hapart, sub, kind, k, hs, hkind, hk, hcan, rfl, rfl⟩⟩

end WellFormed

/-- The numbers of a tree that calls have built: its root's, and those that have been handed out. -/
theorem issued_eq (name : String) (cs : List Call) :
    root :: ((new name).calls cs).1 = List.range' 0 ((new name).calls cs).2.next := by
  obtain ⟨-, hissued, hnext⟩ := (wellFormed_new name).calls cs
  rw [hnext, show (new name).next = 1 from rfl, Nat.add_comm, List.range'_succ]
  exact congrArg (root :: ·) hissued

/-- After any calls on a new tree, and for any two numbers: a copy is made exactly where both nodes
    are live, the new parent is outside the subtree and its kind can contain the kind copied. It is
    then a copy, over numbers that have never been handed out. Made node by node, as the records
    have it when each is read, the outcome is the same one, and an error leaves the tree as it was. -/
theorem clones_mirror (name : String) (cs : List Call) (source parent : NodeId) :
    let t := ((new name).calls cs).2
    let issued := root :: ((new name).calls cs).1
    ((∃ pairs u, t.clone source parent = .ok (pairs, u)) ↔
      t.contains source = true ∧ t.contains parent = true ∧ parent ∉ t.descendants source ∧
        ∃ kind k, t.kind? source = some kind ∧ t.kind? parent = some k ∧ k.canContain kind = true) ∧
    (∀ pairs u, t.clone source parent = .ok (pairs, u) →
      (issued ++ pairs.map Prod.snd).Nodup ∧ ∃ copy, CopyOf t source parent copy pairs u) ∧
    ∀ r u, t.Cloning source parent r u ↔
      t.clone source parent = r.map (·, u) ∧ ∀ e, r = .error e → u = t := by
  intro t issued
  have h : t.WellFormed := ((wellFormed_new name).calls cs).1
  refine ⟨h.exists_clone_iff, fun pairs u he => ?_, fun r u => h.cloning_iff⟩
  have hcopy := h.copyOf_clone he
  refine ⟨?_, _, hcopy⟩
  have hissued : issued = List.range' 0 t.next := issued_eq name cs
  rw [hissued, hcopy.numbers]
  have := List.range'_append_1 (s := 0) (m := t.next) (n := pairs.length)
  rw [Nat.zero_add] at this
  rw [this]
  exact List.nodup_range'

end Tree

end Trellis
