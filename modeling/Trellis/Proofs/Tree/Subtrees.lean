/-
  Trellis.Proofs.Tree.Subtrees — subtrees that share no node, and edits that stay inside one.

  Two nodes are apart if nothing lies within both (`Tree.Apart`). Lines upwards are chains, so
  of two nodes on one line the lower lies within the upper (`within_or_within`), and nodes that
  stand where they stood stay apart (`Apart.keep`).

  - `subtree?_add`, `subtree?_clone`, `subtree?_remove`, `subtree?_rename`: an edit outside a
    subtree leaves it as it is, with the names and the order of its nodes.
  - `expands_adapter`: what an adapter that gives the outermost nodes of a kind leads to is as it is
    asked of adapters (`Expands`), and following such adapters keeps nodes apart (`Expands.flatMap`).
-/
import Trellis.Proofs.Tree.Targets

namespace Trellis

namespace Forest

variable {f g child : Forest} {a n : NodeId} {above : List (NodeId × Kind)} {k : Kind}

/-! ## Edits elsewhere -/

theorem subtree?_append (f g : Forest) (a : NodeId) :
    (f ++ g).subtree? a = (f.subtree? a).or (g.subtree? a) := by
  show (f.append g).subtree? a = _
  induction f with
  | empty => rfl
  | node id kind name below beside _ ihs =>
    simp only [append, subtree?]
    split
    · rfl
    · rw [ihs, Option.or_assoc]

theorem detach_of_not_mem (hn : n ∉ f.ids) : f.detach n = f := by
  induction f with
  | empty => rfl
  | node id kind name below beside ihb ihs =>
    simp only [ids, List.mem_cons, List.mem_append, not_or] at hn
    rw [detach, if_neg (Ne.symm hn.1), ihb hn.2.1, ihs hn.2.2]

theorem rename_of_not_mem (new : String) (hn : n ∉ f.ids) : f.rename n new = f := by
  induction f with
  | empty => rfl
  | node id kind name below beside ihb ihs =>
    simp only [ids, List.mem_cons, List.mem_append, not_or] at hn
    rw [rename, if_neg (Ne.symm hn.1), ihb hn.2.1, ihs hn.2.2]

theorem forall_mem_layout_node {id : NodeId} {name : String} {below beside : Forest}
    {P : Place → Prop} : (∀ p ∈ (node id k name below beside).layout above, P p) ↔
      P ⟨id, k, above⟩ ∧ (∀ p ∈ below.layout ((id, k) :: above), P p) ∧
        ∀ p ∈ beside.layout above, P p := by
  rw [layout, List.forall_mem_cons, List.forall_mem_append]

/-- Whatever stands below a node lies within it. -/
theorem not_mem_below (hn : ∀ p ∈ f.layout ((a, k) :: above), p.id = n → ¬ p.Within a) :
    n ∉ f.ids := by
  intro hin
  obtain ⟨p, hp, hid⟩ := (mem_ids ((a, k) :: above)).1 hin
  exact hn p hp hid (within_of_mem_above hp (by simp))

/-- Attaching to a node that does not lie within `a`. -/
theorem subtree?_attach (hchild : a ∉ child.ids)
    (hn : ∀ p ∈ f.layout above, p.id = n → ¬ p.Within a) :
    (attach n child f).subtree? a = f.subtree? a := by
  induction f generalizing above with
  | empty => rfl
  | node id kind name below beside ihb ihs =>
    obtain ⟨hself, hb, hs⟩ := forall_mem_layout_node.1 hn
    rw [attach]
    split
    · rename_i e
      have hne : id ≠ a := fun ea => hself e (ea ▸ Place.within_self _)
      simp only [subtree?, if_neg hne]
      rw [subtree?_append, subtree?_eq_none.2 hchild, Option.or_none]
    · simp only [subtree?]
      split
      · rename_i ea
        subst ea
        rw [attach_of_not_mem child (not_mem_below hb)]
      · rw [ihb hb, ihs hs]

/-- Renaming a node that does not lie within `a`. -/
theorem subtree?_rename (new : String) (hn : ∀ p ∈ f.layout above, p.id = n → ¬ p.Within a) :
    (f.rename n new).subtree? a = f.subtree? a := by
  induction f generalizing above with
  | empty => rfl
  | node id kind name below beside ihb ihs =>
    obtain ⟨hself, hb, hs⟩ := forall_mem_layout_node.1 hn
    rw [rename]
    split
    · rename_i e
      have hne : id ≠ a := fun ea => hself e (ea ▸ Place.within_self _)
      rw [subtree?, subtree?, if_neg hne, if_neg hne]
    · simp only [subtree?]
      split
      · rename_i ea
        subst ea
        rw [rename_of_not_mem new (not_mem_below hb)]
      · rw [ihb hb, ihs hs]

/-- Taking out a node that does not lie within `a`, nor `a` within it. -/
theorem subtree?_detach (hn : ∀ p ∈ f.layout above, p.id = n → ¬ p.Within a)
    (ha : ∀ p ∈ f.layout above, p.id = a → ¬ p.Within n) : (f.detach n).subtree? a = f.subtree? a := by
  induction f generalizing above with
  | empty => rfl
  | node id kind name below beside ihb ihs =>
    obtain ⟨-, hnb, hns⟩ := forall_mem_layout_node.1 hn
    obtain ⟨hself, hab, has⟩ := forall_mem_layout_node.1 ha
    rw [detach]
    split
    · rename_i e
      subst e
      have hne : id ≠ a := fun ea => hself ea (Place.within_self _)
      rw [subtree?, if_neg hne, subtree?_eq_none.2 (not_mem_below hab), Option.none_or]
    · simp only [subtree?]
      split
      · rename_i ea
        subst ea
        rw [detach_of_not_mem (not_mem_below hnb)]
      · rw [ihb hnb hab, ihs hns has]

/-! ## Parts of a forest -/

theorem sublist_ids_subtree {sub : Forest} (h : f.subtree? n = some sub) : sub.ids.Sublist f.ids := by
  induction f with
  | empty => cases h
  | node id kind name below beside ihb ihs =>
    rw [subtree?] at h
    split at h
    · cases h
      simp [ids]
    · rw [ids]
      refine .cons id ?_
      rcases Option.or_eq_some_iff.1 h with h | ⟨-, h⟩
      · exact (ihb h).trans (List.sublist_append_left _ _)
      · exact (ihs h).trans (List.sublist_append_right _ _)

theorem Distinct.subtree {sub : Forest} (h : f.Distinct) (hs : f.subtree? n = some sub) :
    sub.Distinct :=
  List.Nodup.sublist (sublist_ids_subtree hs) h

theorem sublist_ids_under (f : Forest) (n : NodeId) : (f.under n).ids.Sublist f.ids := by
  rw [under]
  split
  · rename_i hs
    refine .trans ?_ (sublist_ids_subtree hs)
    rw [ids]
    exact .cons _ (List.sublist_append_left _ _)
  · exact List.nil_sublist _

theorem sublist_outermost (f : Forest) (k : Kind) : (f.outermost k).Sublist f.ids := by
  induction f with
  | empty => exact .slnil
  | node id kind name below beside ihb ihs =>
    rw [outermost, ids]
    split
    · exact .cons_cons id (ihs.trans (List.sublist_append_right _ _))
    · exact .cons id (ihb.append ihs)

end Forest

/-! ## Nodes that are apart -/

namespace Tree

open Forest

/-- Nothing lies within both nodes. -/
def Apart (t : Tree) (a b : NodeId) : Prop := ∀ q ∈ t.places, q.Within a → ¬ q.Within b

instance (t : Tree) (a b : NodeId) : Decidable (t.Apart a b) :=
  inferInstanceAs (Decidable (∀ q ∈ t.places, q.Within a → ¬ q.Within b))

/-- The number has been given out, and its node, if it is still there, lies within `a`. -/
def Inside (t : Tree) (a n : NodeId) : Prop := n < t.next ∧ ∀ p ∈ t.places, p.id = n → p.Within a

variable {t u : Tree} {a b n parent source : NodeId} {p q : Place}

theorem Apart.symm (h : t.Apart a b) : t.Apart b a := fun q hq hb ha => h q hq ha hb

/-- The line of a node goes on as the line of any node above it. -/
theorem line_of_within (hq : q ∈ t.places) (hw : q.Within a) :
    ∃ p ∈ t.places, p.id = a ∧ ∃ pre, q.line = pre ++ p.line := by
  obtain ⟨x, hx, rfl⟩ := List.mem_map.1 hw
  obtain ⟨pre, rest, hline⟩ := List.append_of_mem hx
  have hp : (⟨x.1, x.2, rest⟩ : Place) ∈ t.places := by
    have hline : q.line = pre ++ x :: (rest ++ []) := by rw [hline, List.append_nil]
    have := mem_layout_of_line hq hline
    rwa [List.append_nil] at this
  exact ⟨_, hp, rfl, pre, hline⟩

/-- Of two nodes on one line the lower lies within the upper. -/
theorem within_or_within (hq : q ∈ t.places) (ha : q.Within a) (hb : q.Within b) :
    (∃ p ∈ t.places, p.id = a ∧ p.Within b) ∨ ∃ p ∈ t.places, p.id = b ∧ p.Within a := by
  obtain ⟨pa, hpa, rfl, prea, hla⟩ := line_of_within hq ha
  obtain ⟨pb, hpb, rfl, preb, hlb⟩ := line_of_within hq hb
  have sa : pa.line <:+ q.line := ⟨_, hla.symm⟩
  have sb : pb.line <:+ q.line := ⟨_, hlb.symm⟩
  rcases List.suffix_or_suffix_of_suffix sa sb with hs | hs
  · exact .inr ⟨pb, hpb, rfl, (hs.map Prod.fst).subset pa.within_self⟩
  · exact .inl ⟨pa, hpa, rfl, (hs.map Prod.fst).subset pb.within_self⟩

/-- Nodes that stand where they stood stay apart. -/
theorem Apart.keep (hab : t.Apart a b) (ha : ∀ p ∈ u.places, p.id = a → p ∈ t.places)
    (hb : ∀ p ∈ u.places, p.id = b → p ∈ t.places) : u.Apart a b := by
  intro q hq hqa hqb
  rcases within_or_within hq hqa hqb with ⟨p, hp, rfl, hw⟩ | ⟨p, hp, rfl, hw⟩
  · exact hab p (ha p hp rfl) p.within_self hw
  · exact hab p (hb p hp rfl) hw p.within_self

theorem Inside.keep (h : t.Inside a n) (hnext : t.next ≤ u.next)
    (hold : ∀ q ∈ u.places, q.id < t.next → q ∈ t.places) : u.Inside a n :=
  ⟨Nat.lt_of_lt_of_le h.1 hnext, fun q hq e => h.2 q (hold q hq (e ▸ h.1)) e⟩

/-! ## Edits elsewhere in a tree -/

theorem subtree?_add {kind : Kind} {name : String} (he : t.add parent kind name = .ok (n, u))
    (ha : a < t.next) (hp : ∀ p ∈ t.places, p.id = parent → ¬ p.Within a) :
    u.whole.subtree? a = t.whole.subtree? a := by
  obtain ⟨-, -, -, rfl, rfl⟩ := add_eq_ok.1 he
  refine Forest.subtree?_attach (fun hin => ?_) hp
  cases List.mem_singleton.1 hin
  exact Nat.lt_irrefl _ ha

theorem subtree?_clone {pairs : List (NodeId × NodeId)} (he : t.clone source parent = .ok (pairs, u))
    (ha : a < t.next) (hp : ∀ p ∈ t.places, p.id = parent → ¬ p.Within a) :
    u.whole.subtree? a = t.whole.subtree? a := by
  obtain ⟨-, sub, -, -, -, -, -, -, rfl, rfl⟩ := clone_eq_ok.1 he
  refine Forest.subtree?_attach (fun hin => ?_) hp
  rw [ids_renumber, List.mem_range'_1] at hin
  exact Nat.not_lt.2 hin.1 ha

theorem subtree?_remove {gone : List NodeId} (he : t.remove n = .ok (gone, u))
    (hn : ∀ p ∈ t.places, p.id = n → ¬ p.Within a) (ha : ∀ p ∈ t.places, p.id = a → ¬ p.Within n) :
    u.whole.subtree? a = t.whole.subtree? a := by
  obtain ⟨-, -, rfl, rfl⟩ := remove_eq_ok.1 he
  exact Forest.subtree?_detach hn ha

theorem subtree?_rename {name : String} (he : t.rename n name = .ok u)
    (hn : ∀ p ∈ t.places, p.id = n → ¬ p.Within a) : u.whole.subtree? a = t.whole.subtree? a := by
  obtain ⟨-, rfl⟩ := rename_eq_ok.1 he
  exact Forest.subtree?_rename name hn

namespace WellFormed

variable (h : t.WellFormed)

include h

theorem line_eq_append (hq : q ∈ t.places) (hp : p ∈ t.places) (hw : q.Within p.id) :
    ∃ pre, q.line = pre ++ p.line := by
  obtain ⟨p', hp', hid, hline⟩ := line_of_within hq hw
  rwa [h.eq_of_id_eq hp' hp hid] at hline

theorem within_trans (hq : q ∈ t.places) (hp : p ∈ t.places) (hw : q.Within p.id)
    (ha : p.Within a) : q.Within a := by
  obtain ⟨pre, hline⟩ := h.line_eq_append hq hp hw
  rw [Place.Within, hline, List.map_append]
  exact List.mem_append_right _ ha

theorem apart_of_within {p' q' : NodeId} (hab : t.Apart a b)
    (ha : ∀ p ∈ t.places, p.id = p' → p.Within a) (hb : ∀ q ∈ t.places, q.id = q' → q.Within b) :
    t.Apart p' q' := by
  intro r hr hp hq
  obtain ⟨p, hpp, rfl, -⟩ := line_of_within hr hp
  obtain ⟨q, hqp, rfl, -⟩ := line_of_within hr hq
  exact hab r hr (h.within_trans hr hpp hp (ha p hpp rfl)) (h.within_trans hr hqp hq (hb q hqp rfl))

/-! ## The nodes a step runs on -/

/-- Two outermost nodes of a kind are apart: none has another of the kind above it. -/
theorem apart_of_mem_expand {ad : Adapter} (hp : p ∈ t.places) (ha : a ∈ ad.expand t p.id)
    (hb : b ∈ ad.expand t p.id) (hne : a ≠ b) : t.Apart a b := by
  have lower {x y : NodeId} (hx : x ∈ ad.expand t p.id) (hy : y ∈ ad.expand t p.id) (hxy : x ≠ y) :
      ∀ r ∈ t.places, r.id = x → ¬ r.Within y := by
    intro r hr hid hw
    obtain ⟨q, hq, rfl, hkind, mid, hmid, -⟩ := (h.mem_expand hp).1 hy
    obtain ⟨r', hr', rfl, -, mid', hmid', hno⟩ := (h.mem_expand hp).1 hx
    obtain rfl := h.eq_of_id_eq hr hr' hid
    obtain ⟨pre, hline⟩ := h.line_eq_append hr hq hw
    rw [Place.line, Place.line, hmid, hmid', ← List.cons_append, ← List.cons_append,
      ← List.append_assoc] at hline
    have hcut := List.append_cancel_right hline
    cases pre with
    | nil => exact hxy (congrArg Prod.fst (List.cons.inj hcut).1)
    | cons z pre =>
      obtain ⟨-, rfl⟩ := List.cons.inj hcut
      exact hno (q.id, q.kind) (by simp) hkind
  intro q hq hqa hqb
  rcases within_or_within hq hqa hqb with ⟨r, hr, hid, hw⟩ | ⟨r, hr, hid, hw⟩
  · exact lower ha hb hne r hr hid hw
  · exact lower hb ha (Ne.symm hne) r hr hid hw

theorem pairwise_expand {ad : Adapter} (hp : p ∈ t.places) :
    (ad.expand t p.id).Pairwise t.Apart := by
  have hnodup : (ad.expand t p.id).Nodup :=
    h.distinct.sublist ((sublist_outermost _ _).trans (sublist_ids_under _ _))
  exact List.Pairwise.imp_of_mem (fun ha hb hne => h.apart_of_mem_expand hp ha hb hne) hnodup

end WellFormed

/-- What is asked of the expansion of an adapter: the nodes that it gives for a node of a tree lie
    within that one, and their subtrees are disjoint. -/
structure Expands (expand : Tree → NodeId → List NodeId) : Prop where
  within : ∀ t : Tree, t.WellFormed → ∀ m ∈ t.ids, ∀ n ∈ expand t m, n ∈ t.descendants m
  disjoint : ∀ t : Tree, t.WellFormed → ∀ m ∈ t.ids, (expand t m).Pairwise t.Apart

theorem expands_adapter (a : Adapter) : Expands a.expand where
  within t h m hm n hn := by
    obtain ⟨p, hp, rfl⟩ := mem_ids_iff.1 hm
    obtain ⟨q, hq, rfl, -, mid, hmid, -⟩ := (h.mem_expand hp).1 hn
    exact h.mem_descendants.2 ⟨q, hq, rfl, by simp [Place.Within, Place.line, hmid]⟩
  disjoint t h m hm := by
    obtain ⟨p, hp, rfl⟩ := mem_ids_iff.1 hm
    exact h.pairwise_expand hp

/-- Expanding nodes that are apart gives nodes that are. -/
theorem Expands.flatMap {expand : Tree → NodeId → List NodeId} (he : Expands expand)
    (h : t.WellFormed) {nodes : List NodeId} (hlive : ∀ n ∈ nodes, n ∈ t.ids)
    (happart : nodes.Pairwise t.Apart) : (∀ n ∈ nodes.flatMap (expand t), n ∈ t.ids) ∧
      (nodes.flatMap (expand t)).Pairwise t.Apart := by
  have below {m n : NodeId} (hm : m ∈ nodes) (hn : n ∈ expand t m) :
      ∀ q ∈ t.places, q.id = n → q.Within m := by
    obtain ⟨p, hp, rfl, hw⟩ := h.mem_descendants.1 (he.within t h m (hlive m hm) n hn)
    intro q hq hid
    rwa [h.eq_of_id_eq hq hp hid]
  refine ⟨?_, List.pairwise_flatMap.2 ⟨?_, ?_⟩⟩
  · intro n hn
    obtain ⟨m, hm, hn⟩ := List.mem_flatMap.1 hn
    obtain ⟨p, hp, hid, -⟩ := h.mem_descendants.1 (he.within t h m (hlive m hm) n hn)
    exact mem_ids_iff.2 ⟨p, hp, hid⟩
  · exact fun m hm => he.disjoint t h m (hlive m hm)
  · refine happart.imp_of_mem fun hm hm' hmm n hn n' hn' => ?_
    exact h.apart_of_within hmm (below hm hn) (below hm' hn')

end Tree

end Trellis
