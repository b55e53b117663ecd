/-
  Trellis.Proofs.Tree.Removal — trees with some of their nodes taken out.

  `without` takes out all nodes of a list, each with what lies below it. Which nodes are listed
  decides what is left, in whatever order they go (`without_without`, `without_congr`), and to
  remove a node is to take out what lies within it (`detach_eq_without`).

  A node is private to `a` if it lies within `a` or is not there. Where what goes is apart from
  `a`, what is private to `a` is found as it was: with the same nodes below it, the same line
  above it, and the same answer to whoever edits it.
-/
import Trellis.Proofs.Tree.Kinship

namespace Trellis

namespace Forest

variable {f : Forest} {a n : NodeId} {gone gone' : List NodeId} {above : List (NodeId × Kind)} {q : Place}

/-- Takes out the nodes in `gone`, each with all below it. -/
def without (gone : List NodeId) : Forest → Forest
  | empty => empty
  | node id kind name below beside =>
    if id ∈ gone then beside.without gone
    else node id kind name (below.without gone) (beside.without gone)

theorem without_without (f : Forest) (gone gone' : List NodeId) :
    (f.without gone).without gone' = f.without (gone ++ gone') := by
  induction f with
  | empty => rfl
  | node id kind name below beside ihb ihs =>
    simp only [without, List.mem_append]
    by_cases h : id ∈ gone
    · rw [if_pos h, if_pos (.inl h), ihs]
    · rw [if_neg h, without]
      by_cases h' : id ∈ gone'
      · rw [if_pos h', if_pos (.inr h'), ihs]
      · rw [if_neg h', if_neg (not_or.2 ⟨h, h'⟩), ihb, ihs]

/-- It matters which nodes are listed, and not how. -/
theorem without_congr (h : ∀ n, n ∈ gone ↔ n ∈ gone') (f : Forest) : f.without gone = f.without gone' := by
  induction f with
  | empty => rfl
  | node id kind name below beside ihb ihs => simp only [without, h, ihb, ihs]

theorem without_of_disjoint (h : ∀ n ∈ f.ids, n ∉ gone) : f.without gone = f := by
  induction f with
  | empty => rfl
  | node id kind name below beside ihb ihs =>
    simp only [ids, List.mem_cons, List.mem_append] at h
    rw [without, if_neg (h id (.inl rfl)), ihb fun n hn => h n (.inr (.inl hn)),
      ihs fun n hn => h n (.inr (.inr hn))]

/-- To detach a node is to take out all that is below it with it. -/
theorem detach_eq_without (hd : f.Distinct) {sub : Forest} (hs : f.subtree? n = some sub) :
    f.detach n = f.without sub.ids := by
  induction f with
  | empty => cases hs
  | node id kind name below beside ihb ihs =>
    obtain ⟨⟨hib, his⟩, hb, hbs, hdisj⟩ := distinct_node.1 hd
    rw [detach, without]
    rw [subtree?] at hs
    split at hs
    · rename_i e
      cases hs
      rw [if_pos e, if_pos (by simp [ids])]
      refine (without_of_disjoint fun m hm hin => ?_).symm
      rw [ids, ids, List.append_nil, List.mem_cons] at hin
      rcases hin with rfl | hin
      · exact his hm
      · exact hdisj m hin hm
    · rename_i hne
      rcases Option.or_eq_some_iff.1 hs with hs | ⟨-, hs⟩
      · have hsub := (sublist_ids_subtree hs).subset
        have hn : n ∈ below.ids := by
          by_contra hn
          rw [subtree?_eq_none.2 hn] at hs
          cases hs
        rw [if_neg hne, if_neg fun hin => hib (hsub hin), ihb hb hs, detach_of_not_mem (hdisj n hn),
          without_of_disjoint fun m hm hin => hdisj m (hsub hin) hm]
      · have hsub := (sublist_ids_subtree hs).subset
        have hn : n ∉ below.ids := by
          intro hn
          rw [subtree?_eq_none.2 (hdisj n hn)] at hs
          cases hs
        rw [if_neg hne, if_neg fun hin => his (hsub hin), ihs hbs hs, detach_of_not_mem hn,
          without_of_disjoint fun m hm hin => hdisj m hm (hsub hin)]

theorem mem_layout_without (h : ∀ m ∈ gone, m ∉ above.map Prod.fst) :
    q ∈ (f.without gone).layout above ↔ q ∈ f.layout above ∧ ∀ m ∈ gone, ¬ q.Within m := by
  induction f generalizing above with
  | empty => simp [without, layout]
  | node id kind name below beside ihb ihs =>
    rw [without]
    split
    · rename_i hid
      have gone_below : q ∈ below.layout ((id, kind) :: above) → q.Within id :=
        fun hq => within_of_mem_above hq (by simp)
      rw [ihs h, layout, List.mem_cons, List.mem_append]
      constructor
      · exact fun hq => ⟨.inr (.inr hq.1), hq.2⟩
      · rintro ⟨rfl | hq | hq, hout⟩
        · exact absurd (Place.within_self _) (hout _ hid)
        · exact absurd (gone_below hq) (hout id hid)
        · exact ⟨hq, hout⟩
    · rename_i hid
      have hb : ∀ m ∈ gone, m ∉ ((id, kind) :: above).map Prod.fst := by
        intro m hm hin
        rcases List.mem_cons.1 hin with rfl | hin
        · exact hid hm
        · exact h m hm hin
      have first : ∀ m ∈ gone, ¬ (⟨id, kind, above⟩ : Place).Within m := hb
      rw [layout, layout, List.mem_cons, List.mem_cons, List.mem_append, List.mem_append, ihb hb, ihs h]
      constructor
      · rintro (rfl | hq | hq)
        · exact ⟨.inl rfl, first⟩
        · exact ⟨.inr (.inl hq.1), hq.2⟩
        · exact ⟨.inr (.inr hq.1), hq.2⟩
      · rintro ⟨rfl | hq | hq, hout⟩
        · exact .inl rfl
        · exact .inr (.inl ⟨hq, hout⟩)
        · exact .inr (.inr ⟨hq, hout⟩)

/-- Taking out nodes that do not lie within `a`, nor `a` within them. -/
theorem subtree?_without (above : List (NodeId × Kind))
    (hn : ∀ p ∈ f.layout above, p.id ∈ gone → ¬ p.Within a)
    (ha : ∀ p ∈ f.layout above, p.id = a → ∀ m ∈ gone, ¬ p.Within m) :
    (f.without gone).subtree? a = f.subtree? a := by
  induction f generalizing above with
  | empty => rfl
  | node id kind name below beside ihb ihs =>
    obtain ⟨-, hnb, hns⟩ := forall_mem_layout_node.1 hn
    obtain ⟨hself, hab, has⟩ := forall_mem_layout_node.1 ha
    rw [without]
    split
    · rename_i hid
      have hne : id ≠ a := fun e => hself e id hid (Place.within_self _)
      have hbelow : a ∉ below.ids := not_mem_below fun p hp e => hab p hp e id hid
      rw [ihs above hns has, subtree?, if_neg hne, subtree?_eq_none.2 hbelow, Option.none_or]
    · rw [subtree?, subtree?]
      split
      · rename_i e
        have hbelow : ∀ m ∈ below.ids, m ∉ gone := by
          intro m hm hin
          obtain ⟨p, hp, rfl⟩ := (mem_ids ((id, kind) :: above)).1 hm
          exact hnb p hp hin (within_of_mem_above hp (by simp [e]))
        rw [without_of_disjoint hbelow]
      · rw [ihb _ hnb hab, ihs above hns has]

end Forest

namespace Tree

open Forest

/-- The tree with some nodes taken out, each with all below it. -/
def without (t : Tree) (gone : List NodeId) : Tree := { t with whole := t.whole.without gone }

/-- Nobody but `a` has to do with the node: it lies within `a`, or is not there. -/
def Private (t : Tree) (a n : NodeId) : Prop := ∀ q ∈ t.places, q.id = n → q.Within a

variable {t u : Tree} {a b n : NodeId} {gone gone' : List NodeId} {p q : Place}

theorem without_nil (t : Tree) : t.without [] = t := by
  rw [without, without_of_disjoint fun _ _ => List.not_mem_nil]

theorem without_append (t : Tree) (gone gone' : List NodeId) :
    (t.without gone).without gone' = t.without (gone ++ gone') := by
  rw [without, without, without, without_without]

theorem without_congr (h : ∀ n, n ∈ gone ↔ n ∈ gone') (t : Tree) : t.without gone = t.without gone' := by
  rw [without, without, Forest.without_congr h]

theorem without_comm (t : Tree) (gone gone' : List NodeId) :
    (t.without gone).without gone' = (t.without gone').without gone := by
  rw [without_append, without_append]
  exact without_congr (fun n => by rw [List.mem_append, List.mem_append, or_comm]) t

theorem mem_places_without : q ∈ (t.without gone).places ↔ q ∈ t.places ∧ ∀ m ∈ gone, ¬ q.Within m :=
  mem_layout_without fun _ _ => List.not_mem_nil

theorem Apart.without (h : t.Apart a b) (gone : List NodeId) : (t.without gone).Apart a b :=
  fun q hq => h q (mem_places_without.1 hq).1

/-- Nodes in the subtrees of nodes that are apart are apart. -/
theorem WellFormed.apart_of_mem (h : t.WellFormed) (hab : t.Apart a b) (hn : n ∈ t.descendants a) :
    t.Apart n b := by
  obtain ⟨p, hp, rfl, hw⟩ := h.mem_descendants.1 hn
  exact fun q hq hqn => hab q hq (h.within_trans hq hp hqn hw)

/-! ## Looking around -/

namespace WellFormed

variable (h : t.WellFormed)

include h

theorem private_of_isWithin (ho : t.isWithin n a = true) : t.Private a n := by
  rintro p hp rfl
  exact (h.isWithin_iff hp).1 ho

/-- What an owner owns is below it in the tree, unless it is the owner and gone. -/
theorem mem_descendants_of_isWithin (ho : t.isWithin n a = true) : n ∈ t.descendants a ∨ n = a := by
  by_cases hn : n ∈ t.ids
  · obtain ⟨p, hp, rfl⟩ := mem_ids_iff.1 hn
    exact .inl (h.mem_descendants.2 ⟨p, hp, rfl, (h.isWithin_iff hp).1 ho⟩)
  · rw [isWithin, lineage_of_not_mem hn, decide_eq_true_eq, List.mem_singleton] at ho
    exact .inr ho.symm

end WellFormed

section Elsewhere

variable (h : t.WellFormed) (h' : (t.without gone).WellFormed) (hg : ∀ m ∈ gone, t.Apart m a)

theorem mem_places_of_private (hg : ∀ m ∈ gone, t.Apart m a) (hn : t.Private a n) (hp : p ∈ t.places)
    (hid : p.id = n) : p ∈ (t.without gone).places :=
  mem_places_without.2 ⟨hp, fun m hm hw => hg m hm p hp hw (hn p hp hid)⟩

theorem mem_ids_without (hg : ∀ m ∈ gone, t.Apart m a) (hn : t.Private a n) :
    n ∈ (t.without gone).ids ↔ n ∈ t.ids := by
  rw [mem_ids_iff, mem_ids_iff]
  constructor
  · rintro ⟨p, hp, hid⟩
    exact ⟨p, (mem_places_without.1 hp).1, hid⟩
  · rintro ⟨p, hp, hid⟩
    exact ⟨p, mem_places_of_private hg hn hp hid, hid⟩

include h hg

theorem subtree?_without (hn : t.Private a n) :
    (t.without gone).whole.subtree? n = t.whole.subtree? n := by
  refine Forest.subtree?_without [] ?_ ?_
  · intro p hp hin hw
    obtain ⟨q, hq, rfl, -⟩ := line_of_within hp hw
    exact hg p.id hin p hp p.within_self (h.within_trans hp hq hw (hn q hq rfl))
  · exact fun p hp hid m hm hw => hg m hm p hp hw (hn p hp hid)

theorem descendants_without (hn : t.Private a n) : (t.without gone).descendants n = t.descendants n := by
  rw [descendants_eq_elim, descendants_eq_elim, subtree?_without h hg hn]

include h'

theorem lineage_without (hn : t.Private a n) : (t.without gone).lineage n = t.lineage n := by
  by_cases hids : n ∈ t.ids
  · obtain ⟨p, hp, rfl⟩ := mem_ids_iff.1 hids
    rw [h.lineage_of_mem hp, h'.lineage_of_mem (mem_places_of_private hg hn hp rfl)]
  · rw [WellFormed.lineage_of_not_mem hids,
      WellFormed.lineage_of_not_mem (mt (mem_ids_without hg hn).1 hids)]

theorem get?_without (hn : t.Private a n) : (t.without gone).get? n = t.get? n := by
  by_cases hids : n ∈ t.ids
  · obtain ⟨p, hp, rfl⟩ := mem_ids_iff.1 hids
    exact h.get?_congr h' hp (mem_places_of_private hg hn hp rfl) (subtree?_without h hg hn)
  · have hids' := mt (mem_ids_without hg hn).1 hids
    rw [get?, get?, (find?_eq_none none).2 hids, (find?_eq_none none).2 hids']

theorem kind?_without (hn : t.Private a n) : (t.without gone).kind? n = t.kind? n := by
  rw [kind?, kind?, get?_without h h' hg hn]

/-- Who owns a node is the same, whosever it is. -/
theorem isWithin_without (n : NodeId) : (t.without gone).isWithin n a = t.isWithin n a := by
  by_cases hn : t.Private a n
  · rw [isWithin, isWithin, lineage_without h h' hg hn]
  · obtain ⟨q, hq, rfl, hout⟩ : ∃ q ∈ t.places, q.id = n ∧ ¬ q.Within a := by
      rw [Private] at hn
      push Not at hn
      exact hn
    have foreign : t.isWithin q.id a = false := Bool.eq_false_iff.2 (mt (h.isWithin_iff hq).1 hout)
    rw [foreign]
    by_cases hids : q.id ∈ (t.without gone).ids
    · obtain ⟨r, hr, hid⟩ := mem_ids_iff.1 hids
      obtain rfl := h.eq_of_id_eq (mem_places_without.1 hr).1 hq hid
      exact Bool.eq_false_iff.2 (mt (h'.isWithin_iff hr).1 hout)
    · rw [isWithin, WellFormed.lineage_of_not_mem hids, decide_eq_false_iff_not, List.mem_singleton]
      rintro rfl
      exact hout q.within_self

/-! ## Edits -/

theorem remove_without (hn : t.Private a n) :
    (t.without gone).remove n = (t.remove n).map fun x => (x.1, x.2.without gone) := by
  have hcontains : (t.without gone).contains n = t.contains n := by
    rw [contains, contains, get?_without h h' hg hn]
  have hdesc := descendants_without h hg hn
  rw [remove, remove]
  split
  · rfl
  · rw [hcontains]
    split
    · rename_i hlive
      obtain ⟨p, hp, rfl⟩ : ∃ p ∈ t.places, p.id = n := by
        obtain ⟨node, hnode⟩ := Option.isSome_iff_exists.1 hlive
        obtain ⟨⟨p, hp, hid, -⟩, -⟩ := h.get?_kin hnode
        exact ⟨p, hp, hid⟩
      cases hs : t.whole.subtree? p.id with
      | none => exact absurd (mem_ids_iff.2 ⟨p, hp, rfl⟩) (subtree?_eq_none.1 hs)
      | some sub =>
        have hwhole : (t.without gone).whole.detach p.id = (t.whole.detach p.id).without gone := by
          rw [detach_eq_without h'.distinct ((subtree?_without h hg hn).trans hs),
            detach_eq_without h.distinct hs]
          exact congrArg whole (without_comm t gone sub.ids)
        rw [hdesc, Except.map, hwhole]
        rfl
    · rfl

end Elsewhere

/-- To remove a node is to take out what lies within it. -/
theorem WellFormed.remove_eq_without (h : t.WellFormed) (he : t.remove n = .ok (gone, u)) :
    gone = t.descendants n ∧ u = t.without gone := by
  obtain ⟨-, hlive, rfl, rfl⟩ := remove_eq_ok.1 he
  refine ⟨rfl, ?_⟩
  cases hs : t.whole.subtree? n with
  | none =>
    obtain ⟨node, hnode⟩ := Option.isSome_iff_exists.1 hlive
    rw [get?, (find?_eq_none none).2 (subtree?_eq_none.1 hs)] at hnode
    cases hnode
  | some sub =>
    rw [without, detach_eq_without h.distinct hs, descendants_eq_elim, hs, Option.elim_some]

theorem add_error_congr {parent : NodeId} {kind : Kind} {name : String} {e : TreeError}
    (hk : u.kind? parent = t.kind? parent) (he : t.add parent kind name = .error e) :
    u.add parent kind name = .error e := by
  unfold add at he ⊢
  rw [hk]
  split at he
  · exact he
  · split at he
    · cases he
    · rename_i hcan
      rw [if_neg hcan]
      exact he

theorem clone_error_congr {source parent : NodeId} {e : TreeError}
    (hw : u.isWithin parent source = t.isWithin parent source)
    (hs : u.whole.subtree? source = t.whole.subtree? source) (hks : u.kind? source = t.kind? source)
    (hk : u.kind? parent = t.kind? parent) (he : t.clone source parent = .error e) :
    u.clone source parent = .error e := by
  unfold clone at he ⊢
  rw [hw, hs, hks, hk]
  split at he
  · rename_i hin
    rw [if_pos hin]
    exact he
  · rename_i hin
    rw [if_neg hin]
    split at he
    · split at he
      · exact he
      · split at he
        · cases he
        · rename_i hcan
          simp only [if_neg hcan]
          exact he
    · exact he

end Tree

end Trellis
