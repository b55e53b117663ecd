/-
  Trellis.Proofs.Tree.WellFormed — what is true of every tree that can be built.

  A tree is built from its root by adding, removing, copying and renaming. In each such tree
  no identifier occurs twice, all are below the counter, the root is the program, and children
  are of kinds their parents can contain (`Built.wellFormed`).

  - `grows_add`, `grows_clone`, `shrinks_remove`, `places_rename`: what an edit does to the
    places of a tree. A node that stays keeps its place.
  - `kind?_eq_some`, `mem_descendants`, `isWithin_iff`: reading a tree is reading its places.
-/
import Trellis.Proofs.Tree.Layout
import Trellis.Tree

namespace Trellis

/-! ## Nesting -/

namespace Forest

/-- Every node can contain its children, and a node of kind `outer` the outermost ones. -/
def Nested (outer : Option Kind) : Forest → Prop
  | empty => True
  | node _ kind _ below beside =>
    (∀ k ∈ outer, k.canContain kind = true) ∧ below.Nested (some kind) ∧ beside.Nested outer

variable {f g : Forest} {outer : Option Kind} {n : NodeId} {above : List (NodeId × Kind)} {p : Place}

theorem nested_append : (f ++ g).Nested outer ↔ f.Nested outer ∧ g.Nested outer := by
  show (f.append g).Nested outer ↔ _
  induction f with
  | empty => simp [append, Nested]
  | node id kind name below beside _ ihs =>
    simp only [append, Nested, ihs, and_assoc]

theorem nested_rename (n : NodeId) (new : String) : (f.rename n new).Nested outer ↔ f.Nested outer := by
  induction f generalizing outer with
  | empty => rfl
  | node id kind name below beside ihb ihs =>
    rw [rename]
    split
    · rfl
    · simp only [Nested, ihb, ihs]

theorem nested_renumber (first : NodeId) : (f.renumber first).Nested outer ↔ f.Nested outer := by
  induction f generalizing outer first with
  | empty => rfl
  | node id kind name below beside ihb ihs => simp only [renumber, Nested, ihb, ihs]

theorem Nested.detach (h : f.Nested outer) (n : NodeId) : (f.detach n).Nested outer := by
  induction f generalizing outer with
  | empty => exact h
  | node id kind name below beside ihb ihs =>
    rw [Forest.detach]
    split
    · exact h.2.2
    · exact ⟨h.1, ihb h.2.1, ihs h.2.2⟩

theorem Nested.attach (above : List (NodeId × Kind)) {child : Forest} (h : f.Nested outer)
    (hc : ∀ p ∈ f.layout above, p.id = n → child.Nested (some p.kind)) :
    (attach n child f).Nested outer := by
  induction f generalizing outer above with
  | empty => exact h
  | node id kind name below beside ihb ihs =>
    rw [Forest.attach]
    split
    · rename_i e
      exact ⟨h.1, nested_append.2 ⟨h.2.1, hc _ List.mem_cons_self e⟩, h.2.2⟩
    · refine ⟨h.1, ihb ((id, kind) :: above) h.2.1 ?_, ihs above h.2.2 ?_⟩
      · exact fun p hp => hc p (by simp [layout, hp])
      · exact fun p hp => hc p (by simp [layout, hp])

theorem Nested.subtree {name : String} {k : Kind} {below : Forest} (h : f.Nested outer)
    (hs : f.subtree? n = some (node n k name below empty)) : below.Nested (some k) := by
  induction f generalizing outer with
  | empty => cases hs
  | node id kind name' below' beside ihb ihs =>
    rw [subtree?] at hs
    split at hs
    · cases hs
      exact h.2.1
    · cases hsub : below'.subtree? n with
      | some s =>
        rw [hsub] at hs
        exact ihb h.2.1 (hsub.trans hs)
      | none =>
        rw [hsub] at hs
        exact ihs h.2.2 hs

/-- From the inside out, each node can contain the one before. -/
def Chained (line : List (NodeId × Kind)) : Prop :=
  line.IsChain fun child parent => parent.2.canContain child.2 = true

theorem Nested.chained (h : f.Nested outer) (ho : outer = above.head?.map Prod.snd)
    (ha : Chained above) (hp : p ∈ f.layout above) : Chained p.line := by
  induction f generalizing outer above with
  | empty => cases hp
  | node id kind name below beside ihb ihs =>
    have hfirst : Chained ((id, kind) :: above) := by
      cases above with
      | nil => exact .singleton _
      | cons x above => exact .cons_cons (h.1 x.2 ho) ha
    rw [layout, List.mem_cons, List.mem_append] at hp
    rcases hp with rfl | hp | hp
    · exact hfirst
    · exact ihb h.2.1 rfl hfirst hp
    · exact ihs h.2.2 ho ha hp

end Forest

namespace Tree

open Forest

/-- The nodes of a tree with the nodes above them. -/
def places (t : Tree) : List Place := t.whole.layout []

structure WellFormed (t : Tree) : Prop where
  distinct : t.whole.Distinct
  fresh : ∀ n ∈ t.ids, n < t.next
  rooted : ∃ name below, t.whole = .node root .program name below .empty
  nested : t.whole.Nested none

variable {t u : Tree} {n m a d parent source : NodeId} {k : Kind} {p q : Place}

theorem mem_ids_iff : n ∈ t.ids ↔ ∃ p ∈ t.places, p.id = n := mem_ids []

namespace WellFormed

variable (h : t.WellFormed)

include h

theorem eq_of_id_eq (hp : p ∈ t.places) (hq : q ∈ t.places) (e : p.id = q.id) : p = q :=
  h.distinct.eq_of_id_eq hp hq e

theorem lt_next (hp : p ∈ t.places) : p.id < t.next := h.fresh _ (mem_ids_iff.2 ⟨p, hp, rfl⟩)

theorem chained (hp : p ∈ t.places) : Chained p.line := h.nested.chained rfl .nil hp

/-- Above every node, at last, is the root. -/
theorem line_eq (hp : p ∈ t.places) : ∃ mid, p.line = mid ++ [(root, .program)] := by
  obtain ⟨name, below, hw⟩ := h.rooted
  rw [places, hw] at hp
  simp only [layout, List.append_nil, List.mem_cons] at hp
  rcases hp with rfl | hp
  · exact ⟨[], rfl⟩
  · obtain ⟨mid, hmid, -⟩ := above_eq hp
    exact ⟨(p.id, p.kind) :: mid, by rw [Place.line, hmid, List.cons_append]⟩

/-! ## Reading -/

theorem find?_places : t.places.find? (·.id = n) = some p ↔ p ∈ t.places ∧ p.id = n :=
  h.distinct.find?_layout

theorem kind?_eq_some : t.kind? n = some k ↔ ∃ p ∈ t.places, p.id = n ∧ p.kind = k := by
  rw [kind?, get?, find?_kind _ _ [], Option.map_eq_some_iff]
  constructor
  · intro hf
    obtain ⟨p, hp, hk⟩ := hf
    obtain ⟨hp, hid⟩ := h.find?_places.1 hp
    exact ⟨p, hp, hid, hk⟩
  · intro hf
    obtain ⟨p, hp, hid, hk⟩ := hf
    exact ⟨p, h.find?_places.2 ⟨hp, hid⟩, hk⟩

theorem kind?_of_mem (hp : p ∈ t.places) : t.kind? p.id = some p.kind :=
  h.kind?_eq_some.2 ⟨p, hp, rfl, rfl⟩

theorem contains_of_mem (hp : p ∈ t.places) : t.contains p.id = true := by
  rw [contains, ← Option.isSome_map (f := Node.kind)]
  show (t.kind? p.id).isSome = true
  rw [h.kind?_of_mem hp]
  rfl

theorem lineage_of_mem (hp : p ∈ t.places) : t.lineage p.id = p.line.map Prod.fst := by
  have hline := lineage?_eq t.whole [] p.id
  have hfind : (t.whole.layout []).find? (·.id = p.id) = some p := h.find?_places.2 ⟨hp, rfl⟩
  rw [hfind, Option.map_some] at hline
  obtain ⟨l, hl, hline⟩ := Option.map_eq_some_iff.1 hline
  rw [List.append_nil] at hline
  rw [lineage, hl, hline]

omit h in
theorem lineage_of_not_mem (hn : n ∉ t.ids) : t.lineage n = [n] := by
  have hline := lineage?_eq t.whole [] n
  have hnone : (t.whole.layout []).find? (·.id = n) = none :=
    List.find?_eq_none.2 fun p hp e => hn (mem_ids_iff.2 ⟨p, hp, by simpa using e⟩)
  rw [hnone, Option.map_none, Option.map_eq_none_iff] at hline
  rw [lineage, hline]

theorem isWithin_iff (hp : p ∈ t.places) : t.isWithin p.id a = true ↔ p.Within a := by
  rw [isWithin, h.lineage_of_mem hp, decide_eq_true_eq]
  rfl

/-- The subtree of a node, read off the places. -/
theorem mem_descendants : d ∈ t.descendants a ↔ ∃ p ∈ t.places, p.id = d ∧ p.Within a := by
  unfold descendants
  split
  · rename_i sub hs
    obtain ⟨r, -, -, -, -, -, hl⟩ := layout_subtree? [] h.distinct List.not_mem_nil hs
    rw [mem_ids r.above, hl]
    simp only [inside, List.mem_filter, decide_eq_true_eq]
    constructor
    · intro hd
      obtain ⟨p, hp, hid⟩ := hd
      exact ⟨p, hp.1, hid, hp.2⟩
    · intro hd
      obtain ⟨p, hp, hid, hw⟩ := hd
      exact ⟨p, ⟨hp, hw⟩, hid⟩
  · rename_i hs
    constructor
    · intro hd
      cases hd
    · intro hd
      obtain ⟨p, hp, -, hw⟩ := hd
      exact absurd (mem_ids_of_within hp (by simp) hw) (subtree?_eq_none.1 hs)

theorem mem_descendantsOfKind :
    d ∈ t.descendantsOfKind a k ↔ ∃ p ∈ t.places, p.id = d ∧ p.kind = k ∧ p.Within a := by
  simp only [descendantsOfKind, List.mem_filter, h.mem_descendants, decide_eq_true_eq,
    h.kind?_eq_some]
  constructor
  · intro hd
    obtain ⟨⟨p, hp, hid, hw⟩, q, hq, hid', hk⟩ := hd
    rw [h.eq_of_id_eq hq hp (hid'.trans hid.symm)] at hk
    exact ⟨p, hp, hid, hk, hw⟩
  · intro hd
    obtain ⟨p, hp, hid, hk, hw⟩ := hd
    exact ⟨⟨p, hp, hid, hw⟩, p, hp, hid, hk⟩

theorem within_root (hp : p ∈ t.places) : p.Within root := by
  obtain ⟨mid, hmid⟩ := h.line_eq hp
  simp [Place.Within, hmid]

theorem mem_nodesOfKind : d ∈ t.nodesOfKind k ↔ ∃ p ∈ t.places, p.id = d ∧ p.kind = k := by
  rw [nodesOfKind, h.mem_descendantsOfKind]
  exact ⟨fun ⟨p, hp, hid, hk, _⟩ => ⟨p, hp, hid, hk⟩,
    fun ⟨p, hp, hid, hk⟩ => ⟨p, hp, hid, hk, h.within_root hp⟩⟩

end WellFormed

/-! ## Editing -/

theorem wellFormed_new (name : String) : (new name).WellFormed where
  distinct := by simp [Forest.Distinct, new, Forest.ids]
  fresh n hn := by
    rw [Tree.ids, new, Forest.ids] at hn
    simp [Forest.ids] at hn
    simp [hn, new]
  rooted := ⟨name, .empty, rfl⟩
  nested := ⟨by simp, trivial, trivial⟩

/-! What each edit takes, and what it makes. -/

theorem rename_eq_ok {new : String} : t.rename n new = .ok u ↔
    t.contains n = true ∧ u = { t with whole := t.whole.rename n new } := by
  unfold Tree.rename
  constructor
  · intro he
    split at he
    · rename_i hlive
      cases he
      exact ⟨hlive, rfl⟩
    · cases he
  · rintro ⟨hlive, rfl⟩
    exact if_pos hlive

theorem add_eq_ok {kind : Kind} {name : String} : t.add parent kind name = .ok (n, u) ↔
    ∃ k, t.kind? parent = some k ∧ k.canContain kind = true ∧ n = t.next ∧
      u = ⟨Forest.attach parent (.node t.next kind name .empty .empty) t.whole, t.next + 1⟩ := by
  unfold add
  constructor
  · intro he
    split at he
    · cases he
    · rename_i k hk
      split at he
      · rename_i hcan
        cases he
        exact ⟨k, hk, hcan, rfl, rfl⟩
      · cases he
  · rintro ⟨k, hk, hcan, rfl, rfl⟩
    rw [hk]
    exact if_pos hcan

theorem remove_eq_ok {gone : List NodeId} : t.remove n = .ok (gone, u) ↔
    n ≠ root ∧ t.contains n = true ∧ gone = t.descendants n ∧ u = { t with whole := t.whole.detach n } := by
  unfold remove
  constructor
  · intro he
    split at he
    · cases he
    · rename_i hroot
      split at he
      · rename_i hlive
        cases he
        exact ⟨hroot, hlive, rfl, rfl⟩
      · cases he
  · rintro ⟨hroot, hlive, rfl, rfl⟩
    rw [if_neg hroot, if_pos hlive]

theorem clone_eq_ok {pairs : List (NodeId × NodeId)} : t.clone source parent = .ok (pairs, u) ↔
    t.isWithin parent source = false ∧ ∃ sub kind k, t.whole.subtree? source = some sub ∧
      t.kind? source = some kind ∧ t.kind? parent = some k ∧ k.canContain kind = true ∧
      pairs = sub.ids.zip (sub.renumber t.next).ids ∧
      u = ⟨Forest.attach parent (sub.renumber t.next) t.whole, t.next + sub.size⟩ := by
  unfold clone
  constructor
  · intro he
    split at he
    · cases he
    · rename_i hout
      split at he
      · rename_i sub kind hsub hkind
        split at he
        · cases he
        · rename_i k hk
          split at he
          · rename_i hcan
            cases he
            exact ⟨Bool.eq_false_iff.2 hout, sub, kind, k, hsub, hkind, hk, hcan, rfl, rfl⟩
          · cases he
      · cases he
  · rintro ⟨hout, sub, kind, k, hsub, hkind, hk, hcan, rfl, rfl⟩
    simp only [hout, hsub, hkind, hk, hcan, Bool.false_eq_true, if_false, if_true]

theorem places_rename {new : String} (he : t.rename n new = .ok u) :
    u.places = t.places ∧ u.next = t.next := by
  obtain ⟨-, rfl⟩ := rename_eq_ok.1 he
  exact ⟨layout_rename _ _ _ _, rfl⟩

theorem ids_eq_map_places (t : Tree) : t.ids = t.places.map Place.id := (map_id_layout _ _).symm

namespace WellFormed

variable (h : t.WellFormed)

include h

theorem rename {new : String} (he : t.rename n new = .ok u) : u.WellFormed := by
  obtain ⟨hplaces, hnext⟩ := places_rename he
  have hids : u.ids = t.ids := by rw [ids_eq_map_places, hplaces, ← ids_eq_map_places]
  refine ⟨?_, ?_, ?_, ?_⟩
  · show u.ids.Nodup
    rw [hids]
    exact h.distinct
  · rw [hids, hnext]
    exact h.fresh
  · obtain ⟨-, rfl⟩ := rename_eq_ok.1 he
    obtain ⟨name, below, hw⟩ := h.rooted
    dsimp only
    rw [hw, Forest.rename]
    split
    · exact ⟨_, _, rfl⟩
    · exact ⟨_, _, rfl⟩
  · obtain ⟨-, rfl⟩ := rename_eq_ok.1 he
    exact (nested_rename n new).2 h.nested

/-- A forest of new nodes attached to a node that can contain it. -/
theorem attach (hp : p ∈ t.places) {child : Forest} {size : Nat}
    (hids : child.ids = List.range' t.next size) (hc : child.Nested (some p.kind)) :
    (⟨Forest.attach p.id child t.whole, t.next + size⟩ : Tree).WellFormed where
  distinct := by
    have hperm := perm_ids_attach h.distinct (mem_ids_iff.2 ⟨p, hp, rfl⟩) child
    rw [Forest.Distinct, hperm.nodup_iff, List.nodup_append]
    refine ⟨?_, h.distinct, ?_⟩
    · rw [hids]
      exact List.nodup_range'
    · intro a ha b hb e
      rw [hids, List.mem_range'_1] at ha
      exact Nat.not_lt.2 ha.1 (e ▸ h.fresh b hb)
  fresh n hn := by
    have hperm := perm_ids_attach h.distinct (mem_ids_iff.2 ⟨p, hp, rfl⟩) child
    rw [Tree.ids, hperm.mem_iff, List.mem_append, hids, List.mem_range'_1] at hn
    rcases hn with hn | hn
    · exact hn.2
    · exact Nat.lt_of_lt_of_le (h.fresh n hn) (Nat.le_add_right _ _)
  rooted := by
    obtain ⟨name, below, hw⟩ := h.rooted
    rw [hw, Forest.attach]
    split
    · exact ⟨_, _, rfl⟩
    · exact ⟨_, _, rfl⟩
  nested := by
    refine h.nested.attach [] fun q hq e => ?_
    rw [h.eq_of_id_eq hq hp e]
    exact hc

/-- What attaching a forest does to the places. -/
theorem mem_places_attach (hp : p ∈ t.places) {child : Forest} {next : NodeId} :
    q ∈ (⟨Forest.attach p.id child t.whole, next⟩ : Tree).places ↔
      q ∈ t.places ∨ q ∈ child.layout p.line := by
  rw [places, mem_layout_attach h.distinct]
  constructor
  · intro hq
    rcases hq with hq | ⟨r, hr, hid, hq⟩
    · exact .inl hq
    · rw [h.eq_of_id_eq hr hp hid] at hq
      exact .inr hq
  · intro hq
    rcases hq with hq | hq
    · exact .inl hq
    · exact .inr ⟨p, hp, rfl, hq⟩

end WellFormed

/-- `u` is `t` with new nodes below the node of `p`, and nothing else changed. -/
structure Grows (t : Tree) (p : Place) (new : List NodeId) (u : Tree) : Prop where
  parent : p ∈ t.places
  new_eq : new = List.range' t.next new.length
  next : u.next = t.next + new.length
  keeps : ∀ q ∈ t.places, q ∈ u.places
  adds : ∀ q ∈ u.places, q ∈ t.places ∨ q.id ∈ new ∧ ∀ a, p.Within a → q.Within a
  news : ∀ n ∈ new, n ∈ u.ids
  wellFormed : u.WellFormed

/-- `u` is `t` without the node `n` and what lies below it. -/
structure Shrinks (t : Tree) (n : NodeId) (u : Tree) : Prop where
  next : u.next = t.next
  places : ∀ q, q ∈ u.places ↔ q ∈ t.places ∧ ¬ q.Within n
  wellFormed : u.WellFormed

namespace WellFormed

variable (h : t.WellFormed)

include h

theorem grows_attach (hp : p ∈ t.places) {child : Forest} {size : Nat}
    (hids : child.ids = List.range' t.next size) (hc : child.Nested (some p.kind)) :
    Grows t p child.ids ⟨Forest.attach p.id child t.whole, t.next + size⟩ where
  parent := hp
  new_eq := by rw [hids, List.length_range']
  next := by rw [hids, List.length_range']
  keeps q hq := (h.mem_places_attach hp).2 (.inl hq)
  adds q hq := by
    refine ((h.mem_places_attach hp).1 hq).imp_right fun hq => ⟨(mem_ids _).2 ⟨q, hq, rfl⟩, ?_⟩
    exact fun a ha => within_of_mem_above hq ha
  news n hn := by
    obtain ⟨q, hq, rfl⟩ := (mem_ids p.line).1 hn
    exact mem_ids_iff.2 ⟨q, (h.mem_places_attach hp).2 (.inr hq), rfl⟩
  wellFormed := h.attach hp hids hc

theorem grows_add {kind : Kind} {name : String} (he : t.add parent kind name = .ok (n, u)) :
    ∃ p, p.id = parent ∧ Grows t p [n] u := by
  obtain ⟨k, hk, hcan, rfl, rfl⟩ := add_eq_ok.1 he
  obtain ⟨p, hp, rfl, rfl⟩ := h.kind?_eq_some.1 hk
  have hids : (Forest.node t.next kind name .empty .empty).ids = List.range' t.next 1 := rfl
  refine ⟨p, rfl, h.grows_attach hp hids ⟨fun k hk => ?_, trivial, trivial⟩⟩
  cases hk
  exact hcan

theorem grows_clone {pairs : List (NodeId × NodeId)} (he : t.clone source parent = .ok (pairs, u)) :
    ∃ p, p.id = parent ∧ Grows t p (pairs.map Prod.snd) u := by
  obtain ⟨-, sub, kind, k, hsub, hkind, hk, hcan, rfl, rfl⟩ := clone_eq_ok.1 he
  obtain ⟨p, hp, rfl, rfl⟩ := h.kind?_eq_some.1 hk
  obtain ⟨r, hr, name, below, hid, rfl, -⟩ := layout_subtree? [] h.distinct List.not_mem_nil hsub
  have hrk := h.kind?_of_mem hr
  rw [hid, hkind] at hrk
  cases hrk
  have hnested : (Forest.node source r.kind name below .empty).Nested (some p.kind) := by
    refine ⟨fun k hk => ?_, h.nested.subtree hsub, trivial⟩
    cases hk
    exact hcan
  have hids := ids_renumber (Forest.node source r.kind name below .empty) t.next
  refine ⟨p, rfl, ?_⟩
  rw [List.map_snd_zip]
  · exact h.grows_attach hp hids ((nested_renumber t.next).2 hnested)
  · exact Nat.le_of_eq (by rw [hids, List.length_range', size_eq_length_ids])

theorem shrinks_remove {gone : List NodeId} (he : t.remove n = .ok (gone, u)) :
    gone = t.descendants n ∧ Shrinks t n u := by
  obtain ⟨hroot, -, rfl, rfl⟩ := remove_eq_ok.1 he
  have hplaces : Forest.layout [] (t.whole.detach n) = outside n t.places :=
    layout_detach h.distinct List.not_mem_nil
  have hids : (t.whole.detach n).ids = (outside n t.places).map Place.id := by
    rw [← map_id_layout _ [], hplaces]
  have hsub : (t.whole.detach n).ids.Sublist t.ids := by
    rw [hids, ids_eq_map_places]
    exact List.filter_sublist.map _
  refine ⟨rfl, rfl, ?_, ⟨?_, ?_, ?_, ?_⟩⟩
  · intro q
    rw [places, hplaces]
    simp [outside]
  · exact List.Nodup.sublist hsub h.distinct
  · exact fun m hm => h.fresh m (hsub.subset hm)
  · obtain ⟨name, below, hw⟩ := h.rooted
    dsimp only
    rw [hw, Forest.detach, if_neg (Ne.symm hroot)]
    exact ⟨name, _, rfl⟩
  · exact h.nested.detach n

end WellFormed

/-! ## Copying a node -/

/-- A node is copied by reading it and adding another like it. -/
theorem WellFormed.copyNode_ok (h : t.WellFormed) {node : Node} {c parent : NodeId}
    (hn : t.copyNode n parent = .ok (node, c, u)) : t.get? n = some node ∧
      t.add parent node.kind node.name = .ok (c, u) ∧ u.WellFormed ∧ t.next ≤ u.next := by
  unfold copyNode at hn
  split at hn
  · rename_i original hget
    cases hadd : t.add parent original.kind original.name with
    | error e =>
      rw [hadd] at hn
      cases hn
    | ok added =>
      rw [hadd] at hn
      cases hn
      obtain ⟨p, -, hg⟩ := h.grows_add hadd
      exact ⟨hget, hadd, hg.wellFormed, hg.next ▸ Nat.le_add_right _ _⟩
  · cases hn

theorem copyNode_error {parent : NodeId} {e : TreeError} (hn : t.copyNode n parent = .error e) :
    t.get? n = none ∧ e = .missingNode n ∨
      ∃ node, t.get? n = some node ∧ t.add parent node.kind node.name = .error e := by
  unfold copyNode at hn
  split at hn
  · rename_i original hget
    cases hadd : t.add parent original.kind original.name with
    | error e' =>
      rw [hadd] at hn
      cases hn
      exact .inr ⟨original, hget, hadd⟩
    | ok added =>
      rw [hadd] at hn
      cases hn
  · rename_i hget
    cases hn
    exact .inl ⟨hget, rfl⟩

/-! ## Trees that can be built -/

/-- An edit leads from a tree to another. -/
inductive Edit (t : Tree) : Tree → Prop
  | rename {u : Tree} {n : NodeId} {name : String} : t.rename n name = .ok u → Edit t u
  | add {u : Tree} {n parent : NodeId} {kind : Kind} {name : String} :
    t.add parent kind name = .ok (n, u) → Edit t u
  | remove {u : Tree} {n : NodeId} {gone : List NodeId} : t.remove n = .ok (gone, u) → Edit t u
  | clone {u : Tree} {source parent : NodeId} {pairs : List (NodeId × NodeId)} :
    t.clone source parent = .ok (pairs, u) → Edit t u

/-- A tree made from its root by edits. -/
inductive Built : Tree → Prop
  | new (name : String) : Built (new name)
  | edit {t u : Tree} : Built t → Edit t u → Built u

/-- No edit spoils a tree, or gives numbers back. -/
theorem WellFormed.edit (h : t.WellFormed) (he : Edit t u) : u.WellFormed ∧ t.next ≤ u.next := by
  cases he with
  | rename he => exact ⟨h.rename he, Nat.le_of_eq (places_rename he).2.symm⟩
  | add he =>
    obtain ⟨p, -, hg⟩ := h.grows_add he
    exact ⟨hg.wellFormed, by rw [hg.next]; exact Nat.le_add_right _ _⟩
  | remove he =>
    obtain ⟨-, hg⟩ := h.shrinks_remove he
    exact ⟨hg.wellFormed, Nat.le_of_eq hg.next.symm⟩
  | clone he =>
    obtain ⟨p, -, hg⟩ := h.grows_clone he
    exact ⟨hg.wellFormed, by rw [hg.next]; exact Nat.le_add_right _ _⟩

theorem Built.wellFormed (h : t.Built) : t.WellFormed := by
  induction h with
  | new name => exact wellFormed_new name
  | edit _ he ih => exact (ih.edit he).1

end Tree

end Trellis
