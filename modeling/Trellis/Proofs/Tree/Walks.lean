/-
  Trellis.Proofs.Tree.Walks — a subtree listed and copied one node at a time.

  On the nested structure a subtree is one thing, to be listed or renumbered as a whole. Whoever
  has no more than the records of the nodes goes from one to the next: `Walk` keeps a stack of
  nodes that are still to be listed, and `Copying` reads a node, adds another like it, and goes on
  with its children below the new one, in a tree that has changed by then. It stops at the first
  failure, and what has been added stays.

  - `walk_iff`: the walk from a node lists its subtree.
  - `cloning_iff`: the copy made node by node is the copy made at once. After the first node has
    been added nothing fails any more, so a failure leaves the tree as it was.
-/
import Trellis.Proofs.Tree.Coherence
import Trellis.Proofs.Tree.Grafts

namespace Trellis.Tree

open Forest

/-- In the tree the nodes of `g` have the kinds, the names and the children that they have there. -/
def Shows (t : Tree) (g : Forest) : Prop := ∀ m ∈ g.ids, ∃ up, t.get? m = g.find? m up

/-- The walk that has `stack` before it lists `found`: a node that is gone is passed over, any
    other puts its children on top of the stack. -/
inductive Walk (t : Tree) : List NodeId → List NodeId → Prop
  | done : Walk t [] []
  | gone {n : NodeId} {stack found : List NodeId} (hn : t.get? n = none) (hw : Walk t stack found) :
      Walk t (n :: stack) found
  | live {n : NodeId} {node : Node} {stack found : List NodeId} (hn : t.get? n = some node)
      (hw : Walk t (node.children ++ stack) found) : Walk t (n :: stack) (n :: found)

/-- Copying some nodes below `parent`, one after the other, leads from the first tree to the second
    and answers which node has been copied to which, or why not. -/
inductive Copying :
    Tree → List NodeId → NodeId → Except TreeError (List (NodeId × NodeId)) → Tree → Prop
  | done {t : Tree} {parent : NodeId} : Copying t [] parent (.ok []) t
  | stopped {t : Tree} {n parent : NodeId} {ns : List NodeId} {e : TreeError}
      (hn : t.copyNode n parent = .error e) : Copying t (n :: ns) parent (.error e) t
  | broken {t u v : Tree} {n c parent : NodeId} {ns : List NodeId} {node : Node} {e : TreeError}
      (hn : t.copyNode n parent = .ok (node, c, u)) (hb : Copying u node.children c (.error e) v) :
      Copying t (n :: ns) parent (.error e) v
  | copied {t u v w : Tree} {n c parent : NodeId} {ns : List NodeId} {node : Node}
      {below : List (NodeId × NodeId)} {r : Except TreeError (List (NodeId × NodeId))}
      (hn : t.copyNode n parent = .ok (node, c, u)) (hb : Copying u node.children c (.ok below) v)
      (hs : Copying v ns parent r w) :
      Copying t (n :: ns) parent (r.map fun beside => (n, c) :: (below ++ beside)) w

/-- Copying the subtree of `source` below `parent`, which must not lie in it. -/
inductive Cloning (t : Tree) (source parent : NodeId) :
    Except TreeError (List (NodeId × NodeId)) → Tree → Prop
  | inside (h : t.isWithin parent source = true) :
      Cloning t source parent (.error (.cloneIntoItself source)) t
  | outside {r : Except TreeError (List (NodeId × NodeId))} {u : Tree}
      (h : t.isWithin parent source = false) (hc : Copying t [source] parent r u) :
      Cloning t source parent r u

variable {t u v w : Tree} {f g : Forest} {n c parent source : NodeId} {k : Kind} {p : Place}
  {ns stack found found' : List NodeId} {r r' : Except TreeError (List (NodeId × NodeId))}

/-! ## What the records tell of a forest -/

theorem Shows.of_node {name : String} {below beside : Forest}
    (hd : (Forest.node n k name below beside).Distinct)
    (hs : t.Shows (.node n k name below beside)) :
    (∃ up, t.get? n = some ⟨n, k, name, up, below.roots⟩) ∧ t.Shows below ∧ t.Shows beside := by
  obtain ⟨⟨hnb, hns⟩, -, -, hdisj⟩ := distinct_node.1 hd
  refine ⟨?_, fun m hm => ?_, fun m hm => ?_⟩
  · obtain ⟨up, hup⟩ := hs n List.mem_cons_self
    exact ⟨up, by rw [hup, find?, if_pos rfl]⟩
  · obtain ⟨up, hup⟩ := hs m (by simp [Forest.ids, hm])
    have hne : n ≠ m := fun e => hnb (e ▸ hm)
    rw [find?, if_neg hne, (find?_eq_none up).2 (hdisj m hm), Option.or_none] at hup
    exact ⟨some n, hup⟩
  · obtain ⟨up, hup⟩ := hs m (by simp [Forest.ids, hm])
    have hne : n ≠ m := fun e => hns (e ▸ hm)
    rw [find?, if_neg hne, (find?_eq_none _).2 fun hb => hdisj m hb hm, Option.none_or] at hup
    exact ⟨up, hup⟩

/-- Records elsewhere do not matter. -/
theorem Shows.congr (hs : t.Shows g) (h : ∀ m ∈ g.ids, u.get? m = t.get? m) : u.Shows g := by
  intro m hm
  rw [h m hm]
  exact hs m hm

theorem WellFormed.shows_subtree (h : t.WellFormed) (hs : t.whole.subtree? n = some f) : t.Shows f := by
  obtain ⟨up, hup⟩ := find?_of_mem_subtree h.distinct hs none
  exact fun m hm => ⟨up, hup m hm⟩

theorem get?_eq_none : t.get? n = none ↔ t.whole.subtree? n = none := by
  rw [get?, find?_eq_none, subtree?_eq_none]

/-! ## Listing -/

theorem Walk.unique (h : t.Walk stack found) (h' : t.Walk stack found') : found = found' := by
  induction h generalizing found' with
  | done =>
    cases h'
    rfl
  | gone hn _ ih =>
    cases h' with
    | gone _ hw => exact ih hw
    | live hn' _ => cases hn.symm.trans hn'
  | live hn _ ih =>
    cases h' with
    | gone hn' _ => cases hn.symm.trans hn'
    | live hn' hw =>
      cases hn.symm.trans hn'
      rw [ih hw]

/-- A walk goes through the trees on top of its stack first, in pre-order. -/
theorem Walk.through (hd : g.Distinct) (hs : t.Shows g) (h : t.Walk stack found) :
    t.Walk (g.roots ++ stack) (g.ids ++ found) := by
  induction g generalizing stack found with
  | empty => exact h
  | node id kind name below beside ihb ihs =>
    obtain ⟨-, hb, hbs, -⟩ := distinct_node.1 hd
    obtain ⟨⟨up, hid⟩, hsb, hss⟩ := hs.of_node hd
    have rest := ihb hb hsb (ihs hbs hss h)
    rw [roots, Forest.ids, List.cons_append, List.cons_append, List.append_assoc]
    exact .live hid rest

/-- The walk from a node lists its subtree, and nothing else. -/
theorem WellFormed.walk_iff (h : t.WellFormed) : t.Walk [n] found ↔ found = t.descendants n := by
  have walked : t.Walk [n] (t.descendants n) := by
    rw [descendants_eq_elim]
    cases hs : t.whole.subtree? n with
    | none => exact .gone (get?_eq_none.2 hs) .done
    | some sub =>
      obtain ⟨r, -, name, below, -, rfl, -⟩ := layout_subtree? [] h.distinct List.not_mem_nil hs
      have hd : (Forest.node n r.kind name below .empty).Distinct := h.distinct.subtree hs
      have := Walk.done.through hd (h.shows_subtree hs)
      rwa [List.append_nil, List.append_nil] at this
  constructor
  · exact fun hw => hw.unique walked
  · rintro rfl
    exact walked

/-! ## Copying -/

theorem Copying.unique (h : Copying t ns parent r u) (h' : Copying t ns parent r' v) :
    r = r' ∧ u = v := by
  induction h generalizing r' v with
  | done =>
    cases h'
    exact ⟨rfl, rfl⟩
  | stopped hn =>
    cases h' with
    | stopped hn' =>
      cases hn.symm.trans hn'
      exact ⟨rfl, rfl⟩
    | broken hn' | copied hn' => cases hn.symm.trans hn'
  | broken hn _ ihb =>
    cases h' with
    | stopped hn' => cases hn.symm.trans hn'
    | broken hn' hb' =>
      cases hn.symm.trans hn'
      exact ihb hb'
    | copied hn' hb' =>
      cases hn.symm.trans hn'
      cases (ihb hb').1
  | copied hn _ _ ihb ihs =>
    cases h' with
    | stopped hn' => cases hn.symm.trans hn'
    | broken hn' hb' =>
      cases hn.symm.trans hn'
      cases (ihb hb').1
    | copied hn' hb' hs' =>
      cases hn.symm.trans hn'
      obtain ⟨hbelow, rfl⟩ := ihb hb'
      obtain ⟨rfl, rfl⟩ := ihs hs'
      cases hbelow
      exact ⟨rfl, rfl⟩

theorem WellFormed.lt_next_of_shows (h : t.WellFormed) (hs : t.Shows g) : ∀ m ∈ g.ids, m < t.next := by
  intro m hm
  obtain ⟨up, hup⟩ := hs m hm
  refine h.fresh m (by_contra fun hout => ?_)
  have hnone : t.get? m = none := (find?_eq_none none).2 hout
  exact (find?_eq_none up).1 (hup.symm.trans hnone) hm

/-- Where the first node can be added all can: a new node has the kind of the one it copies, and
    can contain what that one contains. -/
theorem WellFormed.copying_roots (h : t.WellFormed) (hd : g.Distinct) (hs : t.Shows g)
    (hp : p ∈ t.places) (hn : g.Nested (some p.kind)) (hout : p.id ∉ g.ids) :
    Copying t g.roots p.id (.ok (g.ids.zip (g.renumber t.next).ids))
      ⟨Forest.attach p.id (g.renumber t.next) t.whole, t.next + g.size⟩ := by
  induction g generalizing t p with
  | empty =>
    rw [renumber, attach_empty]
    exact .done
  | node id kind name below beside ihb ihs =>
    obtain ⟨-, hdb, hds, -⟩ := distinct_node.1 hd
    obtain ⟨⟨up, hid⟩, hsb, hss⟩ := hs.of_node hd
    obtain ⟨hcan, hnb, hns⟩ := hn
    simp only [Forest.ids, List.mem_cons, List.mem_append, not_or] at hout
    have hold := h.lt_next_of_shows hs
    have fresh : t.next ∉ t.whole.ids := fun hin => Nat.lt_irrefl _ (h.fresh _ hin)
    -- The node itself,
    let u : Tree := ⟨Forest.attach p.id (.node t.next kind name .empty .empty) t.whole, t.next + 1⟩
    have hadd : t.add p.id kind name = .ok (t.next, u) :=
      add_eq_ok.2 ⟨p.kind, h.kind?_of_mem hp, hcan _ rfl, rfl, rfl⟩
    have hu : u.WellFormed := (h.grows_add hadd).elim fun _ hg => hg.2.wellFormed
    have hcopy : (⟨t.next, kind, p.line⟩ : Place) ∈ u.places :=
      (h.mem_places_attach hp).2 (.inr List.mem_cons_self)
    have hub : u.Shows below := hsb.congr fun m hm =>
      get?_add hadd (hold m (by simp [Forest.ids, hm])) fun e => hout.2.1 (e ▸ hm)
    -- what is below it,
    have hbelow := ihb hu hdb hub hcopy hnb fun hin =>
      Nat.lt_irrefl _ (hold t.next (by simp [Forest.ids, hin]))
    have hfirst : Forest.attach t.next (below.renumber (t.next + 1)) u.whole =
        Forest.attach p.id ((Forest.node id kind name below .empty).renumber t.next) t.whole := by
      rw [attach_attach fresh, Forest.attach, if_pos rfl, empty_append]
      rfl
    rw [hfirst] at hbelow
    set v : Tree := ⟨Forest.attach p.id ((Forest.node id kind name below .empty).renumber t.next) t.whole,
      t.next + 1 + below.size⟩
    have hids := ids_renumber (Forest.node id kind name below .empty) t.next
    have hv : v.WellFormed := by
      have := h.attach hp hids ((nested_renumber t.next).2 ⟨hcan, hnb, trivial⟩)
      rwa [Forest.size, Forest.size, Nat.add_zero, ← Nat.add_assoc] at this
    have hvs : v.Shows beside := hss.congr fun m hm => by
      have hne : m ≠ p.id := fun e => hout.2.2 (e ▸ hm)
      refine find?_attach hne (fun hin => ?_) none
      rw [hids, List.mem_range'_1] at hin
      exact Nat.not_lt.2 hin.1 (hold m (by simp [Forest.ids, hm]))
    -- and what is beside it.
    have hbeside := ihs hv hds hvs ((h.mem_places_attach hp).2 (.inl hp)) hns hout.2.2
    have hsecond : Forest.attach p.id (beside.renumber (t.next + 1 + below.size)) v.whole =
        Forest.attach p.id ((Forest.node id kind name below beside).renumber t.next) t.whole := by
      rw [attach_attach_self]
      rfl
    rw [hsecond] at hbeside
    have hlen : below.ids.length = (below.renumber (t.next + 1)).ids.length := by
      rw [← size_eq_length_ids, ← size_eq_length_ids, size_renumber]
    rw [roots, renumber, Forest.ids, Forest.ids, List.zip_cons_cons, List.zip_append hlen,
      Forest.size,
      ← Nat.add_assoc, ← Nat.add_assoc]
    have hfound : t.copyNode id p.id = .ok (⟨id, kind, name, up, below.roots⟩, t.next, u) := by
      simp only [copyNode, hid, hadd, Except.map]
    exact .copied hfound hbelow hbeside

/-! ## The copy made at once -/

theorem WellFormed.not_mem_of_isWithin (h : t.WellFormed) (hs : t.whole.subtree? source = some f)
    (hp : p ∈ t.places) (hout : t.isWithin p.id source = false) : p.id ∉ f.ids := by
  intro hin
  have hd : p.id ∈ t.descendants source := by
    rw [descendants_eq_elim, hs]
    exact hin
  obtain ⟨q, hq, hid, hw⟩ := h.mem_descendants.1 hd
  rw [h.eq_of_id_eq hq hp hid] at hw
  exact Bool.false_ne_true (hout.symm.trans ((h.isWithin_iff hp).2 hw))

theorem Cloning.unique (h : t.Cloning source parent r u) (h' : t.Cloning source parent r' v) :
    r = r' ∧ u = v := by
  cases h with
  | inside hin =>
    cases h' with
    | inside => exact ⟨rfl, rfl⟩
    | outside hout => cases hin.symm.trans hout
  | outside hout hc =>
    cases h' with
    | inside hin => cases hin.symm.trans hout
    | outside _ hc' => exact hc.unique hc'

theorem WellFormed.exists_cloning (h : t.WellFormed) (source parent : NodeId) :
    ∃ r u, t.Cloning source parent r u ∧ t.clone source parent = r.map (·, u) ∧
      ∀ e, r = .error e → u = t := by
  cases hin : t.isWithin parent source with
  | true =>
    refine ⟨_, _, .inside hin, ?_, fun _ _ => rfl⟩
    rw [clone, if_pos hin]
    rfl
  | false =>
    -- Whatever stops the copy stops it at its first node, with the tree as it was.
    have stopped {e : TreeError} (hn : t.copyNode source parent = .error e)
        (he : t.clone source parent = .error e) : ∃ r u, t.Cloning source parent r u ∧
          t.clone source parent = r.map (·, u) ∧ ∀ e, r = .error e → u = t :=
      ⟨_, _, .outside hin (.stopped hn), he, fun _ _ => rfl⟩
    cases hs : t.whole.subtree? source with
    | none =>
      refine stopped (e := .missingNode source) ?_ ?_
      · rw [copyNode, get?_eq_none.2 hs]
      · simp only [clone, hin, hs, Bool.false_eq_true, if_false]
    | some sub =>
      obtain ⟨q, hq, name, below, rfl, rfl, -⟩ := layout_subtree? [] h.distinct List.not_mem_nil hs
      have hd : (Forest.node q.id q.kind name below .empty).Distinct := h.distinct.subtree hs
      have hshows := h.shows_subtree hs
      obtain ⟨⟨up, hnode⟩, -⟩ := hshows.of_node hd
      have hkind := h.kind?_of_mem hq
      cases hk : t.kind? parent with
      | none =>
        refine stopped (e := .missingParent parent) ?_ ?_
        · simp only [copyNode, hnode, add, hk, Except.map]
        · simp only [clone, hin, hs, hkind, hk, Bool.false_eq_true, if_false]
      | some k =>
        cases hcan : k.canContain q.kind with
        | false =>
          refine stopped (e := .misplaced k q.kind) ?_ ?_
          · simp only [copyNode, hnode, add, hk, hcan, Bool.false_eq_true, if_false, Except.map]
          · simp only [clone, hin, hs, hkind, hk, hcan, Bool.false_eq_true, if_false]
        | true =>
          obtain ⟨p, hp, rfl, rfl⟩ := h.kind?_eq_some.1 hk
          have hnested : (Forest.node q.id q.kind name below .empty).Nested (some p.kind) := by
            refine ⟨fun k hk => ?_, h.nested.subtree hs, trivial⟩
            cases hk
            exact hcan
          have hcopy := h.copying_roots hd hshows hp hnested (h.not_mem_of_isWithin hs hp hin)
          refine ⟨_, _, .outside hin hcopy, ?_, fun e he => by cases he⟩
          exact clone_eq_ok.2 ⟨hin, _, _, _, hs, hkind, hk, hcan, rfl, rfl⟩

/-- The copy made node by node is the one made at once, and where it fails nothing has changed. -/
theorem WellFormed.cloning_iff (h : t.WellFormed) : t.Cloning source parent r u ↔
    t.clone source parent = r.map (·, u) ∧ ∀ e, r = .error e → u = t := by
  obtain ⟨r₀, u₀, hc, he, hfail⟩ := h.exists_cloning source parent
  constructor
  · intro hc'
    obtain ⟨rfl, rfl⟩ := hc.unique hc'
    exact ⟨he, hfail⟩
  · rintro ⟨he', hfail'⟩
    have same := he.symm.trans he'
    cases r₀ with
    | ok pairs =>
      cases r with
      | ok pairs' =>
        cases same
        exact hc
      | error e => cases same
    | error e =>
      cases r with
      | ok pairs => cases same
      | error e' =>
        cases same
        rw [show u = u₀ from (hfail' e rfl).trans (hfail e rfl).symm]
        exact hc

end Trellis.Tree
