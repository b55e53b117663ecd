/-
  Trellis.Proofs.Tree.Layout — where the nodes of a forest stand.

  The layout of a forest lists its nodes in pre-order, each with the nodes above it. It is the
  flat picture of a nested structure: looking up a node finds its place, the subtree of a node
  is a filter, and so is what remains when it is taken out. The lemmas here say so of every
  operation, for forests in which no identifier occurs twice.
-/
import Mathlib.Data.List.Nodup
import Trellis.Forest

namespace Trellis

/-- A node and the nodes above it, from its parent outwards. -/
structure Place where
  id : NodeId
  kind : Kind
  above : List (NodeId × Kind)

namespace Place

variable (p : Place)

/-- The node itself and the nodes above it. -/
def line : List (NodeId × Kind) := (p.id, p.kind) :: p.above

/-- The node is `n` or lies below it. -/
def Within (n : NodeId) : Prop := n ∈ p.line.map Prod.fst

instance (n : NodeId) : Decidable (p.Within n) := inferInstanceAs (Decidable (_ ∈ _))

theorem within_self : p.Within p.id := List.mem_cons_self

end Place

namespace Forest

/-- The nodes of a forest that stands below `above`, in pre-order, with what is above them. -/
def layout (above : List (NodeId × Kind)) : Forest → List Place
  | empty => []
  | node id kind _ below beside =>
    ⟨id, kind, above⟩ :: (below.layout ((id, kind) :: above) ++ beside.layout above)

variable {f g : Forest} {above : List (NodeId × Kind)} {n : NodeId} {p q : Place}

theorem map_id_layout (f : Forest) (above : List (NodeId × Kind)) :
    (f.layout above).map Place.id = f.ids := by
  induction f generalizing above with
  | empty => rfl
  | node id kind name below beside ihb ihs => simp [layout, ids, ihb, ihs]

theorem mem_ids (above : List (NodeId × Kind)) : n ∈ f.ids ↔ ∃ p ∈ f.layout above, p.id = n := by
  rw [← map_id_layout f above, List.mem_map]

/-- No identifier occurs twice. -/
def Distinct (f : Forest) : Prop := f.ids.Nodup

theorem distinct_node {id : NodeId} {kind : Kind} {name : String} {below beside : Forest} :
    (node id kind name below beside).Distinct ↔
      (id ∉ below.ids ∧ id ∉ beside.ids) ∧ below.Distinct ∧ beside.Distinct ∧
        ∀ n ∈ below.ids, n ∉ beside.ids := by
  simp only [Distinct, ids, List.nodup_cons, List.mem_append, not_or, List.nodup_append]
  constructor
  · intro h
    exact ⟨h.1, h.2.1, h.2.2.1, fun n hb hs => h.2.2.2 n hb n hs rfl⟩
  · intro h
    refine ⟨h.1, h.2.1, h.2.2.1, fun a ha b hb e => h.2.2.2 a ha (e ▸ hb)⟩

theorem Distinct.eq_of_id_eq (h : f.Distinct) (hp : p ∈ f.layout above) (hq : q ∈ f.layout above)
    (e : p.id = q.id) : p = q := by
  have hn : ((f.layout above).map Place.id).Nodup := by
    rw [map_id_layout]
    exact h
  exact List.inj_on_of_nodup_map hn hp hq e

/-! ## Lines -/

/-- What is above a node is above the forest, after nodes of the forest. -/
theorem above_eq (hp : p ∈ f.layout above) :
    ∃ mid, p.above = mid ++ above ∧ ∀ x ∈ mid, x.1 ∈ f.ids := by
  induction f generalizing above with
  | empty => cases hp
  | node id kind name below beside ihb ihs =>
    rw [layout, List.mem_cons, List.mem_append] at hp
    rcases hp with rfl | hp | hp
    · exact ⟨[], rfl, by simp⟩
    · obtain ⟨mid, hmid, hin⟩ := ihb hp
      refine ⟨mid ++ [(id, kind)], by simp [hmid], ?_⟩
      intro x hx
      rcases List.mem_append.1 hx with hx | hx
      · simp [ids, hin x hx]
      · simp [ids, List.mem_singleton.1 hx]
    · obtain ⟨mid, hmid, hin⟩ := ihs hp
      exact ⟨mid, hmid, fun x hx => by simp [ids, hin x hx]⟩

theorem within_of_mem_above (hp : p ∈ f.layout above) (hn : n ∈ above.map Prod.fst) : p.Within n := by
  obtain ⟨mid, hmid, -⟩ := above_eq hp
  simp [Place.Within, Place.line, hmid] at hn ⊢
  exact .inr (.inr hn)

theorem mem_ids_of_within (hp : p ∈ f.layout above) (hn : n ∉ above.map Prod.fst)
    (hw : p.Within n) : n ∈ f.ids := by
  obtain ⟨mid, hmid, hin⟩ := above_eq hp
  rw [Place.Within, Place.line, List.map_cons, List.mem_cons, hmid, List.map_append,
    List.mem_append] at hw
  rcases hw with rfl | hw | hw
  · exact (mem_ids above).2 ⟨p, hp, rfl⟩
  · obtain ⟨x, hx, rfl⟩ := List.mem_map.1 hw
    exact hin x hx
  · exact absurd hw hn

/-- Whoever is above a node has a place of its own, with the rest of the line above it. -/
theorem mem_layout_of_line {x : NodeId × Kind} {pre mid : List (NodeId × Kind)}
    (hp : p ∈ f.layout above) (hline : p.line = pre ++ x :: (mid ++ above)) :
    ⟨x.1, x.2, mid ++ above⟩ ∈ f.layout above := by
  induction f generalizing above mid with
  | empty => cases hp
  | node id kind name below beside ihb ihs =>
    rw [layout, List.mem_cons, List.mem_append] at hp ⊢
    rcases hp with rfl | hp | hp
    · have hlen := congrArg List.length hline
      simp only [Place.line, List.length_append, List.length_cons] at hlen
      have hpre : pre = [] := List.eq_nil_of_length_eq_zero (by omega)
      have hmid : mid = [] := List.eq_nil_of_length_eq_zero (by omega)
      subst hpre hmid
      simp only [Place.line, List.nil_append, List.cons.injEq] at hline
      exact .inl (by rw [← hline.1]; rfl)
    · obtain ⟨m, hm, -⟩ := above_eq hp
      rcases List.eq_nil_or_concat mid with rfl | ⟨mid, y, rfl⟩
      · have hcut : (p.id, p.kind) :: m ++ [(id, kind)] ++ above = pre ++ [x] ++ above := by
          simpa [Place.line, hm] using hline
        have hlast := List.append_cancel_right hcut
        have hx : (id, kind) = x := (List.append_inj' hlast rfl).2 |> List.cons.inj |>.1
        exact .inl (by rw [← hx]; rfl)
      · have hcut : (p.id, p.kind) :: m ++ [(id, kind)] ++ above = pre ++ x :: mid ++ [y] ++ above := by
          simpa [Place.line, hm] using hline
        have hlast := List.append_cancel_right hcut
        have hy : (id, kind) = y := (List.append_inj' hlast rfl).2 |> List.cons.inj |>.1
        subst hy
        have hbelow : ⟨x.1, x.2, mid ++ (id, kind) :: above⟩ ∈ below.layout ((id, kind) :: above) :=
          ihb hp (by simpa using hline)
        exact .inr (.inl (by simpa using hbelow))
    · exact .inr (.inr (ihs hp hline))

/-- The places within `n`. -/
def inside (n : NodeId) (ps : List Place) : List Place := ps.filter (·.Within n)

/-- The places not within `n`. -/
def outside (n : NodeId) (ps : List Place) : List Place := ps.filter fun p => !decide (p.Within n)

theorem inside_eq_nil (hids : n ∉ f.ids) (hn : n ∉ above.map Prod.fst) :
    inside n (f.layout above) = [] := by
  refine List.filter_eq_nil_iff.2 fun p hp hw => ?_
  exact hids (mem_ids_of_within hp hn (of_decide_eq_true hw))

theorem inside_eq_self (hn : n ∈ above.map Prod.fst) :
    inside n (f.layout above) = f.layout above :=
  List.filter_eq_self.2 fun _ hp => decide_eq_true (within_of_mem_above hp hn)

theorem outside_eq_self (hids : n ∉ f.ids) (hn : n ∉ above.map Prod.fst) :
    outside n (f.layout above) = f.layout above := by
  refine List.filter_eq_self.2 fun p hp => ?_
  have : ¬ p.Within n := fun hw => hids (mem_ids_of_within hp hn hw)
  simp [this]

theorem outside_eq_nil (hn : n ∈ above.map Prod.fst) : outside n (f.layout above) = [] :=
  List.filter_eq_nil_iff.2 fun _ hp => by simp [within_of_mem_above hp hn]

/-! ## Looking up -/

theorem find?_kind (f : Forest) (up : Option NodeId) (above : List (NodeId × Kind)) (n : NodeId) :
    (f.find? n up).map Node.kind = ((f.layout above).find? (·.id = n)).map Place.kind := by
  induction f generalizing up above with
  | empty => rfl
  | node id kind name below beside ihb ihs =>
    simp only [find?, layout, List.find?_cons, List.find?_append]
    by_cases h : id = n
    · simp [h]
    · simp only [h, if_false, decide_false, Option.map_or, ihb _ ((id, kind) :: above), ihs _ above]

theorem lineage?_eq (f : Forest) (above : List (NodeId × Kind)) (n : NodeId) :
    (f.lineage? n).map (· ++ above) = ((f.layout above).find? (·.id = n)).map Place.line := by
  induction f generalizing above with
  | empty => rfl
  | node id kind name below beside ihb ihs =>
    simp only [lineage?, layout, List.find?_cons, List.find?_append]
    by_cases h : id = n
    · simp [h, Place.line]
    · simp only [h, if_false, decide_false, Option.map_or, ← ihb, ← ihs, Option.map_map]
      congr 2
      funext l
      simp

theorem Distinct.find?_layout (h : f.Distinct) :
    (f.layout above).find? (·.id = n) = some p ↔ p ∈ f.layout above ∧ p.id = n := by
  constructor
  · intro hf
    exact ⟨List.mem_of_find?_eq_some hf, by simpa using List.find?_some hf⟩
  · intro hp
    obtain ⟨hp, rfl⟩ := hp
    cases hf : (f.layout above).find? (·.id = p.id) with
    | none => simpa using List.find?_eq_none.1 hf p hp
    | some q =>
      have hq : q.id = p.id := by simpa using List.find?_some hf
      rw [h.eq_of_id_eq (List.mem_of_find?_eq_some hf) hp hq]

/-! ## Subtrees -/

theorem layout_append (f g : Forest) (above : List (NodeId × Kind)) :
    (f ++ g).layout above = f.layout above ++ g.layout above := by
  show (f.append g).layout above = _
  induction f with
  | empty => rfl
  | node id kind name below beside _ ihs => simp [append, layout, ihs]

theorem subtree?_eq_none : f.subtree? n = none ↔ n ∉ f.ids := by
  induction f with
  | empty => simp [subtree?, ids]
  | node id kind name below beside ihb ihs =>
    by_cases h : id = n
    · simp [subtree?, ids, h]
    · simp [subtree?, ids, h, Ne.symm h, ihb, ihs]

/-- The subtree of a node consists of the places within it. -/
theorem layout_subtree? (above : List (NodeId × Kind)) (h : f.Distinct) (hn : n ∉ above.map Prod.fst) {sub : Forest}
    (hs : f.subtree? n = some sub) :
    ∃ p ∈ f.layout above, ∃ name below, p.id = n ∧ sub = node n p.kind name below empty ∧
      sub.layout p.above = inside n (f.layout above) := by
  induction f generalizing above with
  | empty => cases hs
  | node id kind name below beside ihb ihs =>
    obtain ⟨⟨hib, his⟩, hb, hbs, hdisj⟩ := distinct_node.1 h
    rw [subtree?] at hs
    split at hs
    · rename_i e
      cases hs
      subst e
      refine ⟨⟨id, kind, above⟩, List.mem_cons_self, name, below, rfl, rfl, ?_⟩
      have hfirst : (⟨id, kind, above⟩ : Place).Within id := Place.within_self _
      have hbelow : inside id (below.layout ((id, kind) :: above)) = below.layout ((id, kind) :: above) :=
        inside_eq_self (by simp)
      have hbeside := inside_eq_nil his hn
      simp only [inside] at hbelow hbeside ⊢
      simp [layout, hfirst, hbelow, hbeside]
    · rename_i hne
      have hn' : n ∉ ((id, kind) :: above).map Prod.fst := by
        simp only [List.map_cons, List.mem_cons, not_or]
        exact ⟨Ne.symm hne, hn⟩
      have hnot : ¬ (⟨id, kind, above⟩ : Place).Within n := hn'
      have split : inside n ((node id kind name below beside).layout above) =
          inside n (below.layout ((id, kind) :: above)) ++ inside n (beside.layout above) := by
        simp [layout, inside, hnot]
      cases hsub : below.subtree? n with
      | some s =>
        rw [hsub, Option.some_or] at hs
        cases hs
        obtain ⟨p, hp, name', below', hid, he, hl⟩ := ihb _ hb hn' hsub
        have hin : n ∈ below.ids := (mem_ids _).2 ⟨p, hp, hid⟩
        refine ⟨p, by simp [layout, hp], name', below', hid, he, ?_⟩
        rw [split, hl, inside_eq_nil (hdisj n hin) hn, List.append_nil]
      | none =>
        rw [hsub, Option.none_or] at hs
        obtain ⟨p, hp, name', below', hid, he, hl⟩ := ihs _ hbs hn hs
        refine ⟨p, by simp [layout, hp], name', below', hid, he, ?_⟩
        rw [split, hl, inside_eq_nil (subtree?_eq_none.1 hsub) hn', List.nil_append]

/-- What lies below a node are the places within it but its own. -/
theorem mem_layout_under (h : f.Distinct) (hp : p ∈ f.layout above)
    (hn : p.id ∉ above.map Prod.fst) :
    q ∈ (f.under p.id).layout p.line ↔ q ∈ f.layout above ∧ q.Within p.id ∧ q.id ≠ p.id := by
  cases hs : f.subtree? p.id with
  | none => exact absurd ((mem_ids above).2 ⟨p, hp, rfl⟩) (subtree?_eq_none.1 hs)
  | some sub =>
    obtain ⟨r, hr, name, below, hid, rfl, hl⟩ := layout_subtree? above h hn hs
    obtain rfl := h.eq_of_id_eq hr hp hid
    have hmem : q ∈ f.layout above ∧ q.Within r.id ↔ q = r ∨ q ∈ below.layout r.line := by
      have : q ∈ inside r.id (f.layout above) ↔ q ∈ f.layout above ∧ q.Within r.id := by
        simp [inside]
      rw [← this, ← hl]
      simp [layout, Place.line]
    have hunder : f.under r.id = below := by rw [under, hs]
    rw [hunder, ← and_assoc, hmem]
    constructor
    · intro hq
      refine ⟨.inr hq, fun e => ?_⟩
      have hdist : (node r.id r.kind name below empty).Distinct := by
        have := (h.sublist ?_ : ((inside r.id (f.layout above)).map Place.id).Nodup)
        · rwa [← hl, map_id_layout] at this
        · rw [← map_id_layout f above]
          exact List.filter_sublist.map _
      exact (distinct_node.1 hdist).1.1 (e ▸ (mem_ids _).2 ⟨q, hq, rfl⟩)
    · intro hq
      exact hq.1.resolve_left fun e => hq.2 (by rw [e])

/-! ## Editing -/

theorem layout_rename (f : Forest) (n : NodeId) (new : String) (above : List (NodeId × Kind)) :
    (f.rename n new).layout above = f.layout above := by
  induction f generalizing above with
  | empty => rfl
  | node id kind name below beside ihb ihs =>
    rw [rename]
    split
    · rfl
    · simp [layout, ihb, ihs]

/-- Taking a node out leaves the places not within it. -/
theorem layout_detach (h : f.Distinct) (hn : n ∉ above.map Prod.fst) :
    (f.detach n).layout above = outside n (f.layout above) := by
  induction f generalizing above with
  | empty => rfl
  | node id kind name below beside ihb ihs =>
    obtain ⟨⟨hib, his⟩, hb, hbs, hdisj⟩ := distinct_node.1 h
    rw [detach]
    split
    · rename_i e
      subst e
      have hfirst : (⟨id, kind, above⟩ : Place).Within id := Place.within_self _
      have hbelow : outside id (below.layout ((id, kind) :: above)) = [] := outside_eq_nil (by simp)
      have hbeside := outside_eq_self his hn
      simp only [outside] at hbelow hbeside ⊢
      simp [layout, hfirst, hbelow, hbeside]
    · rename_i hne
      have hn' : n ∉ ((id, kind) :: above).map Prod.fst := by
        simp only [List.map_cons, List.mem_cons, not_or]
        exact ⟨Ne.symm hne, hn⟩
      have hnot : ¬ (⟨id, kind, above⟩ : Place).Within n := hn'
      rw [layout, ihb hb hn', ihs hbs hn]
      simp [layout, outside, hnot]

theorem ids_append (f g : Forest) : (f ++ g).ids = f.ids ++ g.ids := by
  rw [← map_id_layout _ [], layout_append, List.map_append, map_id_layout, map_id_layout]

theorem attach_of_not_mem (child : Forest) (hn : n ∉ f.ids) : attach n child f = f := by
  induction f with
  | empty => rfl
  | node id kind name below beside ihb ihs =>
    simp only [ids, List.mem_cons, List.mem_append, not_or] at hn
    rw [attach, if_neg (Ne.symm hn.1), ihb hn.2.1, ihs hn.2.2]

theorem perm_ids_attach (h : f.Distinct) (hn : n ∈ f.ids) (child : Forest) :
    (attach n child f).ids.Perm (child.ids ++ f.ids) := by
  induction f with
  | empty => cases hn
  | node id kind name below beside ihb ihs =>
    obtain ⟨⟨hib, his⟩, hb, hbs, hdisj⟩ := distinct_node.1 h
    rw [attach]
    split
    · simp only [ids, ids_append]
      refine .trans (.cons id ?_) List.perm_middle.symm
      rw [← List.append_assoc]
      exact List.perm_append_comm.append_right _
    · rename_i hne
      simp only [ids, List.mem_cons, List.mem_append] at hn ⊢
      refine .trans (.cons id ?_) List.perm_middle.symm
      rcases hn with hn | hn | hn
      · exact absurd hn.symm hne
      · rw [attach_of_not_mem child (hdisj n hn), ← List.append_assoc]
        exact (ihb hb hn).append_right _
      · rw [attach_of_not_mem child fun hb => hdisj n hb hn]
        refine .trans ((ihs hbs hn).append_left _) ?_
        rw [← List.append_assoc, ← List.append_assoc]
        exact List.perm_append_comm.append_right _

/-- A forest attached to a node stands below the line of that node. -/
theorem mem_layout_attach (h : f.Distinct) {child : Forest} :
    q ∈ (attach n child f).layout above ↔
      q ∈ f.layout above ∨ ∃ p ∈ f.layout above, p.id = n ∧ q ∈ child.layout p.line := by
  induction f generalizing above with
  | empty => simp [attach, layout]
  | node id kind name below beside ihb ihs =>
    obtain ⟨⟨hib, his⟩, hb, hbs, hdisj⟩ := distinct_node.1 h
    rw [attach]
    split
    · rename_i e
      subst e
      have hb : ∀ p ∈ below.layout ((id, kind) :: above), p.id ≠ id := by
        intro p hp e
        exact hib (e ▸ (mem_ids _).2 ⟨p, hp, rfl⟩)
      have hs : ∀ p ∈ beside.layout above, p.id ≠ id := by
        intro p hp e
        exact his (e ▸ (mem_ids _).2 ⟨p, hp, rfl⟩)
      simp only [layout, layout_append, List.mem_cons, List.mem_append]
      constructor
      · intro hq
        rcases hq with rfl | (hq | hq) | hq
        · exact .inl (.inl rfl)
        · exact .inl (.inr (.inl hq))
        · exact .inr ⟨_, .inl rfl, rfl, hq⟩
        · exact .inl (.inr (.inr hq))
      · intro hq
        rcases hq with (rfl | hq | hq) | ⟨p, rfl | hp | hp, hid, hq⟩
        · exact .inl rfl
        · exact .inr (.inl (.inl hq))
        · exact .inr (.inr hq)
        · exact .inr (.inl (.inr hq))
        · exact absurd hid (hb p hp)
        · exact absurd hid (hs p hp)
    · rename_i hne
      simp only [layout, List.mem_cons, List.mem_append, ihb hb, ihs hbs]
      constructor
      · intro hq
        rcases hq with rfl | (hq | ⟨p, hp, hid, hq⟩) | (hq | ⟨p, hp, hid, hq⟩)
        · exact .inl (.inl rfl)
        · exact .inl (.inr (.inl hq))
        · exact .inr ⟨p, .inr (.inl hp), hid, hq⟩
        · exact .inl (.inr (.inr hq))
        · exact .inr ⟨p, .inr (.inr hp), hid, hq⟩
      · intro hq
        rcases hq with (rfl | hq | hq) | ⟨p, rfl | hp | hp, hid, hq⟩
        · exact .inl rfl
        · exact .inr (.inl (.inl hq))
        · exact .inr (.inr (.inl hq))
        · exact absurd hid hne
        · exact .inr (.inl (.inr ⟨p, hp, hid, hq⟩))
        · exact .inr (.inr (.inr ⟨p, hp, hid, hq⟩))

/-! ## The outermost nodes of a kind -/

theorem mem_outermost {k : Kind} (above : List (NodeId × Kind)) : n ∈ f.outermost k ↔
    ∃ p ∈ f.layout above, p.id = n ∧ p.kind = k ∧
      ∃ mid, p.above = mid ++ above ∧ ∀ x ∈ mid, x.2 ≠ k := by
  induction f generalizing above with
  | empty => simp [outermost, layout]
  | node id kind name below beside ihb ihs =>
    rw [outermost]
    split
    · rename_i hk
      subst hk
      rw [List.mem_cons, ihs above]
      constructor
      · intro h
        rcases h with rfl | ⟨p, hp, h⟩
        · exact ⟨⟨n, kind, above⟩, List.mem_cons_self, rfl, rfl, [], rfl, by simp⟩
        · exact ⟨p, by simp [layout, hp], h⟩
      · intro h
        obtain ⟨p, hp, hid, hkind, mid, hmid, hno⟩ := h
        rw [layout, List.mem_cons, List.mem_append] at hp
        rcases hp with rfl | hp | hp
        · exact .inl hid.symm
        · -- Below a node of the kind there is no outermost one.
          obtain ⟨mid', hmid', -⟩ := above_eq hp
          have hcons : mid' ++ (id, kind) :: above = mid ++ above := hmid'.symm.trans hmid
          have hmem : (id, kind) ∈ mid := by
            have : (mid' ++ [(id, kind)]) ++ above = mid ++ above := by simp [hcons]
            rw [← List.append_cancel_right this]
            simp
          exact absurd rfl (hno _ hmem)
        · exact .inr ⟨p, hp, hid, hkind, mid, hmid, hno⟩
    · rename_i hk
      rw [List.mem_append, ihb ((id, kind) :: above), ihs above]
      constructor
      · intro h
        rcases h with ⟨p, hp, hid, hkind, mid, hmid, hno⟩ | ⟨p, hp, h⟩
        · refine ⟨p, by simp [layout, hp], hid, hkind, mid ++ [(id, kind)], by simp [hmid], ?_⟩
          intro x hx
          rcases List.mem_append.1 hx with hx | hx
          · exact hno x hx
          · rw [List.mem_singleton.1 hx]
            exact hk
        · exact ⟨p, by simp [layout, hp], h⟩
      · intro h
        obtain ⟨p, hp, hid, hkind, mid, hmid, hno⟩ := h
        rw [layout, List.mem_cons, List.mem_append] at hp
        rcases hp with rfl | hp | hp
        · exact absurd hkind hk
        · obtain ⟨mid', hmid', -⟩ := above_eq hp
          have hcons : (mid' ++ [(id, kind)]) ++ above = mid ++ above := by
            simpa using hmid'.symm.trans hmid
          refine .inl ⟨p, hp, hid, hkind, mid', hmid', fun x hx => hno x ?_⟩
          rw [← List.append_cancel_right hcons]
          exact List.mem_append_left _ hx
        · exact .inr ⟨p, hp, hid, hkind, mid, hmid, hno⟩

end Forest

end Trellis
