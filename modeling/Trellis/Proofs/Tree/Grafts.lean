/-
  Trellis.Proofs.Tree.Grafts — a forest attached below a node, seen from its own nodes.

  Attaching below `n` leaves the forest that was there alone (`Records.lean`). Here is the rest:
  the nodes that are attached are found as they were found before (`find?_attach_of_mem`), `n`
  gets their outermost after the children it has (`find?_attach_self`), and what is done to them
  afterwards could as well have been done before (`attach_attach`, `detach_attach`).
-/
import Trellis.Proofs.Tree.Records

namespace Trellis.Forest

variable {f g child : Forest} {m n c : NodeId}

@[simp] theorem empty_append (f : Forest) : empty ++ f = f := rfl

@[simp] theorem node_append (id : NodeId) (kind : Kind) (name : String) (below beside f : Forest) :
    node id kind name below beside ++ f = node id kind name below (beside ++ f) := rfl

@[simp] theorem append_empty (f : Forest) : f ++ empty = f := by
  induction f with
  | empty => rfl
  | node id kind name below beside _ ihs => rw [node_append, ihs]

theorem append_assoc (f g child : Forest) : f ++ g ++ child = f ++ (g ++ child) := by
  induction f with
  | empty => rfl
  | node id kind name below beside _ ihs => simp only [node_append, ihs]

theorem roots_append (f g : Forest) : (f ++ g).roots = f.roots ++ g.roots := by
  induction f with
  | empty => rfl
  | node id kind name below beside _ ihs => rw [node_append, roots, ihs, roots, List.cons_append]

theorem detach_append (hn : n ∉ f.ids) (g : Forest) : (f ++ g).detach n = f ++ g.detach n := by
  induction f with
  | empty => rfl
  | node id kind name below beside _ ihs =>
    simp only [ids, List.mem_cons, List.mem_append, not_or] at hn
    rw [node_append, detach, if_neg (Ne.symm hn.1), detach_of_not_mem hn.2.1, ihs hn.2.2, node_append]

theorem attach_append (hn : n ∉ f.ids) (child g : Forest) :
    attach n child (f ++ g) = f ++ attach n child g := by
  induction f with
  | empty => rfl
  | node id kind name below beside _ ihs =>
    simp only [ids, List.mem_cons, List.mem_append, not_or] at hn
    rw [node_append, attach, if_neg (Ne.symm hn.1), attach_of_not_mem child hn.2.1, ihs hn.2.2,
      node_append]

/-! ## Looking up -/

/-- A node that is new stands in the whole as in what was attached. -/
theorem subtree?_attach_of_mem (hn : n ∈ f.ids) (hm : m ∉ f.ids) :
    (attach n child f).subtree? m = child.subtree? m := by
  induction f with
  | empty => cases hn
  | node id kind name below beside ihb ihs =>
    simp only [ids, List.mem_cons, List.mem_append, not_or] at hn hm
    have hb := subtree?_eq_none.2 hm.2.1
    have hs := subtree?_eq_none.2 hm.2.2
    rw [attach]
    split
    · rw [subtree?, if_neg (Ne.symm hm.1), subtree?_append, hb, hs, Option.none_or, Option.or_none]
    · rename_i hne
      rw [subtree?, if_neg (Ne.symm hm.1)]
      by_cases hnb : n ∈ below.ids
      · by_cases hns : n ∈ beside.ids
        · rw [ihb hnb hm.2.1, ihs hns hm.2.2, Option.or_self]
        · rw [ihb hnb hm.2.1, attach_of_not_mem child hns, hs, Option.or_none]
      · have hns : n ∈ beside.ids := (hn.resolve_left (Ne.symm hne)).resolve_left hnb
        rw [attach_of_not_mem child hnb, hb, Option.none_or, ihs hns hm.2.2]

/-- Its record is the one it has there, as a node below `n`. -/
theorem find?_attach_of_mem (hn : n ∈ f.ids) (hm : m ∉ f.ids) (up : Option NodeId) :
    (attach n child f).find? m up = child.find? m (some n) := by
  induction f generalizing up with
  | empty => cases hn
  | node id kind name below beside ihb ihs =>
    simp only [ids, List.mem_cons, List.mem_append, not_or] at hn hm
    have hb (up : Option NodeId) := (find?_eq_none up).2 hm.2.1
    have hs (up : Option NodeId) := (find?_eq_none up).2 hm.2.2
    rw [attach]
    split
    · rename_i e
      rw [find?, if_neg (Ne.symm hm.1), find?_append, hb, hs, Option.none_or, Option.or_none, e]
    · rename_i hne
      rw [find?, if_neg (Ne.symm hm.1)]
      by_cases hnb : n ∈ below.ids
      · by_cases hns : n ∈ beside.ids
        · rw [ihb hnb hm.2.1, ihs hns hm.2.2, Option.or_self]
        · rw [ihb hnb hm.2.1, attach_of_not_mem child hns, hs, Option.or_none]
      · have hns : n ∈ beside.ids := (hn.resolve_left (Ne.symm hne)).resolve_left hnb
        rw [attach_of_not_mem child hnb, hb, Option.none_or, ihs hns hm.2.2]

/-- The node itself gets the outermost of what is attached, after the children it has. -/
theorem find?_attach_self (up : Option NodeId) : (attach n child f).find? n up =
    (f.find? n up).map fun node => { node with children := node.children ++ child.roots } := by
  induction f generalizing up with
  | empty => rfl
  | node id kind name below beside ihb ihs =>
    rw [attach, find?]
    split
    · rename_i e
      rw [find?, if_pos e, roots_append, Option.map_some]
    · rename_i hne
      rw [find?, if_neg hne, ihb, ihs, Option.map_or]

/-! ## Editing what is attached -/

theorem attach_empty (n : NodeId) (f : Forest) : attach n empty f = f := by
  induction f with
  | empty => rfl
  | node id kind name below beside ihb ihs => rw [attach, append_empty, ihb, ihs, ite_self]

/-- What is attached next goes beside what is there. -/
theorem attach_attach_self (n : NodeId) (child g f : Forest) :
    attach n child (attach n g f) = attach n (g ++ child) f := by
  induction f with
  | empty => rfl
  | node id kind name below beside ihb ihs =>
    rw [attach]
    split
    · rename_i e
      rw [attach, if_pos e, append_assoc, attach, if_pos e]
    · rename_i hne
      rw [attach, if_neg hne, ihb, ihs, attach, if_neg hne]

theorem attach_attach (hc : c ∉ f.ids) (child g : Forest) (n : NodeId) :
    attach c child (attach n g f) = attach n (attach c child g) f := by
  induction f with
  | empty => rfl
  | node id kind name below beside ihb ihs =>
    simp only [ids, List.mem_cons, List.mem_append, not_or] at hc
    rw [attach]
    split
    · rename_i e
      rw [attach, if_neg (Ne.symm hc.1), attach_append hc.2.1, attach_of_not_mem child hc.2.2, attach,
        if_pos e]
    · rename_i hne
      rw [attach, if_neg (Ne.symm hc.1), ihb hc.2.1, ihs hc.2.2, attach, if_neg hne]

theorem detach_attach (hc : c ∉ f.ids) (g : Forest) (n : NodeId) :
    (attach n g f).detach c = attach n (g.detach c) f := by
  induction f with
  | empty => rfl
  | node id kind name below beside ihb ihs =>
    simp only [ids, List.mem_cons, List.mem_append, not_or] at hc
    rw [attach]
    split
    · rename_i e
      rw [detach, if_neg (Ne.symm hc.1), detach_append hc.2.1, detach_of_not_mem hc.2.2, attach,
        if_pos e]
    · rename_i hne
      rw [detach, if_neg (Ne.symm hc.1), ihb hc.2.1, ihs hc.2.2, attach, if_neg hne]

/-! ## The records of a subtree -/

/-- In the whole and in the subtree alone the records of its nodes are the same, but for what the
    outermost says of its parent. -/
theorem find?_of_mem_subtree (hd : f.Distinct) {sub : Forest} (hs : f.subtree? n = some sub)
    (above : Option NodeId) : ∃ up, ∀ r ∈ sub.ids, f.find? r above = sub.find? r up := by
  induction f generalizing above with
  | empty => cases hs
  | node id kind name below beside ihb ihs =>
    obtain ⟨⟨hib, his⟩, hb, hbs, hdisj⟩ := distinct_node.1 hd
    rw [subtree?] at hs
    split at hs
    · cases hs
      refine ⟨above, fun r hr => ?_⟩
      have hbeside : r ∉ beside.ids := by
        rw [ids, ids, List.append_nil, List.mem_cons] at hr
        rcases hr with rfl | hr
        · exact his
        · exact hdisj r hr
      rw [find?, find?, (find?_eq_none above).2 hbeside]
      rfl
    · rcases Option.or_eq_some_iff.1 hs with hs | ⟨-, hs⟩
      · obtain ⟨up, hup⟩ := ihb hb hs (some id)
        refine ⟨up, fun r hr => ?_⟩
        have hin : r ∈ below.ids := (sublist_ids_subtree hs).subset hr
        have hne : id ≠ r := fun e => hib (e ▸ hin)
        rw [find?, if_neg hne, (find?_eq_none above).2 (hdisj r hin), Option.or_none, hup r hr]
      · obtain ⟨up, hup⟩ := ihs hbs hs above
        refine ⟨up, fun r hr => ?_⟩
        have hin : r ∈ beside.ids := (sublist_ids_subtree hs).subset hr
        have hne : id ≠ r := fun e => his (e ▸ hin)
        rw [find?, if_neg hne, (find?_eq_none _).2 fun hb => hdisj r hb hin, Option.none_or, hup r hr]

end Trellis.Forest
