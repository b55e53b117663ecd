/-
  Trellis.Proofs.Tree.Coverage — the nodes a step runs on, listed in order and leaving nothing out.

  Subtrees of nodes that are apart do not interleave: taken in pre-order of their nodes, they follow
  one another in the pre-order of the whole (`sublist_flatMap_subtree`). So each adapter of a chain
  turns nodes listed in pre-order and apart into such nodes again (`targets_expand`), and whatever
  chain leads to a granularity, a step of that granularity runs on nodes that are in pre-order, of
  its kind and apart (`targets_expandRoot`). A node the standard adapters miss does not exist: each
  one of an enclosed kind lies below a topmost node of the granularity (`exists_target`), and so
  within one of the targets (`standard_covers`).
-/
import Mathlib.Data.List.Flatten
import Trellis.Proofs.Tree.Coherence
import Trellis.Proofs.Tree.Routes

namespace Trellis

namespace Forest

variable {f : Forest} {nodes : List NodeId}

/-- Subtrees none of whose nodes tops a later one follow one another in pre-order. -/
theorem sublist_flatMap_subtree (hd : f.Distinct) (hs : nodes.Sublist f.ids)
    (hp : nodes.Pairwise fun a b => b ∉ (f.subtree? a).elim [] ids) :
    (nodes.flatMap fun n => (f.subtree? n).elim [] ids).Sublist f.ids := by
  induction f generalizing nodes with
  | empty =>
    rw [List.sublist_nil.1 hs]
    exact .slnil
  | node id kind name below beside ihb ihs =>
    obtain ⟨⟨hib, his⟩, hb, hbs, hdisj⟩ := distinct_node.1 hd
    have inBelow : ∀ n ∈ below.ids,
        (node id kind name below beside).subtree? n = below.subtree? n := by
      intro n hn
      have hne : id ≠ n := fun e => hib (e ▸ hn)
      rw [subtree?, if_neg hne, subtree?_eq_none.2 (hdisj n hn), Option.or_none]
    have inBeside : ∀ n ∈ beside.ids,
        (node id kind name below beside).subtree? n = beside.subtree? n := by
      intro n hn
      have hne : id ≠ n := fun e => his (e ▸ hn)
      rw [subtree?, if_neg hne, subtree?_eq_none.2 fun hb => hdisj n hb hn, Option.none_or]
    have rest {ns : List NodeId} (hs : ns.Sublist beside.ids)
        (hp : ns.Pairwise fun a b => b ∉ ((node id kind name below beside).subtree? a).elim [] ids) :
        (ns.flatMap fun n => ((node id kind name below beside).subtree? n).elim [] ids).Sublist
          beside.ids := by
      rw [List.flatMap_congr fun n hn => by rw [inBeside n (hs.subset hn)]]
      exact ihs hbs hs (hp.imp_of_mem fun ha _ h => inBeside _ (hs.subset ha) ▸ h)
    rcases List.sublist_cons_iff.1 hs with hskip | ⟨later, rfl, htake⟩
    · -- Some of the nodes are below the first node, and the others beside it.
      obtain ⟨ns, ms, rfl, hns, hms⟩ := List.sublist_append_iff.1 hskip
      obtain ⟨hpn, hpm, -⟩ := List.pairwise_append.1 hp
      rw [List.flatMap_append]
      refine .cons id (List.Sublist.append ?_ (rest hms hpm))
      rw [List.flatMap_congr fun n hn => by rw [inBelow n (hns.subset hn)]]
      exact ihb hb hns (hpn.imp_of_mem fun ha _ h => inBelow _ (hns.subset ha) ▸ h)
    · -- The first node is one of them, so that none of the others is below it.
      obtain ⟨hfirst, hlater⟩ := List.pairwise_cons.1 hp
      have htop : (node id kind name below beside).subtree? id = some (node id kind name below empty) := by
        rw [subtree?, if_pos rfl]
      obtain ⟨ns, ms, rfl, hns, hms⟩ := List.sublist_append_iff.1 htake
      obtain rfl : ns = [] := by
        refine List.eq_nil_iff_forall_not_mem.2 fun n hn => ?_
        refine hfirst n (List.mem_append_left _ hn) ?_
        rw [htop, Option.elim_some, ids]
        exact List.mem_cons_of_mem _ (List.mem_append_left _ (hns.subset hn))
      rw [List.flatMap_cons, htop, Option.elim_some]
      simp only [ids, List.append_nil, List.nil_append, List.cons_append]
      exact .cons_cons id ((rest hms hlater).append_left _)

end Forest

namespace Tree

open Forest

variable {t : Tree} {n : NodeId} {k source : Kind} {nodes targets : List NodeId}

theorem sublist_expand (a : Adapter) (t : Tree) (n : NodeId) : (a.expand t n).Sublist (t.descendants n) := by
  refine (sublist_outermost _ _).trans ?_
  rw [under, descendants_eq_elim]
  split
  · rename_i id kind name below beside hs
    rw [hs, Option.elim_some, Forest.ids]
    exact .cons id (List.sublist_append_left _ _)
  · exact List.nil_sublist _

/-- Live nodes of a kind, in pre-order, no two of which share a node. -/
structure Targets (t : Tree) (k : Kind) (nodes : List NodeId) : Prop where
  listed : nodes.Sublist t.ids
  apart : nodes.Pairwise t.Apart
  kinds : ∀ n ∈ nodes, t.kind? n = some k

namespace WellFormed

variable (h : t.WellFormed)

include h

theorem descendants_root : t.descendants root = t.ids := by
  obtain ⟨name, below, hw⟩ := h.rooted
  rw [descendants_eq_elim, Tree.ids, hw, subtree?, if_pos rfl]
  rfl

theorem targets_root : t.Targets .program [root] where
  listed := by
    rw [List.singleton_sublist, ← h.contains_iff_mem_ids]
    exact h.coherent.root_live
  apart := List.pairwise_singleton _ _
  kinds n hn := (h.coherent.program n).2 (List.mem_singleton.1 hn)

theorem targets_expand {a : Adapter} (hn : t.Targets a.source nodes) :
    t.Targets a.target (nodes.flatMap (a.expand t)) := by
  refine ⟨?_, ((expands_adapter a).flatMap h (fun n hm => hn.listed.subset hm) hn.apart).2, ?_⟩
  · refine (List.Sublist.flatMap_right _ fun n _ => sublist_expand a t n).trans ?_
    rw [List.flatMap_congr fun n _ => descendants_eq_elim t n]
    refine sublist_flatMap_subtree h.distinct hn.listed ?_
    refine hn.apart.imp_of_mem fun _ hb hab hin => ?_
    rw [← descendants_eq_elim, h.mem_descendants] at hin
    obtain ⟨p, hp, rfl, hw⟩ := hin
    exact hab p hp hw p.within_self
  · intro n hm
    obtain ⟨m, hm, hin⟩ := List.mem_flatMap.1 hm
    obtain ⟨p, hp, rfl⟩ := mem_ids_iff.1 (hn.listed.subset hm)
    obtain ⟨q, hq, hid, hkind, -⟩ := (h.mem_expand hp).1 hin
    exact h.kind?_eq_some.2 ⟨q, hq, hid, hkind⟩

/-- Following adapters from targets leads to targets. -/
theorem targets_follow {as : AdapterSet} {chain : List Adapter} (hchain : as.Leads source chain k)
    (hn : t.Targets source nodes) :
    t.Targets k (chain.foldl (fun nodes a => nodes.flatMap (a.expand t)) nodes) := by
  induction chain generalizing nodes source with
  | nil => exact hchain ▸ hn
  | cons a chain ih =>
    obtain ⟨-, rfl, hchain⟩ := hchain
    exact ih hchain (h.targets_expand hn)

/-- Where adapters lead to a granularity, a step of it has targets. -/
theorem targets_expandRoot {as : AdapterSet} {path : List Adapter} (hpath : as.Leads .program path k) :
    ∃ targets, as.expandRoot t k = .ok targets ∧ t.Targets k targets := by
  obtain ⟨chain, hchain, hleads, -⟩ := AdapterSet.chain_of_leads hpath
  exact ⟨_, by rw [AdapterSet.expandRoot, hchain]; rfl, h.targets_follow hleads h.targets_root⟩

theorem isWithin_of_apart {a b : NodeId} (ha : a ∈ t.ids) (hab : t.Apart a b) : t.isWithin a b = false := by
  obtain ⟨p, hp, rfl⟩ := mem_ids_iff.1 ha
  exact Bool.eq_false_iff.2 fun hw => hab p hp p.within_self ((h.isWithin_iff hp).1 hw)

theorem sublist_nodesOfKind (hn : t.Targets k targets) : targets.Sublist (t.nodesOfKind k) := by
  rw [nodesOfKind, descendantsOfKind, h.descendants_root]
  have hself : targets.filter (fun n => t.kind? n = some k) = targets :=
    List.filter_eq_self.2 fun n hm => decide_eq_true (hn.kinds n hm)
  exact hself ▸ hn.listed.filter _

theorem disjoint_targets (hn : t.Targets k targets) :
    targets.Pairwise fun a b => t.isWithin a b = false ∧ t.isWithin b a = false :=
  hn.apart.imp_of_mem fun ha hb hab =>
    ⟨h.isWithin_of_apart (hn.listed.subset ha) hab, h.isWithin_of_apart (hn.listed.subset hb) hab.symm⟩

/-- With the standard adapters every node of an enclosed kind lies below one target. -/
theorem standard_covers (k : Kind) : ∃ targets, AdapterSet.standard.expandRoot t k = .ok targets ∧
    ∀ n s, t.kind? n = some s → k.encloses s = true → ∃! m, m ∈ targets ∧ t.isWithin n m = true := by
  obtain ⟨targets, hexpand, hmem⟩ := h.mem_expandRoot_standard k
  refine ⟨targets, hexpand, fun n s hn hk => ?_⟩
  obtain ⟨p, hp, rfl, rfl⟩ := h.kind?_eq_some.1 hn
  obtain ⟨q, hq, htop, hw⟩ := h.exists_target hp hk
  refine ⟨q.id, ⟨(hmem q.id).2 ⟨q, hq, rfl, htop⟩, (h.isWithin_iff hp).2 hw⟩, fun m hm => ?_⟩
  by_contra hne
  have : Std.Symm t.Apart := ⟨fun _ _ => Apart.symm⟩
  have hab := (AdapterSet.standard.lawful.apart_expandRoot h hexpand).2.forall hm.1
    ((hmem q.id).2 ⟨q, hq, rfl, htop⟩) hne
  exact hab p hp ((h.isWithin_iff hp).1 hm.2) hw

end WellFormed

end Tree

end Trellis
