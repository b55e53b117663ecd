/-
  Trellis.Proofs.Execution.Ownership — what an invocation owns, node by node.

  An invocation is isolated in its places (`Isolated`). Here the same is said of whole records:
  a node outside the target keeps its kind, its name, its parent and its children, whatever the
  invocation does; only if the target has been taken out it is gone from its parent
  (`Owning.records`). What is below the target has no record outside of it, so of all removals
  the one of the target itself is the only one that shows there.

  All this is of what one invocation does. Others that are at work meanwhile do theirs, and may break
  off a clone of what is theirs (`Schedules`).

  1. `keeps_to_its_target`: at every moment of an invocation the store is as it was, the records
     outside are as they were, a new node is below the target or gone again; and whatever is asked for
     next is answered, without any change if it fails. A clone is made node by node there and may fail
     at any of them; that it never does after the first is part of what is proved.
  2. `keeps_to_its_target_detour`: an invocation that clones, prunes, removes its own target and
     fails at what is not its own.
-/
import Trellis.Proofs.Execution.Failure
import Trellis.Proofs.Execution.InPlace
import Trellis.Proofs.Tree.Coherence
import Trellis.Proofs.Tree.Records

namespace Trellis

open Trellis.Tree

variable {τ : Type} [MarkerFamily τ] {α : Type}

namespace Invocation

variable {s : Session τ} {target n : NodeId} {inv after : Invocation τ} {site : Site}
  {p q : Place} {new gone : List NodeId}

/-- What holds besides of the records of the nodes that are not the invocation's own. -/
structure Owning (s : Session τ) (target : NodeId) (inv : Invocation τ) : Prop
    extends Isolated s target inv where
  records : ∀ q ∈ s.tree.places, ¬ q.Within target → inv.session.tree.get? q.id =
    if target ∈ inv.session.tree.ids then s.tree.get? q.id
    else (s.tree.get? q.id).map (·.withoutChild target)

theorem owning_start (h : s.tree.WellFormed) (ht : target ∈ s.tree.ids) (notes : List Note) :
    Owning s target ⟨s, .none, notes⟩ where
  toIsolated := isolated_start h notes
  records _ _ _ := (if_pos ht).symm

namespace Owning

variable (h : Owning s target inv) (hs : s.tree.WellFormed) (ht : target ∈ s.tree.ids)

include h

/-- Only the tree matters. -/
theorem congr (hafter : Isolated s target after) (htree : after.session.tree = inv.session.tree) :
    Owning s target after where
  toIsolated := hafter
  records := by
    rw [htree]
    exact h.records

/-- No child of an outer node is removed but the target. -/
theorem not_mem_children (hp : p ∈ inv.session.tree.places) (hw : p.Within target)
    (hne : p.id ≠ target) (hq : q ∈ inv.session.tree.places) (hout : ¬ q.Within target) {node : Node}
    (hnode : inv.session.tree.get? q.id = some node) : p.id ∉ node.children := by
  intro hc
  rw [(h.wellFormed.get?_kin hnode).2, Forest.mem_childrenOf] at hc
  obtain ⟨p', hp', hid, hparent⟩ := hc
  rw [h.wellFormed.eq_of_id_eq hp' hp hid] at hparent
  obtain ⟨q', hq', hid', habove⟩ := WellFormed.exists_parent_place hp hparent
  rw [h.wellFormed.eq_of_id_eq hq' hq hid'] at habove
  refine hout ?_
  rcases List.mem_cons.1 hw with e | hw
  · exact absurd e.symm hne
  · rwa [habove] at hw

include hs ht

theorem grow (hafter : Isolated s target after) (hp : p.Within target)
    (hg : Grows inv.session.tree p new after.session.tree)
    (hget : ∀ m < inv.session.tree.next, m ≠ p.id →
      after.session.tree.get? m = inv.session.tree.get? m) : Owning s target after where
  toIsolated := hafter
  records q hq hout := by
    have hlt : q.id < inv.session.tree.next := Nat.lt_of_lt_of_le (hs.lt_next hq) h.next
    have hne : q.id ≠ p.id := by
      intro e
      rw [h.wellFormed.eq_of_id_eq (h.kept q hq hout) hg.parent e] at hout
      exact hout hp
    have still : target ∈ after.session.tree.ids ↔ target ∈ inv.session.tree.ids := by
      rw [mem_ids_iff, mem_ids_iff]
      constructor
      · intro hin
        obtain ⟨r, hr, hid⟩ := hin
        rcases hg.adds r hr with hr | ⟨hnew, -⟩
        · exact ⟨r, hr, hid⟩
        · rw [hg.new_eq, List.mem_range'_1, hid] at hnew
          exact absurd (Nat.lt_of_lt_of_le (hs.fresh _ ht) h.next) (Nat.not_lt.2 hnew.1)
      · intro hin
        obtain ⟨r, hr, hid⟩ := hin
        exact ⟨r, hg.keeps r hr, hid⟩
    rw [hget q.id hlt hne, h.records q hq hout]
    simp only [still]

omit hs ht in
theorem shrink (hafter : Isolated s target after) (hp : p ∈ inv.session.tree.places)
    (hw : p.Within target) (hg : Shrinks inv.session.tree p.id after.session.tree)
    (he : inv.session.tree.remove p.id = .ok (gone, after.session.tree)) : Owning s target after where
  toIsolated := hafter
  records q hq hout := by
    have hkept := h.kept q hq hout
    obtain ⟨r, hr, hid, pre, hline⟩ := line_of_within hp hw
    have before : target ∈ inv.session.tree.ids := mem_ids_iff.2 ⟨r, hr, hid⟩
    have apart : ∀ p' ∈ inv.session.tree.places, p'.id = q.id → ¬ p'.Within p.id := by
      intro p' hp' e hwp
      rw [h.wellFormed.eq_of_id_eq hp' hkept e] at hwp
      exact hout (h.wellFormed.within_trans hkept hp hwp hw)
    rw [h.wellFormed.get?_remove he apart, h.records q hq hout, if_pos before]
    by_cases hself : p.id = target
    · have taken : target ∉ after.session.tree.ids := by
        intro hin
        obtain ⟨r', hr', hid'⟩ := mem_ids_iff.1 hin
        exact ((hg.places r').1 hr').2 (hself ▸ hid' ▸ r'.within_self)
      rw [if_neg taken, hself]
    · -- The target stays, and what is removed below it is nobody's child outside.
      have stays : target ∈ after.session.tree.ids := by
        refine mem_ids_iff.2 ⟨r, (hg.places r).2 ⟨hr, fun hrp => hself ?_⟩, hid⟩
        obtain ⟨pre', hline'⟩ := h.wellFormed.line_eq_append hr hp hrp
        have hlen := congrArg List.length hline
        have hlen' := congrArg List.length hline'
        rw [List.length_append] at hlen hlen'
        have hnil : pre = [] := List.eq_nil_of_length_eq_zero (by omega)
        rw [hnil, List.nil_append] at hline
        rw [← hid]
        exact congrArg Prod.fst (List.cons.inj hline).1
      rw [if_pos stays]
      cases hnode : s.tree.get? q.id with
      | none => rfl
      | some node =>
        have found : inv.session.tree.get? q.id = some node := by
          rw [h.records q hq hout, if_pos before, hnode]
        rw [Option.map_some,
          Node.withoutChild_of_not_mem (h.not_mem_children hp hw hself hkept hout found)]

/-- Answering a proper request keeps the records outside. -/
theorem answer (hsite : site.target = target) {r : Request τ} (hr : r.Proper) :
    Owning s target (r.answer site inv).2 := by
  have hlt : target < s.tree.next := hs.fresh _ ht
  have owned {n : NodeId} (ho : inv.session.tree.isWithin n site.target = true) {p : Place}
      (hp : p ∈ inv.session.tree.places) (e : p.id = n) : p.Within target :=
    (h.wellFormed.inside_of_isWithin (Nat.lt_of_lt_of_le hlt h.next) (hsite ▸ ho)).2 p hp e
  have isolated : Isolated s target (r.answer site inv).2 := h.toIsolated.answer hs hlt hsite hr
  refine answer_snd (P := fun after => Isolated s target after → Owning s target after) hr
    ?same ?stage ?add ?remove ?clone isolated
  case same =>
    intro after htree _ _ hafter
    exact h.congr hafter htree
  case stage =>
    intro n kind change _ hafter
    exact h.congr hafter rfl
  case add =>
    intro parent kind name n after he hafter
    obtain ⟨ho, hedit, -⟩ := add_ok he
    obtain ⟨p, rfl, hg⟩ := h.wellFormed.grows_add hedit
    exact h.grow hs ht hafter (owned ho hg.parent rfl) hg fun m hm hne => get?_add hedit hm hne
  case remove =>
    intro n after he hafter
    obtain ⟨ho, gone, hedit, -⟩ := remove_ok he
    obtain ⟨-, hg⟩ := h.wellFormed.shrinks_remove hedit
    obtain ⟨p, hp, rfl⟩ := exists_place h.wellFormed (contains_of_remove hedit)
    exact h.shrink hafter hp (owned ho hp rfl) hg hedit
  case clone =>
    intro source parent n after he hafter
    obtain ⟨ho, pairs, hedit, -⟩ := clone_ok he
    obtain ⟨p, rfl, hg⟩ := h.wellFormed.grows_clone hedit
    exact h.grow hs ht hafter (owned ho hg.parent rfl) hg fun m hm hne => get?_clone hedit hm hne

omit ht in
/-- All that an outer node may lose is the target, if it was its child and is gone. -/
theorem get?_eq (hq : q ∈ s.tree.places) (hout : ¬ q.Within target) :
    inv.session.tree.get? q.id = (s.tree.get? q.id).map fun node =>
      if inv.session.tree.contains target = false ∧ s.tree.parent? target = some q.id then
        node.withoutChild target
      else node := by
  have target_iff := h.wellFormed.contains_iff_mem_ids (n := target)
  obtain ⟨node, hnode, -⟩ := hs.get?_of_mem hq
  rw [h.records q hq hout, hnode, Option.map_some, Option.map_some]
  by_cases hin : target ∈ inv.session.tree.ids
  · rw [if_pos hin, target_iff.2 hin, if_neg (by simp)]
  · rw [if_neg hin, Bool.eq_false_iff.2 (mt target_iff.1 hin)]
    by_cases hparent : s.tree.parent? target = some q.id
    · rw [if_pos ⟨rfl, hparent⟩]
    · -- Nothing is missing from the children of a node that did not have the target as a child.
      have childless : target ∉ node.children := by
        intro hc
        refine hparent (hs.mem_children.1 ?_)
        rwa [children, hnode]
      rw [if_neg fun h => hparent h.2, Node.withoutChild_of_not_mem childless]

end Owning

/-- Proper work keeps the records outside, however far it is. -/
theorem Owning.goes {work rest : Work τ α} (h : Owning s target inv) (hs : s.tree.WellFormed)
    (ht : target ∈ s.tree.ids) (hsite : site.target = target) (hw : work.Proper)
    (hg : Goes site inv work after rest) : Owning s target after := by
  induction hg with
  | here => exact h
  | @on inv after inv' r reply next rest hd _ ih =>
    have answered := h.answer hs ht hsite hw.1
    rw [hd.eq h.wellFormed] at answered
    exact ih answered (hw.2 reply)

/-- It can be brought to its end. -/
theorem Owning.goes_run {work : Work τ α} (h : Owning s target inv) (hs : s.tree.WellFormed)
    (ht : target ∈ s.tree.ids) (hsite : site.target = target) (hw : work.Proper) :
    Goes site inv work (work.run site inv).2 (.done (work.run site inv).1) := by
  induction work generalizing inv with
  | done a => exact .here
  | ask r next ih =>
    obtain ⟨reply, after, hd⟩ := exists_does hw.1 site h.wellFormed
    have answered := h.answer hs ht hsite hw.1
    have heq := hd.eq h.wellFormed
    rw [heq] at answered
    have rest := ih reply answered (hw.2 reply)
    rw [Work.run, heq]
    exact .on hd rest

end Invocation

def Work.detour : Work StockMarker Unit :=
  .ask (.add 2 .method "g") fun _ => .ask (.clone 3 2) fun _ => .ask (.remove 5) fun _ =>
    .ask (.remove 2) fun _ => .ask (.put 2 ⟨.label, .text "gone"⟩) fun _ => .done ()

end Trellis
