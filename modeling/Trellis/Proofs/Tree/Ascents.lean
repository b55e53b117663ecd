/-
  Trellis.Proofs.Tree.Ascents — looking up and looking down tell the same.

  On the nested structure the lineage of a node is read off at once. Whoever has no more than the
  records of the nodes goes from parent to parent and stops at the first one that will do
  (`Ascent`); a dead number has no parent, so that it is its own last stop.

  - `ascent_iff`: an ascent ends, and with the first node of the lineage that will do.
  - `ancestorOfKind_eq_some`: the node found is the innermost of those that have its kind and lie
    above, said of subtrees (`Innermost`).
-/
import Trellis.Proofs.Tree.Removal
import Trellis.Proofs.Tree.Walks

namespace Trellis.Tree

open Forest

/-- Going up from a node, parent by parent: the answer is the first node that will do, or none where
    the parents come to an end before. -/
inductive Ascent (t : Tree) (wanted : NodeId → Prop) : NodeId → Option NodeId → Prop
  | found {n : NodeId} (hn : wanted n) : Ascent t wanted n (some n)
  | top {n : NodeId} (hn : ¬ wanted n) (hp : t.parent? n = none) : Ascent t wanted n none
  | up {n m : NodeId} {r : Option NodeId} (hn : ¬ wanted n) (hp : t.parent? n = some m)
      (hm : Ascent t wanted m r) : Ascent t wanted n r

/-- Of the nodes of kind `k` that have `a` in their subtree, `x` is the one that lies in the subtrees of
    all. -/
structure Innermost (t : Tree) (a : NodeId) (k : Kind) (x : NodeId) : Prop where
  kind : t.kind? x = some k
  above : a ∈ t.descendants x
  innermost : ∀ y, t.kind? y = some k → a ∈ t.descendants y → x ∈ t.descendants y

variable {t : Tree} {wanted : NodeId → Prop} {a b m n x : NodeId} {k : Kind} {p q : Place}
  {r r' : Option NodeId}

theorem Ascent.unique (h : t.Ascent wanted n r) (h' : t.Ascent wanted n r') : r = r' := by
  induction h with
  | found hn =>
    cases h' with
    | found => rfl
    | top hn' | up hn' => exact absurd hn hn'
  | top hn hp =>
    cases h' with
    | found hn' => exact absurd hn' hn
    | top => rfl
    | up _ hp' => cases hp.symm.trans hp'
  | up hn hp _ ih =>
    cases h' with
    | found hn' => exact absurd hn' hn
    | top _ hp' => cases hp.symm.trans hp'
    | up _ hp' hm =>
      cases hp.symm.trans hp'
      exact ih hm

namespace WellFormed

variable (h : t.WellFormed)

include h

/-- The lineage of a node goes on as the lineage of its parent. -/
theorem lineage_eq (n : NodeId) : t.lineage n = n :: (t.parent? n).elim [] t.lineage := by
  by_cases hn : n ∈ t.ids
  · obtain ⟨p, hp, rfl⟩ := mem_ids_iff.1 hn
    rw [h.lineage_of_mem hp, h.parent?_of_mem hp, Place.line, List.map_cons]
    cases hparent : p.parent? with
    | none =>
      rw [Place.parent?, Option.map_eq_none_iff, List.head?_eq_none_iff] at hparent
      rw [hparent]
      rfl
    | some m =>
      obtain ⟨q, hq, rfl, habove⟩ := exists_parent_place hp hparent
      rw [habove, Option.elim_some, h.lineage_of_mem hq]
  · have hnone : t.parent? n = none := by
      rw [Tree.parent?, get?, (find?_eq_none none).2 hn]
      rfl
    rw [lineage_of_not_mem hn, hnone]
    rfl

/-- An ascent finds the first node of the lineage that will do. -/
theorem ascent_iff [DecidablePred wanted] :
    t.Ascent wanted n r ↔ r = (t.lineage n).find? fun m => decide (wanted m) := by
  have climbed : t.Ascent wanted n ((t.lineage n).find? fun m => decide (wanted m)) := by
    -- Going up leaves the rest of the lineage.
    induction hline : t.lineage n generalizing n with
    | nil =>
      rw [h.lineage_eq] at hline
      cases hline
    | cons m rest ih =>
      rw [h.lineage_eq, List.cons.injEq] at hline
      obtain ⟨rfl, hrest⟩ := hline
      by_cases hn : wanted n
      · rw [List.find?_cons_of_pos (by simpa using hn)]
        exact .found hn
      · rw [List.find?_cons_of_neg (by simpa using hn)]
        cases hp : t.parent? n with
        | none =>
          rw [hp] at hrest
          subst hrest
          exact .top hn hp
        | some m =>
          rw [hp] at hrest
          exact .up hn hp (ih hrest)
  constructor
  · exact fun ha => ha.unique climbed
  · rintro rfl
    exact climbed

theorem isWithin_iff_mem_descendants (ha : t.contains a = true) :
    t.isWithin a b = true ↔ a ∈ t.descendants b := by
  obtain ⟨p, hp, rfl⟩ := h.contains_iff.1 ha
  rw [h.isWithin_iff hp, h.mem_descendants]
  constructor
  · exact fun hw => ⟨p, hp, rfl, hw⟩
  · rintro ⟨q, hq, hid, hw⟩
    exact h.eq_of_id_eq hq hp hid ▸ hw

/-- Two nodes in the subtrees of each other are one. -/
theorem eq_of_mem_descendants (hab : a ∈ t.descendants b) (hba : b ∈ t.descendants a) : a = b := by
  obtain ⟨p, hp, rfl, hpq⟩ := h.mem_descendants.1 hab
  obtain ⟨q, hq, rfl, hqp⟩ := h.mem_descendants.1 hba
  obtain ⟨pre, hpre⟩ := h.line_eq_append hp hq hpq
  obtain ⟨post, hpost⟩ := h.line_eq_append hq hp hqp
  have hlen : p.line.length = q.line.length := by
    have hle := congrArg List.length hpre
    have hge := congrArg List.length hpost
    rw [List.length_append] at hle hge
    omega
  obtain rfl : pre = [] := by
    rw [hpre, List.length_append] at hlen
    exact List.eq_nil_of_length_eq_zero (by omega)
  rw [List.nil_append, Place.line, Place.line, List.cons.injEq, Prod.mk.injEq] at hpre
  exact hpre.1.1

/-- The subtrees that a node lies in are its own and those that its parent lies in. -/
theorem mem_descendants_iff_parent (ha : t.contains a = true) :
    a ∈ t.descendants b ↔ a = b ∨ ∃ m, t.parent? a = some m ∧ m ∈ t.descendants b := by
  obtain ⟨p, hp, rfl⟩ := h.contains_iff.1 ha
  rw [← h.isWithin_iff_mem_descendants ha, isWithin, h.lineage_eq, decide_eq_true_eq, List.mem_cons,
    eq_comm]
  refine or_congr_right ?_
  cases hparent : t.parent? p.id with
  | none => simp
  | some m =>
    have hm := (h.coherent.listed _ _ hparent).1
    simp [← h.isWithin_iff_mem_descendants hm, isWithin]

theorem contains_of_parent (hp : t.parent? a = some m) : t.contains m = true :=
  (h.coherent.listed a m hp).1

/-- What an ascent to a kind finds, said of subtrees. -/
theorem innermost_of_ascent (ha : t.contains a = true)
    (hr : t.Ascent (fun m => t.kind? m = some k) a r) :
    (∀ x, r = some x → t.Innermost a k x) ∧
      (r = none → ∀ y, t.kind? y = some k → a ∉ t.descendants y) := by
  -- Where the node is not of the kind, what lies above it is what lies above its parent.
  have other {a y : NodeId} (hn : t.kind? a ≠ some k) (hy : t.kind? y = some k) : a ≠ y := by
    rintro rfl
    exact hn hy
  induction hr with
  | @found a hn =>
    refine ⟨fun x hx => ?_, nofun⟩
    cases hx
    exact ⟨hn, (h.mem_descendants_iff_parent ha).2 (.inl rfl), fun y _ hy => hy⟩
  | @top a hn hp =>
    refine ⟨nofun, fun _ y hy hin => ?_⟩
    rcases (h.mem_descendants_iff_parent ha).1 hin with e | ⟨m, hm, -⟩
    · exact other hn hy e
    · cases hp.symm.trans hm
  | @up a m r hn hp _ ih =>
    have below {y : NodeId} (hy : t.kind? y = some k) : a ∈ t.descendants y ↔ m ∈ t.descendants y := by
      rw [h.mem_descendants_iff_parent ha]
      simp [other hn hy, hp]
    obtain ⟨hsome, hnone⟩ := ih (h.contains_of_parent hp)
    refine ⟨fun x hx => ?_, fun hr y hy hin => hnone hr y hy ((below hy).1 hin)⟩
    obtain ⟨hkind, habove, hinner⟩ := hsome x hx
    exact ⟨hkind, (below hkind).2 habove, fun y hy hin => hinner y hy ((below hy).1 hin)⟩

theorem ascent_ancestorOfKind (a : NodeId) (k : Kind) :
    t.Ascent (fun m => t.kind? m = some k) a (t.ancestorOfKind a k) := h.ascent_iff.2 rfl

theorem ancestorOfKind_eq_some (ha : t.contains a = true) :
    t.ancestorOfKind a k = some x ↔ t.Innermost a k x := by
  obtain ⟨hsome, hnone⟩ := h.innermost_of_ascent ha (h.ascent_ancestorOfKind a k)
  refine ⟨hsome x, fun hx => ?_⟩
  cases hr : t.ancestorOfKind a k with
  | none => exact absurd hx.above (hnone hr x hx.kind)
  | some y =>
    have hy := hsome y hr
    rw [h.eq_of_mem_descendants (hy.innermost x hx.kind hx.above) (hx.innermost y hy.kind hy.above)]

theorem ancestorOfKind_eq_none (ha : t.contains a = true) :
    t.ancestorOfKind a k = none ↔ ∀ y, t.kind? y = some k → a ∉ t.descendants y := by
  obtain ⟨hsome, hnone⟩ := h.innermost_of_ascent ha (h.ascent_ancestorOfKind a k)
  refine ⟨hnone, fun hno => ?_⟩
  cases hr : t.ancestorOfKind a k with
  | none => rfl
  | some x => exact absurd (hsome x hr).above (hno x (hsome x hr).kind)

theorem ascent_isWithin (n b : NodeId) :
    t.Ascent (· = b) n r ↔ r = if t.isWithin n b then some b else none := by
  rw [h.ascent_iff]
  suffices hfind : ((t.lineage n).find? fun m => decide (m = b)) = if t.isWithin n b then some b else none by
    rw [hfind]
  cases hw : t.isWithin n b with
  | true =>
    cases hf : (t.lineage n).find? fun m => decide (m = b) with
    | none =>
      have hno := List.find?_eq_none.1 hf b (of_decide_eq_true hw)
      simp at hno
    | some m =>
      have hm : m = b := by simpa using List.find?_some hf
      rw [hm, if_pos rfl]
  | false =>
    rw [if_neg Bool.false_ne_true, List.find?_eq_none]
    intro m hm e
    exact of_decide_eq_false hw (of_decide_eq_true e ▸ hm)

end WellFormed

end Trellis.Tree
