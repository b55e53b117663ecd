/-
  Trellis.Proofs.Execution.Isolation — invocations that keep to the subtree of their target.

  A body is proper if whatever it edits it edits by the rules of an invocation. Besides keeping
  the frame of its invocation, such a body leaves every place outside the target where it was
  and every subtree apart from the target as it was, stages markers only within the target, and
  lists as removed all that it takes out (`Isolated`). Each request keeps this
  (`Isolated.answer`), hence a whole body does (`Isolated.run`).

  Over targets that are apart from each other this adds up (`Secluded`), whatever the reason that
  each body keeps to its own (`Pass.Isolates`): what committing an outcome touches lies within its
  own target (`Secluded.inside_of_touches`).
-/
import Trellis.Proofs.Execution.Locality
import Trellis.Proofs.Tree.Subtrees

namespace Trellis

variable {τ : Type} [MarkerFamily τ] {α : Type}

/-- An edit, if it is one, by the rules of the invocation. -/
def Request.Proper : Request τ → Prop
  | .rename _ _ | .graft _ _ _ | .prune _ | .store _ _ => False
  | _ => True

/-- All requests of the work, whatever it is answered, are proper. -/
def Work.Proper : Work τ α → Prop
  | .done _ => True
  | .ask r next => r.Proper ∧ ∀ reply, (next reply).Proper

/-- However it is answered, and wherever it runs, the body is proper. -/
def Pass.Proper (p : Pass τ) : Prop := ∀ site, (p.body site).Proper

omit [MarkerFamily τ] in
theorem Request.Proper.confined {r : Request τ} (h : r.Proper) : r.Confined := by
  cases r with
  | rename | graft | prune | store => exact h.elim
  | _ => trivial

theorem Work.Proper.confined {work : Work τ α} (h : work.Proper) : work.Confined := by
  induction work with
  | done a => trivial
  | ask r next ih => exact ⟨h.1.confined, fun reply => ih reply (h.2 reply)⟩

theorem Pass.Proper.confined {p : Pass τ} (h : p.Proper) : p.Confined := fun site => (h site).confined

open Trellis.Tree

namespace Tree

variable {t u : Tree} {n target : NodeId} {gone : List NodeId}

theorem exists_place (h : t.WellFormed) (hn : t.contains n = true) : ∃ p ∈ t.places, p.id = n := by
  rw [Session.contains_eq] at hn
  obtain ⟨k, hk⟩ := Option.isSome_iff_exists.1 hn
  obtain ⟨p, hp, hid, -⟩ := h.kind?_eq_some.1 hk
  exact ⟨p, hp, hid⟩

theorem contains_of_remove (he : t.remove n = .ok (gone, u)) : t.contains n = true :=
  (remove_eq_ok.1 he).2.1

/-- What an invocation owns lies within its target, or is the target, which may be gone. -/
theorem WellFormed.inside_of_isWithin (h : t.WellFormed) (ht : target < t.next)
    (ho : t.isWithin n target = true) : t.Inside target n := by
  refine ⟨?_, ?_⟩
  · by_cases hn : n ∈ t.ids
    · exact h.fresh n hn
    · rw [isWithin, WellFormed.lineage_of_not_mem hn, decide_eq_true_eq, List.mem_singleton] at ho
      exact ho ▸ ht
  · intro p hp e
    rw [← e, h.isWithin_iff hp] at ho
    exact ho

end Tree

namespace Invocation

/-- What holds besides of an invocation with a proper body. -/
structure Isolated (s : Session τ) (target : NodeId) (inv : Invocation τ) : Prop
    extends Frame s target inv where
  kept : ∀ q ∈ s.tree.places, ¬ q.Within target → q ∈ inv.session.tree.places
  untouched : ∀ p ∈ s.tree.places, s.tree.Apart p.id target →
    inv.session.tree.whole.subtree? p.id = s.tree.whole.subtree? p.id
  markers : ∀ change ∈ inv.staged.markers, inv.session.tree.Inside target change.1
  /-- What was there, or was made, and is not there now. -/
  forgotten : ∀ n < inv.session.tree.next, n ∈ s.tree.ids ∨ s.tree.next ≤ n →
    n ∉ inv.session.tree.ids → n ∈ inv.staged.removed

variable {s : Session τ} {target n parent source : NodeId} {inv after : Invocation τ} {site : Site}
  {p : Place} {new gone : List NodeId}

theorem isolated_start (h : s.tree.WellFormed) (notes : List Note) :
    Isolated s target ⟨s, .none, notes⟩ where
  toFrame := frame_start h notes
  kept _ hq _ := hq
  untouched _ _ _ := rfl
  markers change hc := absurd hc (Sorted.not_mem_empty change)
  forgotten _ hlt hn hgone := by
    rcases hn with hn | hn
    · exact absurd hn hgone
    · exact absurd hlt (Nat.not_lt.2 hn)

/-! ## Staged markers -/

theorem mem_markers_stageAll {cs : MarkerChanges τ} {change : NodeId × MarkerChanges τ}
    (h : change ∈ (inv.stageAll n cs).staged.markers) : change ∈ inv.staged.markers ∨ change.1 = n := by
  rcases Sorted.mem_insert.1 h with rfl | ⟨h, -⟩
  · exact .inr rfl
  · exact .inl h

theorem mem_markers_removed {change : NodeId × MarkerChanges τ}
    (h : change ∈ (inv.removed gone).staged.markers) : change ∈ inv.staged.markers := by
  have erased (nodes : List NodeId) (m : OrdMap NodeId (MarkerChanges τ))
      (h : change ∈ m.eraseAll nodes) : change ∈ m := by
    induction nodes generalizing m with
    | nil => exact h
    | cons n nodes ih => exact (Sorted.mem_filter.1 (ih _ h)).1
  exact erased gone _ h

theorem mem_markers_foldl_copyMarkers (inv : Invocation τ) {pairs : List (NodeId × NodeId)}
    {change : NodeId × MarkerChanges τ} (h : change ∈ (pairs.foldl copyMarkers inv).staged.markers) :
    change ∈ inv.staged.markers ∨ change.1 ∈ pairs.map Prod.snd := by
  induction pairs generalizing inv with
  | nil => exact .inl h
  | cons pair pairs ih =>
    rcases ih _ h with h | h
    · unfold copyMarkers at h
      dsimp only at h
      split at h
      · exact .inl h
      · refine (mem_markers_stageAll h).imp_right fun e => ?_
        rw [e]
        exact List.mem_cons_self
    · exact .inr (List.mem_cons_of_mem _ h)

theorem markers_add {kind : Kind} {name : String} (h : inv.add site parent kind name = .ok (n, after)) :
    after.staged.markers = inv.staged.markers := by
  obtain ⟨-, -, h⟩ := bind_eq_ok.1 h
  obtain ⟨⟨m, tree⟩, -, h⟩ := bind_eq_ok.1 h
  cases h
  rfl

theorem mem_markers_remove (h : inv.remove site n = .ok ((), after))
    {change : NodeId × MarkerChanges τ} (hc : change ∈ after.staged.markers) :
    change ∈ inv.staged.markers := by
  obtain ⟨-, -, h⟩ := bind_eq_ok.1 h
  obtain ⟨⟨gone, tree⟩, -, h⟩ := bind_eq_ok.1 h
  cases h
  exact mem_markers_removed hc

theorem mem_markers_clone (h : inv.clone site source parent = .ok (n, after))
    {pairs : List (NodeId × NodeId)} (hedit : inv.session.tree.clone source parent =
      .ok (pairs, after.session.tree)) {change : NodeId × MarkerChanges τ}
    (hc : change ∈ after.staged.markers) :
    change ∈ inv.staged.markers ∨ change.1 ∈ pairs.map Prod.snd := by
  obtain ⟨-, -, h⟩ := bind_eq_ok.1 h
  obtain ⟨⟨pairs', tree⟩, hedit', h⟩ := bind_eq_ok.1 h
  rw [onTree_ok hedit', Except.ok.injEq, Prod.mk.injEq] at hedit
  obtain ⟨rfl, -⟩ := hedit
  cases h
  exact mem_markers_foldl_copyMarkers (inv.withTree tree) hc

/-- All that answering a proper request can come to: the tree, the store and what is staged stay as they
    are, a change is staged for an owned node, or the tree is edited by the rules. -/
theorem answer_snd {P : Invocation τ → Prop} {r : Request τ} (hr : r.Proper)
    (same : ∀ after : Invocation τ, after.session.tree = inv.session.tree →
      after.session.store = inv.session.store → after.staged = inv.staged → P after)
    (stage : ∀ n kind change, inv.session.tree.isWithin n site.target = true →
      P (inv.stage n kind change))
    (add : ∀ parent kind name n after, inv.add site parent kind name = .ok (n, after) → P after)
    (remove : ∀ n after, inv.remove site n = .ok ((), after) → P after)
    (clone : ∀ source parent n after, inv.clone site source parent = .ok (n, after) → P after) :
    P (r.answer site inv).2 := by
  refine answer_confined hr.confined same stage add remove clone fun n name after renames => ?_
  rw [renames] at hr
  exact hr.elim

namespace Isolated

variable (h : Isolated s target inv)

include h

theorem congr (htree : after.session.tree = inv.session.tree)
    (hstore : after.session.store = inv.session.store)
    (hcreated : after.staged.created = inv.staged.created)
    (hremoved : after.staged.removed = inv.staged.removed)
    (hmarkers : ∀ change ∈ after.staged.markers,
      change ∈ inv.staged.markers ∨ inv.session.tree.Inside target change.1) :
    Isolated s target after where
  toFrame := h.toFrame.congr (htree ▸ h.wellFormed) (by rw [htree]) (by rw [htree]) hstore hcreated
    hremoved
  kept := by
    rw [htree]
    exact h.kept
  untouched := by
    rw [htree]
    exact h.untouched
  markers change hc := by
    rw [htree]
    exact (hmarkers change hc).elim (h.markers change) id
  forgotten := by
    rw [htree, hremoved]
    exact h.forgotten

variable (hs : s.tree.WellFormed) (ht : target < s.tree.next)

include hs ht

theorem apart (hp : p ∈ s.tree.places) (ha : s.tree.Apart p.id target) :
    inv.session.tree.Apart p.id target :=
  ha.keep (fun q hq e => h.old q hq (e ▸ hs.lt_next hp)) fun q hq e => h.old q hq (e ▸ ht)

theorem grow (hp : p.Within target) (hg : Grows inv.session.tree p new after.session.tree)
    (hstore : after.session.store = inv.session.store)
    (hcreated : after.staged.created = inv.staged.created ++ new)
    (hremoved : after.staged.removed = inv.staged.removed)
    (hmarkers : ∀ change ∈ after.staged.markers, change ∈ inv.staged.markers ∨ change.1 ∈ new)
    (hsub : ∀ a < inv.session.tree.next,
      (∀ q ∈ inv.session.tree.places, q.id = p.id → ¬ q.Within a) →
      after.session.tree.whole.subtree? a = inv.session.tree.whole.subtree? a) :
    Isolated s target after where
  toFrame := h.toFrame.grow hp hg hstore hcreated hremoved
  kept q hq hn := hg.keeps q (h.kept q hq hn)
  untouched a ha hapart := by
    refine (hsub a.id (Nat.lt_of_lt_of_le (hs.lt_next ha) h.next) ?_).trans (h.untouched a ha hapart)
    intro q hq e hw
    rw [h.wellFormed.eq_of_id_eq hq hg.parent e] at hw
    exact h.apart hs ht ha hapart p hg.parent hw hp
  markers change hc := by
    have old : ∀ q ∈ after.session.tree.places, q.id < inv.session.tree.next →
        q ∈ inv.session.tree.places := by
      intro q hq hlt
      refine (hg.adds q hq).resolve_right fun hnew => ?_
      rw [hg.new_eq, List.mem_range'_1] at hnew
      exact Nat.not_lt.2 hnew.1.1 hlt
    rcases hmarkers change hc with hc | hc
    · exact (h.markers change hc).keep (by rw [hg.next]; exact Nat.le_add_right _ _) old
    · refine ⟨hg.wellFormed.fresh _ (hg.news _ hc), fun q hq e => ?_⟩
      rcases hg.adds q hq with hq | ⟨-, hw⟩
      · have hlt := h.wellFormed.lt_next hq
        rw [hg.new_eq, List.mem_range'_1] at hc
        exact absurd (e ▸ hlt) (Nat.not_lt.2 hc.1)
      · exact hw target hp
  forgotten m hlt hm hgone := by
    have hgone' : m ∉ inv.session.tree.ids := by
      intro hids
      obtain ⟨q, hq, rfl⟩ := mem_ids_iff.1 hids
      exact hgone (mem_ids_iff.2 ⟨q, hg.keeps q hq, rfl⟩)
    rw [hremoved]
    refine h.forgotten m (Nat.not_le.1 fun hle => hgone (hg.news m ?_)) hm hgone'
    rw [hg.new_eq, List.mem_range'_1]
    exact ⟨hle, by rwa [hg.next] at hlt⟩

theorem shrink (hp : p ∈ inv.session.tree.places) (hw : p.Within target)
    (hg : Shrinks inv.session.tree p.id after.session.tree)
    (hgone : gone = inv.session.tree.descendants p.id)
    (hstore : after.session.store = inv.session.store)
    (hcreated : after.staged.created = inv.staged.created)
    (hremoved : after.staged.removed = inv.staged.removed ++ gone)
    (hmarkers : ∀ change ∈ after.staged.markers, change ∈ inv.staged.markers)
    (hsub : ∀ a, (∀ q ∈ inv.session.tree.places, q.id = p.id → ¬ q.Within a) →
      (∀ q ∈ inv.session.tree.places, q.id = a → ¬ q.Within p.id) →
      after.session.tree.whole.subtree? a = inv.session.tree.whole.subtree? a) :
    Isolated s target after where
  toFrame := h.toFrame.shrink hg hgone hstore hcreated hremoved
  kept q hq hn := by
    have hq := h.kept q hq hn
    exact (hg.places q).2 ⟨hq, fun hqp => hn (h.wellFormed.within_trans hq hp hqp hw)⟩
  untouched a ha hapart := by
    have apart := h.apart hs ht ha hapart
    refine (hsub a.id ?_ ?_).trans (h.untouched a ha hapart)
    · intro q hq e hqa
      rw [h.wellFormed.eq_of_id_eq hq hp e] at hqa
      exact apart p hp hqa hw
    · intro q hq e hqp
      exact apart q hq (e ▸ q.within_self) (h.wellFormed.within_trans hq hp hqp hw)
  markers change hc := by
    refine (h.markers change (hmarkers change hc)).keep (Nat.le_of_eq hg.next.symm) ?_
    exact fun q hq _ => ((hg.places q).1 hq).1
  forgotten m hlt hm hnot := by
    rw [hremoved, List.mem_append]
    rw [hg.next] at hlt
    by_cases hids : m ∈ inv.session.tree.ids
    · obtain ⟨q, hq, rfl⟩ := mem_ids_iff.1 hids
      refine .inr (hgone ▸ h.wellFormed.mem_descendants.2 ⟨q, hq, rfl, ?_⟩)
      by_contra hqp
      exact hnot (mem_ids_iff.2 ⟨q, (hg.places q).2 ⟨hq, hqp⟩, rfl⟩)
    · exact .inl (h.forgotten m hlt hm hids)

/-- Answering a proper request keeps an invocation isolated. -/
theorem answer (hsite : site.target = target) {r : Request τ} (hr : r.Proper) :
    Isolated s target (r.answer site inv).2 := by
  have owned {n : NodeId} (ho : inv.session.tree.isWithin n site.target = true) :
      inv.session.tree.Inside target n :=
    h.wellFormed.inside_of_isWithin (Nat.lt_of_lt_of_le ht h.next) (hsite ▸ ho)
  refine answer_snd hr ?same ?stage ?add ?remove ?clone
  case same =>
    intro after htree hstore hstaged
    exact h.congr htree hstore (by rw [hstaged]) (by rw [hstaged]) fun c hc => .inl (hstaged ▸ hc)
  case stage =>
    intro n kind change ho
    refine h.congr rfl rfl rfl rfl fun c hc => (mem_markers_stageAll hc).imp_right fun e => ?_
    rw [e]
    exact owned ho
  case add =>
    intro parent kind name n after he
    obtain ⟨ho, hedit, hstore, hcreated, hremoved⟩ := add_ok he
    obtain ⟨p, rfl, hg⟩ := h.wellFormed.grows_add hedit
    refine h.grow hs ht ((owned ho).2 p hg.parent rfl) hg hstore hcreated hremoved ?_ ?_
    · exact fun change hc => .inl (markers_add he ▸ hc)
    · exact fun a ha hoff => subtree?_add hedit ha hoff
  case remove =>
    intro n after he
    obtain ⟨ho, gone, hedit, hstore, hcreated, hremoved⟩ := remove_ok he
    obtain ⟨hgone, hg⟩ := h.wellFormed.shrinks_remove hedit
    obtain ⟨p, hp, rfl⟩ := exists_place h.wellFormed (contains_of_remove hedit)
    refine h.shrink hs ht hp ((owned ho).2 p hp rfl) hg hgone hstore hcreated hremoved ?_ ?_
    · exact fun change hc => mem_markers_remove he hc
    · exact fun a hoff habove => subtree?_remove hedit hoff habove
  case clone =>
    intro source parent n after he
    obtain ⟨ho, pairs, hedit, hstore, hcreated, hremoved⟩ := clone_ok he
    obtain ⟨p, rfl, hg⟩ := h.wellFormed.grows_clone hedit
    refine h.grow hs ht ((owned ho).2 p hg.parent rfl) hg hstore hcreated hremoved ?_ ?_
    · exact fun change hc => mem_markers_clone he hedit hc
    · exact fun a ha hoff => subtree?_clone hedit ha hoff

end Isolated

/-- Proper work keeps an invocation isolated to its end. -/
theorem Isolated.run {work : Work τ α} (h : Isolated s target inv) (hs : s.tree.WellFormed)
    (ht : target < s.tree.next) (hsite : site.target = target) (hw : work.Proper) :
    Isolated s target (work.run site inv).2 := by
  induction work generalizing inv with
  | done a => exact h
  | ask r next ih => exact ih _ (h.answer hs ht hsite hw.1) (hw.2 _)

end Invocation

/-! ## Several invocations -/

/-- What holds besides after some invocations with proper bodies, before they are committed. -/
structure Secluded (s : Session τ) (outcomes : List (NodeId × Outcome τ)) (s' : Session τ) : Prop
    extends Traced s outcomes s' where
  kept : ∀ q ∈ s.tree.places, (∀ o ∈ outcomes, ¬ q.Within o.1) → q ∈ s'.tree.places
  untouched : ∀ p ∈ s.tree.places, (∀ o ∈ outcomes, s.tree.Apart p.id o.1) →
    s'.tree.whole.subtree? p.id = s.tree.whole.subtree? p.id
  markers : ∀ o ∈ outcomes, ∀ staged ∈ o.2.staged?, ∀ change ∈ staged.markers,
    s'.tree.Inside o.1 change.1

namespace Secluded

variable {s s₁ s₂ s' : Session τ} {outcomes os₁ os₂ : List (NodeId × Outcome τ)} {a n target : NodeId}
  {o : NodeId × Outcome τ} {outcome : Outcome τ} {inv : Invocation τ}

theorem nil (h : s.tree.WellFormed) : Secluded s [] s where
  toTraced := .nil h rfl rfl
  kept _ hq _ := hq
  untouched _ _ _ := rfl
  markers _ ho := absurd ho List.not_mem_nil

theorem skip (h : s.tree.WellFormed) (htree : s₁.tree = s.tree) (hstore : s₁.store = s.store) :
    Secluded s [(target, .skipped)] s₁ where
  toTraced := .skip h htree hstore
  kept := by
    rw [htree]
    exact fun _ hq _ => hq
  untouched := by
    rw [htree]
    exact fun _ _ _ => rfl
  markers o ho staged hs := by
    cases List.mem_singleton.1 ho
    cases hs

/-- A single isolated invocation. -/
theorem single (h : inv.Isolated s target) (hs : outcome.staged? = some inv.staged)
    (htree : s₁.tree = inv.session.tree) (hstore : s₁.store = inv.session.store) :
    Secluded s [(target, outcome)] s₁ where
  toTraced := .single h.toFrame hs htree hstore
  kept q hq hoff := by
    rw [htree]
    exact h.kept q hq (hoff _ List.mem_cons_self)
  untouched p hp hapart := by
    rw [htree]
    exact h.untouched p hp (hapart _ List.mem_cons_self)
  markers o ho staged hst := by
    cases List.mem_singleton.1 ho
    cases hs.symm.trans hst
    rw [htree]
    exact h.markers

theorem append (h : Secluded s os₁ s₁) (k : Secluded s₁ os₂ s₂) (hs : s.tree.WellFormed)
    (hlive : ∀ o ∈ os₂, o.1 < s.tree.next) : Secluded s (os₁ ++ os₂) s₂ where
  toTraced := h.toTraced.append k.toTraced
  kept q hq hoff := by
    have hq := h.kept q hq fun o ho => hoff o (List.mem_append_left _ ho)
    exact k.kept q hq fun o ho => hoff o (List.mem_append_right _ ho)
  untouched p hp hapart := by
    have first := h.untouched p hp fun o ho => hapart o (List.mem_append_left _ ho)
    refine (k.untouched p ?_ fun o ho => ?_).trans first
    · exact h.kept p hp fun o ho => hapart o (List.mem_append_left _ ho) p hp p.within_self
    · refine (hapart o (List.mem_append_right _ ho)).keep ?_ ?_
      · exact fun q hq e => h.old q hq (e ▸ hs.lt_next hp)
      · exact fun q hq e => h.old q hq (e ▸ hlive o ho)
  markers o ho staged hst change hc := by
    rcases List.mem_append.1 ho with ho | ho
    · exact (h.markers o ho staged hst change hc).keep k.next k.old
    · exact k.markers o ho staged hst change hc

/-! What comes of it, for a node that nothing was done to and for what is about to be committed. -/

variable (h : Secluded s outcomes s')

include h

/-- What committing an outcome touches lies within its target. -/
theorem inside_of_touches (ho : o ∈ outcomes) (ht : Session.Touches s'.tree o n) :
    s'.tree.Inside o.1 n := by
  rcases ht with hd | ⟨staged, hs, hc | hr | ⟨change, hc, rfl⟩⟩
  · obtain ⟨q, hq, rfl, hw⟩ := h.wellFormed.mem_descendants.1 hd
    refine ⟨h.wellFormed.lt_next hq, fun q' hq' e => ?_⟩
    rwa [h.wellFormed.eq_of_id_eq hq' hq e]
  · refine ⟨(h.created o ho staged hs n hc).2, fun q hq e => ?_⟩
    exact h.owned o ho staged hs q hq (e ▸ hc)
  · obtain ⟨hlt, hgone⟩ := h.removed o ho staged hs n hr
    exact ⟨hlt, fun q hq e => absurd (mem_ids_iff.2 ⟨q, hq, e⟩) hgone⟩
  · exact h.markers o ho staged hs change hc

theorem subtree?_eq (hlt : a < s.tree.next) (ha : ∀ o ∈ outcomes, s.tree.Apart a o.1) :
    s'.tree.whole.subtree? a = s.tree.whole.subtree? a := by
  by_cases hids : a ∈ s.tree.ids
  · obtain ⟨p, hp, rfl⟩ := mem_ids_iff.1 hids
    exact h.untouched p hp ha
  · have hids' : a ∉ s'.tree.ids := by
      intro hin
      obtain ⟨q, hq, rfl⟩ := mem_ids_iff.1 hin
      exact hids (mem_ids_iff.2 ⟨q, h.old q hq hlt, rfl⟩)
    rw [Forest.subtree?_eq_none.2 hids, Forest.subtree?_eq_none.2 hids']

variable (hs : s.tree.WellFormed)

include hs

theorem kind?_eq (hn : s.tree.Inside a n) (ha : ∀ o ∈ outcomes, s.tree.Apart a o.1) :
    s.tree.kind? n = s'.tree.kind? n := by
  cases hk : s.tree.kind? n with
  | some k =>
    obtain ⟨p, hp, rfl, rfl⟩ := hs.kind?_eq_some.1 hk
    have kept := h.kept p hp fun o ho => ha o ho p hp (hn.2 p hp rfl)
    rw [h.wellFormed.kind?_of_mem kept]
  | none =>
    cases hk' : s'.tree.kind? n with
    | none => rfl
    | some k =>
      obtain ⟨q, hq, rfl, rfl⟩ := h.wellFormed.kind?_eq_some.1 hk'
      rw [hs.kind?_of_mem (h.old q hq hn.1)] at hk
      cases hk

/-- Invocations elsewhere make no difference to a commit. -/
theorem alike (hlt : o.1 < s.tree.next) (ho : ∀ o' ∈ outcomes, s.tree.Apart o.1 o'.1)
    (hin : ∀ n, Session.Touches s.tree o n → s.tree.Inside o.1 n) :
    Session.Alike s.tree s'.tree o where
  descendants := by rw [Tree.descendants, Tree.descendants, h.subtree?_eq hlt ho]
  kind? n hn := h.kind?_eq hs (hin n hn) ho

end Secluded

/-! ## Invoking -/

namespace Pass

variable {p : Pass τ} {step : Step} {target : NodeId} {r r' : Run τ} {outcome : Outcome τ}
  {outcomes : List (NodeId × Outcome τ)} {targets : List NodeId}

/-- On whatever nodes the pass is invoked, its body keeps to the subtree of the node. -/
def Isolates (p : Pass τ) : Prop :=
  ∀ step (r : Run τ) target, r.session.tree.WellFormed → r.session.appliesTo p target = true →
    Invocation.Isolated r.session target (p.runBody step target r).2

theorem contains_of_appliesTo (h : r.session.appliesTo p target = true) :
    r.session.tree.contains target = true := by
  unfold Session.appliesTo at h
  split at h
  · rename_i node hnode
    rw [Tree.contains, hnode]
    rfl
  · cases h

/-- What a broken lock adds to the run of a body makes no difference. -/
theorem isolated_runBody_of_run (h : r.session.tree.WellFormed)
    (hrun : Invocation.Isolated r.session target
      ((p.body ⟨step.unit, target, step.granularity⟩).run ⟨step.unit, target, step.granularity⟩
        ⟨r.session, .none, r.notes⟩).2) :
    Invocation.Isolated r.session target (p.runBody step target r).2 :=
  p.runBody_snd step (Invocation.isolated_start h r.notes) hrun fun _ _ hinv =>
    hinv.congr rfl rfl rfl rfl fun _ hc => .inl hc

theorem isolated_runBody (hp : p.Proper) (h : r.session.tree.WellFormed)
    (ht : target < r.session.tree.next) :
    Invocation.Isolated r.session target (p.runBody step target r).2 :=
  isolated_runBody_of_run h ((Invocation.isolated_start h r.notes).run h ht rfl (hp _))

theorem Proper.isolates (hp : p.Proper) : p.Isolates := by
  intro step r target h happlies
  obtain ⟨q, hq, rfl⟩ := exists_place h (contains_of_appliesTo happlies)
  exact isolated_runBody hp h (h.lt_next hq)

variable (hp : p.Isolates) (h : r.session.tree.WellFormed)

include hp h

theorem secluded_invoke (he : p.invoke step r target = (.ok outcome, r')) :
    Secluded r.session [(target, outcome)] r'.session := by
  by_cases happlies : r.session.appliesTo p target = true
  · rcases invoke_ok he with ⟨rfl, htree, hstore⟩ | ⟨inv, rfl, hs, htree, hstore⟩
    · exact .skip h htree hstore
    · exact .single (hp step r target h happlies) hs htree hstore
  · rw [invoke, if_neg happlies] at he
    cases he
    exact .skip h rfl rfl

/-- What the invocations of a step preserve. -/
theorem secluded_invokeAll (hlive : ∀ n ∈ targets, n < r.session.tree.next)
    (he : p.invokeAll step targets r = (.ok outcomes, r')) :
    Secluded r.session outcomes r'.session ∧ ∀ o ∈ outcomes, o.1 ∈ targets := by
  rw [invokeAll_ok] at he
  induction he with
  | nil => exact ⟨.nil h, fun o ho => absurd ho List.not_mem_nil⟩
  | failed hinv =>
    refine ⟨secluded_invoke hp h hinv, fun o ho => ?_⟩
    rw [List.mem_singleton.1 ho]
    exact List.mem_cons_self
  | next _ hinv _ ih =>
    have htargets := (List.forall_mem_cons.1 hlive).2
    have first := secluded_invoke hp h hinv
    obtain ⟨rest, hrest⟩ := ih first.wellFormed
      fun m hm => Nat.lt_of_lt_of_le (htargets m hm) first.next
    refine ⟨first.append rest h fun o ho => htargets o.1 (hrest o ho), fun o ho => ?_⟩
    rcases List.mem_cons.1 ho with rfl | ho
    · exact List.mem_cons_self
    · exact List.mem_cons_of_mem _ (hrest o ho)

end Pass

end Trellis
