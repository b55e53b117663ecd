/-
  Trellis.Proofs.Execution.Frame — what invocations leave alone.

  A body is confined if it edits only by the rules of an invocation, or renames. However such a
  body goes on, at every moment: nodes from before it that are still there stand where they
  stood, every new node is below the target and listed as created, whatever is listed as
  removed is gone for good, and the store is the one it began with (`Frame`). Each request
  keeps this (`Frame.answer`), hence a whole body does (`Frame.run`). What a request can come to is
  said once (`answer_confined`).

  Over the targets of a step the frames add up (`Traced`). Whatever the body, confined or not, the
  features, the lock and the poisoning of the session are out of its reach (`Fixed`).
-/
import Trellis.Execution
import Trellis.Proofs.Tree.WellFormed

namespace Trellis

variable {τ : Type} [MarkerFamily τ] {α : Type}

/-- An edit, if it is one, by the rules of the invocation, or a renaming, which moves no node. -/
def Request.Confined : Request τ → Prop
  | .graft _ _ _ | .prune _ | .store _ _ => False
  | _ => True

/-- All requests of the work, whatever it is answered, are confined. -/
def Work.Confined : Work τ α → Prop
  | .done _ => True
  | .ask r next => r.Confined ∧ ∀ reply, (next reply).Confined

open Trellis.Tree

namespace Invocation

/-- What holds of an invocation on `target` that began in session `s`. -/
structure Frame (s : Session τ) (target : NodeId) (inv : Invocation τ) : Prop where
  wellFormed : inv.session.tree.WellFormed
  store : inv.session.store = s.store
  next : s.tree.next ≤ inv.session.tree.next
  /-- A node from before stands where it stood. -/
  old : ∀ q ∈ inv.session.tree.places, q.id < s.tree.next → q ∈ s.tree.places
  new : ∀ q ∈ inv.session.tree.places, s.tree.next ≤ q.id →
    q.Within target ∧ q.id ∈ inv.staged.created
  created : ∀ n ∈ inv.staged.created, s.tree.next ≤ n ∧ n < inv.session.tree.next
  removed : ∀ n ∈ inv.staged.removed, n < inv.session.tree.next ∧ n ∉ inv.session.tree.ids

variable {s : Session τ} {target n parent source : NodeId} {inv after : Invocation τ} {site : Site}
  {p : Place} {new : List NodeId}

theorem frame_start (h : s.tree.WellFormed) (notes : List Note) : Frame s target ⟨s, .none, notes⟩ where
  wellFormed := h
  store := rfl
  next := Nat.le_refl _
  old _ hq _ := hq
  new _ hq hn := absurd (h.lt_next hq) (Nat.not_lt.2 hn)
  created _ hn := absurd hn List.not_mem_nil
  removed _ hn := absurd hn List.not_mem_nil

namespace Frame

variable (h : Frame s target inv)

include h

/-- Only the places and the counter of the tree, the store and the two lists matter. -/
theorem congr (hwf : after.session.tree.WellFormed)
    (hplaces : after.session.tree.places = inv.session.tree.places)
    (hnext : after.session.tree.next = inv.session.tree.next)
    (hstore : after.session.store = inv.session.store)
    (hcreated : after.staged.created = inv.staged.created)
    (hremoved : after.staged.removed = inv.staged.removed) : Frame s target after where
  wellFormed := hwf
  store := hstore.trans h.store
  next := by
    rw [hnext]
    exact h.next
  old := by
    rw [hplaces]
    exact h.old
  new := by
    rw [hplaces, hcreated]
    exact h.new
  created := by
    rw [hcreated, hnext]
    exact h.created
  removed := by
    rw [hremoved, hnext, ids_eq_map_places, hplaces, ← ids_eq_map_places]
    exact h.removed

theorem grow (hp : p.Within target) (hg : Grows inv.session.tree p new after.session.tree)
    (hstore : after.session.store = inv.session.store)
    (hcreated : after.staged.created = inv.staged.created ++ new)
    (hremoved : after.staged.removed = inv.staged.removed) : Frame s target after where
  wellFormed := hg.wellFormed
  store := hstore.trans h.store
  next := Nat.le_trans h.next (by rw [hg.next]; exact Nat.le_add_right _ _)
  old q hq hlt := by
    rcases hg.adds q hq with hq | ⟨hq, -⟩
    · exact h.old q hq hlt
    · rw [hg.new_eq, List.mem_range'_1] at hq
      exact absurd hlt (Nat.not_lt.2 (Nat.le_trans h.next hq.1))
  new q hq hle := by
    rw [hcreated, List.mem_append]
    rcases hg.adds q hq with hq | ⟨hq, hw⟩
    · exact ⟨(h.new q hq hle).1, .inl (h.new q hq hle).2⟩
    · exact ⟨hw target hp, .inr hq⟩
  created m hm := by
    rw [hcreated, List.mem_append] at hm
    rw [hg.next]
    rcases hm with hm | hm
    · exact ⟨(h.created m hm).1, Nat.lt_of_lt_of_le (h.created m hm).2 (Nat.le_add_right _ _)⟩
    · rw [hg.new_eq, List.mem_range'_1] at hm
      exact ⟨Nat.le_trans h.next hm.1, hm.2⟩
  removed m hm := by
    rw [hremoved] at hm
    obtain ⟨hlt, hgone⟩ := h.removed m hm
    refine ⟨by rw [hg.next]; exact Nat.lt_of_lt_of_le hlt (Nat.le_add_right _ _), fun hids => ?_⟩
    obtain ⟨q, hq, rfl⟩ := mem_ids_iff.1 hids
    rcases hg.adds q hq with hq | ⟨hq, -⟩
    · exact hgone (mem_ids_iff.2 ⟨q, hq, rfl⟩)
    · rw [hg.new_eq, List.mem_range'_1] at hq
      exact absurd hlt (Nat.not_lt.2 hq.1)

theorem shrink {gone : List NodeId} (hg : Shrinks inv.session.tree n after.session.tree)
    (hgone : gone = inv.session.tree.descendants n)
    (hstore : after.session.store = inv.session.store)
    (hcreated : after.staged.created = inv.staged.created)
    (hremoved : after.staged.removed = inv.staged.removed ++ gone) : Frame s target after where
  wellFormed := hg.wellFormed
  store := hstore.trans h.store
  next := by
    rw [hg.next]
    exact h.next
  old q hq hlt := h.old q ((hg.places q).1 hq).1 hlt
  new q hq hle := by
    rw [hcreated]
    exact h.new q ((hg.places q).1 hq).1 hle
  created := by
    rw [hcreated, hg.next]
    exact h.created
  removed m hm := by
    rw [hremoved, List.mem_append] at hm
    rw [hg.next]
    rcases hm with hm | hm
    · refine ⟨(h.removed m hm).1, fun hids => (h.removed m hm).2 ?_⟩
      obtain ⟨q, hq, rfl⟩ := mem_ids_iff.1 hids
      exact mem_ids_iff.2 ⟨q, ((hg.places q).1 hq).1, rfl⟩
    · rw [hgone, h.wellFormed.mem_descendants] at hm
      obtain ⟨q, hq, rfl, hw⟩ := hm
      refine ⟨h.wellFormed.lt_next hq, fun hids => ?_⟩
      obtain ⟨r, hr, he⟩ := mem_ids_iff.1 hids
      obtain ⟨hr, hnot⟩ := (hg.places r).1 hr
      rw [h.wellFormed.eq_of_id_eq hr hq he] at hnot
      exact hnot hw

end Frame

/-! ## Edits -/

theorem checkOwned_ok (h : inv.checkOwned site n = .ok ()) :
    inv.session.tree.isWithin n site.target = true := by
  unfold checkOwned at h
  split at h
  · assumption
  · cases h

theorem onTree_ok {x : Except TreeError α} {a : α} (h : onTree x = .ok a) : x = .ok a := by
  cases x with
  | ok b =>
    cases h
    rfl
  | error e => cases h

theorem add_ok {kind : Kind} {name : String} (h : inv.add site parent kind name = .ok (n, after)) :
    inv.session.tree.isWithin parent site.target = true ∧
      inv.session.tree.add parent kind name = .ok (n, after.session.tree) ∧
      after.session.store = inv.session.store ∧
      after.staged.created = inv.staged.created ++ [n] ∧
      after.staged.removed = inv.staged.removed := by
  obtain ⟨_, howned, h⟩ := bind_eq_ok.1 h
  obtain ⟨⟨m, tree⟩, hedit, h⟩ := bind_eq_ok.1 h
  cases h
  exact ⟨checkOwned_ok howned, onTree_ok hedit, rfl, rfl, rfl⟩

theorem remove_ok (h : inv.remove site n = .ok ((), after)) :
    inv.session.tree.isWithin n site.target = true ∧ ∃ gone,
      inv.session.tree.remove n = .ok (gone, after.session.tree) ∧
      after.session.store = inv.session.store ∧
      after.staged.created = inv.staged.created ∧
      after.staged.removed = inv.staged.removed ++ gone := by
  obtain ⟨_, howned, h⟩ := bind_eq_ok.1 h
  obtain ⟨⟨gone, tree⟩, hedit, h⟩ := bind_eq_ok.1 h
  cases h
  exact ⟨checkOwned_ok howned, gone, onTree_ok hedit, rfl, rfl, rfl⟩

theorem foldl_copyMarkers (pairs : List (NodeId × NodeId)) (inv : Invocation τ) :
    (pairs.foldl copyMarkers inv).session = inv.session ∧
      (pairs.foldl copyMarkers inv).notes = inv.notes ∧
      (pairs.foldl copyMarkers inv).staged.created = inv.staged.created ∧
      (pairs.foldl copyMarkers inv).staged.removed = inv.staged.removed := by
  induction pairs generalizing inv with
  | nil => exact ⟨rfl, rfl, rfl, rfl⟩
  | cons pair pairs ih =>
    rw [List.foldl_cons, (ih _).1, (ih _).2.1, (ih _).2.2.1, (ih _).2.2.2]
    unfold copyMarkers
    dsimp only
    split
    · exact ⟨rfl, rfl, rfl, rfl⟩
    · exact ⟨rfl, rfl, rfl, rfl⟩

/-- Taking on copies stages what there is to stage, and records it. -/
theorem adopted (site : Site) (source copy : NodeId) (pairs : List (NodeId × NodeId)) (inv : Invocation τ) :
    (inv.adopt site source copy pairs).session.tree = inv.session.tree ∧
      (inv.adopt site source copy pairs).session.store = inv.session.store ∧
      (inv.adopt site source copy pairs).session.poisoned = inv.session.poisoned ∧
      (inv.adopt site source copy pairs).notes = inv.notes ∧
      (inv.adopt site source copy pairs).staged.created = inv.staged.created ++ pairs.map Prod.snd ∧
      (inv.adopt site source copy pairs).staged.removed = inv.staged.removed := by
  obtain ⟨hsession, hnotes, hcreated, hremoved⟩ := foldl_copyMarkers pairs inv
  refine ⟨?_, ?_, ?_, hnotes, ?_, hremoved⟩
  · rw [adopt, created, record, Session.record, hsession]
  · rw [adopt, created, record, Session.record, hsession]
  · rw [adopt, created, record, Session.record, hsession]
  · rw [adopt, created, record, hcreated]

theorem clone_ok (h : inv.clone site source parent = .ok (n, after)) :
    inv.session.tree.isWithin parent site.target = true ∧ ∃ pairs,
      inv.session.tree.clone source parent = .ok (pairs, after.session.tree) ∧
      after.session.store = inv.session.store ∧
      after.staged.created = inv.staged.created ++ pairs.map Prod.snd ∧
      after.staged.removed = inv.staged.removed := by
  obtain ⟨_, howned, h⟩ := bind_eq_ok.1 h
  obtain ⟨⟨pairs, tree⟩, hedit, h⟩ := bind_eq_ok.1 h
  cases h
  obtain ⟨htree, hstore, -, -, hcreated, hremoved⟩ :=
    adopted site source inv.session.tree.next pairs (inv.withTree tree)
  refine ⟨checkOwned_ok howned, pairs, ?_, hstore, hcreated, hremoved⟩
  rw [htree]
  exact onTree_ok hedit

theorem rename_ok {name : String} (h : inv.rename n name = .ok ((), after)) :
    inv.session.tree.rename n name = .ok after.session.tree ∧
      after.session.store = inv.session.store ∧ after.staged = inv.staged := by
  obtain ⟨tree, hedit, h⟩ := bind_eq_ok.1 h
  cases h
  exact ⟨onTree_ok hedit, rfl, rfl⟩

theorem attempt_snd {P : Invocation τ → Prop} {x : Except Error (α × Invocation τ)} (h : P inv)
    (hx : ∀ a after, x = .ok (a, after) → P after) : P (attempt inv x).2 := by
  cases x with
  | error e => exact h
  | ok r => exact hx r.1 r.2 rfl

/-- All that answering a confined request can come to: the tree, the store and what is staged stay as
    they are, a change is staged for an owned node, the tree is edited by the rules, or a node is
    renamed. -/
theorem answer_confined {P : Invocation τ → Prop} {r : Request τ} (hr : r.Confined)
    (same : ∀ after : Invocation τ, after.session.tree = inv.session.tree →
      after.session.store = inv.session.store → after.staged = inv.staged → P after)
    (stage : ∀ n kind change, inv.session.tree.isWithin n site.target = true →
      P (inv.stage n kind change))
    (add : ∀ parent kind name n after, inv.add site parent kind name = .ok (n, after) → P after)
    (remove : ∀ n after, inv.remove site n = .ok ((), after) → P after)
    (clone : ∀ source parent n after, inv.clone site source parent = .ok (n, after) → P after)
    (rename : ∀ n name after, r = .rename n name → inv.rename n name = .ok ((), after) → P after) :
    P (r.answer site inv).2 := by
  have start : P inv := same inv rfl rfl rfl
  cases r with
  | poisoned => exact start
  | features => exact start
  | events => exact start
  | tree => exact start
  | node n => exact start
  | tags n => exact start
  | marker n t => exact start
  | put n m =>
    refine attempt_snd start fun _ after he => ?_
    obtain ⟨_, ho, he⟩ := bind_eq_ok.1 he
    cases he
    exact stage _ _ _ (checkOwned_ok ho)
  | unmark n t =>
    refine attempt_snd start fun _ after he => ?_
    obtain ⟨_, ho, he⟩ := bind_eq_ok.1 he
    cases he
    exact stage _ _ _ (checkOwned_ok ho)
  | add parent kind name => exact attempt_snd start (add parent kind name)
  | remove n => exact attempt_snd start fun _ => remove n
  | clone source parent => exact attempt_snd start (clone source parent)
  | rename n name => exact attempt_snd start fun _ after => rename n name after rfl
  | graft parent kind name => exact hr.elim
  | prune n => exact hr.elim
  | store n m => exact hr.elim
  | record e => exact same _ rfl rfl rfl
  | note n => exact same _ rfl rfl rfl

namespace Frame

variable (h : Frame s target inv)

include h

theorem of_grows (ht : site.target = target) (howned : inv.session.tree.isWithin parent site.target = true)
    (hg : ∃ p, p.id = parent ∧ Grows inv.session.tree p new after.session.tree)
    (hstore : after.session.store = inv.session.store)
    (hcreated : after.staged.created = inv.staged.created ++ new)
    (hremoved : after.staged.removed = inv.staged.removed) : Frame s target after := by
  obtain ⟨p, rfl, hg⟩ := hg
  rw [h.wellFormed.isWithin_iff hg.parent, ht] at howned
  exact h.grow howned hg hstore hcreated hremoved

/-- Answering a confined request keeps the frame. -/
theorem answer (ht : site.target = target) {r : Request τ} (hr : r.Confined) :
    Frame s target (r.answer site inv).2 := by
  refine answer_confined hr ?same ?stage ?add ?remove ?clone ?rename
  case same =>
    intro after htree hstore hstaged
    exact h.congr (htree ▸ h.wellFormed) (by rw [htree]) (by rw [htree]) hstore (by rw [hstaged])
      (by rw [hstaged])
  case stage =>
    intro n kind change _
    exact h.congr h.wellFormed rfl rfl rfl rfl rfl
  case add =>
    intro parent kind name n after he
    obtain ⟨howned, hedit, hstore, hcreated, hremoved⟩ := add_ok he
    exact h.of_grows ht howned (h.wellFormed.grows_add hedit) hstore hcreated hremoved
  case remove =>
    intro n after he
    obtain ⟨-, gone, hedit, hstore, hcreated, hremoved⟩ := remove_ok he
    obtain ⟨hgone, hg⟩ := h.wellFormed.shrinks_remove hedit
    exact h.shrink hg hgone hstore hcreated hremoved
  case clone =>
    intro source parent n after he
    obtain ⟨howned, pairs, hedit, hstore, hcreated, hremoved⟩ := clone_ok he
    exact h.of_grows ht howned (h.wellFormed.grows_clone hedit) hstore hcreated hremoved
  case rename =>
    intro n name after _ he
    obtain ⟨hedit, hstore, hstaged⟩ := rename_ok he
    obtain ⟨hplaces, hnext⟩ := places_rename hedit
    exact h.congr (h.wellFormed.rename hedit) hplaces hnext hstore (by rw [hstaged]) (by rw [hstaged])

end Frame

/-- Confined work keeps the frame to its end. -/
theorem Frame.run {work : Work τ α} (h : Frame s target inv) (ht : site.target = target)
    (hw : work.Confined) : Frame s target (work.run site inv).2 := by
  induction work generalizing inv with
  | done a => exact h
  | ask r next ih => exact ih _ (h.answer ht hw.1) (hw.2 _)

end Invocation

/-! ## Out of reach -/

/-- The sessions agree in what no request gets at. -/
structure Session.Fixed (s s' : Session τ) : Prop where
  features : s'.features = s.features
  lockBroken : s'.lockBroken = s.lockBroken
  poisoned : s'.poisoned = s.poisoned

namespace Session

variable {s s₁ s₂ : Session τ}

theorem Fixed.refl (s : Session τ) : s.Fixed s := ⟨rfl, rfl, rfl⟩

theorem Fixed.trans (h : s.Fixed s₁) (k : s₁.Fixed s₂) : s.Fixed s₂ :=
  ⟨k.features.trans h.features, k.lockBroken.trans h.lockBroken, k.poisoned.trans h.poisoned⟩

end Session

open Invocation in
theorem Request.fixed_answer (r : Request τ) (site : Site) (inv : Invocation τ) :
    inv.session.Fixed (r.answer site inv).2.session := by
  let Kept (after : Invocation τ) : Prop := inv.session.Fixed after.session
  have start : Kept inv := .refl _
  cases r with
  | poisoned => exact start
  | features => exact start
  | events => exact start
  | tree => exact start
  | node n => exact start
  | tags n => exact start
  | marker n t => exact start
  | put n m =>
    refine attempt_snd (P := Kept) start fun _ after he => ?_
    obtain ⟨-, -, he⟩ := bind_eq_ok.1 he
    cases he
    exact start
  | unmark n t =>
    refine attempt_snd (P := Kept) start fun _ after he => ?_
    obtain ⟨-, -, he⟩ := bind_eq_ok.1 he
    cases he
    exact start
  | add parent kind name =>
    refine attempt_snd (P := Kept) start fun _ after he => ?_
    obtain ⟨-, -, he⟩ := bind_eq_ok.1 he
    obtain ⟨_, -, he⟩ := bind_eq_ok.1 he
    cases he
    exact ⟨rfl, rfl, rfl⟩
  | remove n =>
    refine attempt_snd (P := Kept) start fun _ after he => ?_
    obtain ⟨-, -, he⟩ := bind_eq_ok.1 he
    obtain ⟨_, -, he⟩ := bind_eq_ok.1 he
    cases he
    exact ⟨rfl, rfl, rfl⟩
  | clone source parent =>
    refine attempt_snd (P := Kept) start fun _ after he => ?_
    obtain ⟨-, -, he⟩ := bind_eq_ok.1 he
    obtain ⟨⟨pairs, tree⟩, -, he⟩ := bind_eq_ok.1 he
    cases he
    have marked : Kept (pairs.foldl copyMarkers (inv.withTree tree)) := by
      dsimp only [Kept]
      rw [(foldl_copyMarkers pairs (inv.withTree tree)).1]
      exact ⟨rfl, rfl, rfl⟩
    exact ⟨marked.features, marked.lockBroken, marked.poisoned⟩
  | rename n name =>
    refine attempt_snd (P := Kept) start fun _ after he => ?_
    obtain ⟨_, -, he⟩ := bind_eq_ok.1 he
    cases he
    exact ⟨rfl, rfl, rfl⟩
  | graft parent kind name =>
    refine attempt_snd (P := Kept) start fun _ after he => ?_
    obtain ⟨_, -, he⟩ := bind_eq_ok.1 he
    cases he
    exact ⟨rfl, rfl, rfl⟩
  | prune n =>
    refine attempt_snd (P := Kept) start fun _ after he => ?_
    obtain ⟨_, -, he⟩ := bind_eq_ok.1 he
    cases he
    exact ⟨rfl, rfl, rfl⟩
  | store n m => exact ⟨rfl, rfl, rfl⟩
  | record e => exact ⟨rfl, rfl, rfl⟩
  | note n => exact start

theorem Work.fixed_run (work : Work τ α) (site : Site) (inv : Invocation τ) :
    inv.session.Fixed (work.run site inv).2.session := by
  induction work generalizing inv with
  | done a => exact .refl _
  | ask r next ih => exact (r.fixed_answer site inv).trans (ih _ _)

end Trellis
