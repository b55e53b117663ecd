/-
  Trellis.Proofs.Execution.Shadow — an invocation, and the same where siblings have been before.

  Siblings that create nothing leave the tree without some nodes apart from the target, and
  nothing else that a body can ask for has changed (`Session.Lacks`). A body that looks at the
  tree within its target only (`Work.LooksWithin`) gets the same answers there, request by request
  (`Shadows.answer`), and so it ends the same, having staged the same (`Shadows.run`).

  What it has staged then is about nodes that were there below its target, and of the tree only
  those it lists as removed are gone (`Contained`).
-/
import Trellis.Proofs.Execution.Isolation
import Trellis.Proofs.Tree.Removal

namespace Trellis

variable {τ : Type} [MarkerFamily τ] {α β : Type}

/-- What a request made in tree `t` shows of it besides the target decides nothing: on the whole
    tree, what follows depends by the subtree of the target, and nodes asked for are private. Nor
    does it decide anything what the log has of siblings, or of anyone. -/
def Request.LooksWithin (t : Tree) (target : NodeId) : (r : Request τ) → (r.Reply → β) → Prop
  | .events, next => ∀ log log' : EventLog, next log = next log'
  | .tree, next => ∀ u : Tree, u.whole.subtree? target = t.whole.subtree? target → next u = next t
  | .node n, _ => t.Private target n
  | .clone source _, _ => t.Private target source
  | _, _ => True

/-- Going on from `inv`, the work looks at the structure of the tree within its target only. The
    tags and markers it may read of any node. -/
def Work.LooksWithin (site : Site) : Work τ α → Invocation τ → Prop
  | .done _, _ => True
  | .ask r next, inv =>
    r.LooksWithin inv.session.tree site.target next ∧
      (next (r.answer site inv).1).LooksWithin site (r.answer site inv).2

open Trellis.Tree

/-- A copy has at least one node. -/
theorem Tree.WellFormed.clone_ne_nil {t u : Tree} (h : t.WellFormed) {source parent : NodeId}
    {pairs : List (NodeId × NodeId)} (he : t.clone source parent = .ok (pairs, u)) : pairs ≠ [] := by
  obtain ⟨-, sub, -, -, hsub, -, -, -, rfl, rfl⟩ := clone_eq_ok.1 he
  obtain ⟨-, -, name, below, -, rfl, -⟩ := Forest.layout_subtree? [] h.distinct List.not_mem_nil hsub
  simp [Forest.ids, Forest.renumber]

namespace Invocation

/-! ## Creating nothing -/

variable {s s' : Session τ} {target n : NodeId} {inv inv' after after' : Invocation τ} {site : Site}
  {gone : List NodeId}

theorem created_add {parent : NodeId} {kind : Kind} {name : String}
    (he : inv.add site parent kind name = .ok (n, after)) : after.staged.created ≠ [] := by
  obtain ⟨-, -, -, hcreated, -⟩ := add_ok he
  simp [hcreated]

theorem created_clone (h : inv.session.tree.WellFormed) {source parent : NodeId}
    (he : inv.clone site source parent = .ok (n, after)) : after.staged.created ≠ [] := by
  obtain ⟨-, pairs, hedit, -, hcreated, -⟩ := clone_ok he
  simp [hcreated, h.clone_ne_nil hedit]

/-- The list of what was created never gets shorter. -/
theorem created_answer {r : Request τ} (hr : r.Proper)
    (hc : (r.answer site inv).2.staged.created = []) : inv.staged.created = [] := by
  suffices h : (r.answer site inv).2.staged.created = [] → inv.staged.created = [] from h hc
  refine answer_snd (P := fun after => after.staged.created = [] → inv.staged.created = []) hr
    ?same ?stage ?add ?remove ?clone
  case same =>
    intro after _ _ hstaged hc
    rwa [hstaged] at hc
  case stage => exact fun _ _ _ _ hc => hc
  case add => exact fun _ _ _ _ _ he hc => absurd hc (created_add he)
  case remove =>
    intro n after he hc
    obtain ⟨-, -, -, -, hcreated, -⟩ := remove_ok he
    rwa [hcreated] at hc
  case clone =>
    intro source parent n after he hc
    obtain ⟨-, pairs, -, -, hcreated, -⟩ := clone_ok he
    rw [hcreated] at hc
    exact (List.append_eq_nil_iff.1 hc).1

theorem created_run {work : Work τ α} (hw : work.Proper)
    (hc : (work.run site inv).2.staged.created = []) : inv.staged.created = [] := by
  induction work generalizing inv with
  | done a => exact hc
  | ask r next ih => exact created_answer hw.1 (ih _ (hw.2 _) hc)

/-- What holds of an isolated invocation as long as it has created nothing: of the tree it lacks
    what it lists as removed, and all that it has staged is about nodes below the target. -/
structure Contained (s : Session τ) (target : NodeId) (inv : Invocation τ) : Prop
    extends Isolated s target inv where
  tree : inv.session.tree = s.tree.without inv.staged.removed
  taken : ∀ n ∈ inv.staged.removed, n ∈ s.tree.descendants target
  staged : ∀ change ∈ inv.staged.markers, change.1 ∈ s.tree.descendants target

theorem contained_start (h : s.tree.WellFormed) (notes : List Note) :
    Contained s target ⟨s, .none, notes⟩ where
  toIsolated := isolated_start h notes
  tree := (without_nil s.tree).symm
  taken _ hn := absurd hn List.not_mem_nil
  staged change hc := absurd hc (Sorted.not_mem_empty change)

namespace Contained

variable (h : Contained s target inv) (hs : s.tree.WellFormed) (hlive : target ∈ s.tree.ids)

include h hs hlive

theorem mem_of_owned (ho : inv.session.tree.isWithin n target = true) :
    n ∈ s.tree.descendants target := by
  rcases h.wellFormed.mem_descendants_of_isWithin ho with hn | rfl
  · obtain ⟨p, hp, rfl, hw⟩ := h.wellFormed.mem_descendants.1 hn
    rw [h.tree] at hp
    exact hs.mem_descendants.2 ⟨p, (mem_places_without.1 hp).1, rfl, hw⟩
  · obtain ⟨p, hp, rfl⟩ := mem_ids_iff.1 hlive
    exact hs.mem_descendants.2 ⟨p, hp, rfl, p.within_self⟩

theorem answer (hsite : site.target = target) {r : Request τ} (hr : r.Proper)
    (hc : (r.answer site inv).2.staged.created = []) : Contained s target (r.answer site inv).2 := by
  let Kept (after : Invocation τ) : Prop :=
    after.session.tree = s.tree.without after.staged.removed ∧
      (∀ n ∈ after.staged.removed, n ∈ s.tree.descendants target) ∧
      ∀ change ∈ after.staged.markers, change.1 ∈ s.tree.descendants target
  suffices kept : Kept (r.answer site inv).2 from
    { h.toIsolated.answer hs (hs.fresh target hlive) hsite hr with
      tree := kept.1
      taken := kept.2.1
      staged := kept.2.2 }
  refine answer_snd (P := fun after => after.staged.created = [] → Kept after) hr
    ?same ?stage ?add ?remove ?clone hc
  case same =>
    intro after htree _ hstaged _
    dsimp only [Kept]
    rw [htree, hstaged]
    exact ⟨h.tree, h.taken, h.staged⟩
  case stage =>
    refine fun n kind change ho _ => ⟨h.tree, h.taken, fun c hc => ?_⟩
    rcases mem_markers_stageAll hc with hc | e
    · exact h.staged c hc
    · rw [e]
      exact h.mem_of_owned hs hlive (hsite ▸ ho)
  case add => exact fun _ _ _ _ _ he hc => absurd hc (created_add he)
  case remove =>
    intro n after he _
    have fewer (change) (hc : change ∈ after.staged.markers) := h.staged change (mem_markers_remove he hc)
    obtain ⟨ho, gone, hedit, -, -, hremoved⟩ := remove_ok he
    obtain ⟨rfl, htree⟩ := h.wellFormed.remove_eq_without hedit
    refine ⟨?_, fun m hm => ?_, fewer⟩
    · rw [htree, hremoved, ← without_append, ← h.tree]
    · rw [hremoved, List.mem_append] at hm
      rcases hm with hm | hm
      · exact h.taken m hm
      · obtain ⟨q, hq, rfl, hw⟩ := h.wellFormed.mem_descendants.1 hm
        have hn := h.mem_of_owned hs hlive (hsite ▸ ho)
        obtain ⟨p, hp, rfl, hwp⟩ := hs.mem_descendants.1 hn
        rw [h.tree] at hq
        have hq := (mem_places_without.1 hq).1
        exact hs.mem_descendants.2 ⟨q, hq, rfl, hs.within_trans hq hp hw hwp⟩
  case clone => exact fun _ _ _ _ he hc => absurd hc (created_clone h.wellFormed he)

end Contained

end Invocation

/-! ## Two invocations -/

/-- The tree of `s'` lacks some nodes of that of `s`. Whatever else can be asked for is the same. -/
structure Session.Lacks (gone : List NodeId) (s s' : Session τ) : Prop extends Fixed s s' where
  tree : s'.tree = s.tree.without gone
  store : s'.store = s.store

namespace Session.Lacks

variable {s s₁ s₂ : Session τ} {gone gone₁ gone₂ : List NodeId}

theorem refl (s : Session τ) : s.Lacks [] s := ⟨.refl s, (without_nil s.tree).symm, rfl⟩

theorem trans (h : s.Lacks gone₁ s₁) (k : s₁.Lacks gone₂ s₂) : s.Lacks (gone₂ ++ gone₁) s₂ where
  toFixed := h.toFixed.trans k.toFixed
  tree := by rw [k.tree, h.tree, without_comm, without_append]
  store := k.store.trans h.store

theorem record (h : s.Lacks gone s₁) (e : Event) : s.Lacks gone (s₁.record e) :=
  ⟨⟨h.features, h.lockBroken, h.poisoned⟩, h.tree, h.store⟩

end Session.Lacks

namespace Invocation

variable {s s' : Session τ} {target n : NodeId} {inv inv' after after' : Invocation τ} {site : Site}
  {gone : List NodeId}

/-- `inv'` has staged what `inv` has, on a tree that lacks some nodes. -/
structure Shadows (gone : List NodeId) (inv inv' : Invocation τ) : Prop where
  session : inv.session.Lacks gone inv'.session
  staged : inv'.staged = inv.staged

/-- Two attempts that come to the same. -/
inductive Alongside (gone : List NodeId) :
    Except Error (α × Invocation τ) → Except Error (α × Invocation τ) → Prop
  | ok (a : α) {after after' : Invocation τ} :
    Shadows gone after after' → Alongside gone (.ok (a, after)) (.ok (a, after'))
  | error (e : Error) : Alongside gone (.error e) (.error e)

theorem Alongside.attempt {x x' : Except Error (α × Invocation τ)} (hx : Alongside gone x x')
    (h : Shadows gone inv inv') : (attempt inv' x').1 = (attempt inv x).1 ∧
      Shadows gone (attempt inv x).2 (attempt inv' x').2 := by
  cases hx with
  | ok a hafter => exact ⟨rfl, hafter⟩
  | error e => exact ⟨rfl, h⟩

/-- Attempts to create something come to the same if they fail alike and one of them creates
    nothing. -/
theorem alongside_of_created {x x' : Except Error (α × Invocation τ)}
    (herror : ∀ e, x = .error e ↔ x' = .error e)
    (hx : ∀ a after, x = .ok (a, after) → after.staged.created ≠ [])
    (hx' : ∀ a after, x' = .ok (a, after) → after.staged.created ≠ [])
    (hc : (attempt inv x).2.staged.created = [] ∨ (attempt inv' x').2.staged.created = []) :
    Alongside gone x x' := by
  cases x with
  | error e =>
    rw [(herror e).1 rfl]
    exact .error e
  | ok a =>
    cases x' with
    | error e => cases (herror e).2 rfl
    | ok b =>
      rcases hc with hc | hc
      · exact absurd hc (hx a.1 a.2 rfl)
      · exact absurd hc (hx' b.1 b.2 rfl)

theorem onTree_error {x : Except TreeError α} {e : Error} (h : onTree x = .error e) :
    ∃ why, x = .error why ∧ e = .tree why := by
  cases x with
  | ok a => cases h
  | error why =>
    cases h
    exact ⟨why, rfl, rfl⟩

theorem add_error_congr {parent : NodeId} {kind : Kind} {name : String} {e : Error}
    (hown : inv'.checkOwned site parent = inv.checkOwned site parent)
    (hk : inv.checkOwned site parent = .ok () →
      inv'.session.tree.kind? parent = inv.session.tree.kind? parent)
    (he : inv.add site parent kind name = .error e) : inv'.add site parent kind name = .error e := by
  rcases bind_eq_error.1 he with ho | ⟨_, ho, he⟩
  · rw [add, hown, ho]
    rfl
  · rcases bind_eq_error.1 he with he | ⟨⟨m, tree⟩, -, he⟩
    · obtain ⟨why, hwhy, rfl⟩ := onTree_error he
      rw [add, hown, ho]
      show (onTree (inv'.session.tree.add parent kind name) >>= _) = _
      rw [Tree.add_error_congr (hk ho) hwhy]
      rfl
    · cases he

theorem clone_error_congr {source parent : NodeId} {e : Error}
    (hown : inv'.checkOwned site parent = inv.checkOwned site parent)
    (htree : ∀ why, inv.checkOwned site parent = .ok () →
      inv.session.tree.clone source parent = .error why →
      inv'.session.tree.clone source parent = .error why)
    (he : inv.clone site source parent = .error e) : inv'.clone site source parent = .error e := by
  rcases bind_eq_error.1 he with ho | ⟨_, ho, he⟩
  · rw [clone, hown, ho]
    rfl
  · rcases bind_eq_error.1 he with he | ⟨⟨pairs, tree⟩, -, he⟩
    · obtain ⟨why, hwhy, rfl⟩ := onTree_error he
      rw [clone, hown, ho]
      show (onTree (inv'.session.tree.clone source parent) >>= _) = _
      rw [htree why ho hwhy]
      rfl
    · cases he

namespace Shadows

theorem stage (h : Shadows gone inv inv') (n : NodeId) (kind : String) (change : Option (Marker τ)) :
    Shadows gone (inv.stage n kind change) (inv'.stage n kind change) where
  session := h.session
  staged := by
    unfold Invocation.stage Invocation.stageAll Invocation.changes
    rw [h.staged]

theorem marker (h : Shadows gone inv inv') (n : NodeId) (t : τ) : inv'.marker n t = inv.marker n t := by
  unfold Invocation.marker Invocation.changes
  rw [h.staged, h.session.store]

variable (h : Shadows gone inv inv') (hwf : inv.session.tree.WellFormed)
  (hwf' : inv'.session.tree.WellFormed) (hg : ∀ m ∈ gone, inv.session.tree.Apart m site.target)

include h hwf hwf' hg

theorem checkOwned (n : NodeId) : inv'.checkOwned site n = inv.checkOwned site n := by
  rw [h.session.tree] at hwf'
  rw [Invocation.checkOwned, Invocation.checkOwned, h.session.tree, isWithin_without hwf hwf' hg]

theorem alongside_put (n : NodeId) (m : Marker τ) :
    Alongside gone (inv.put site n m) (inv'.put site n m) := by
  rw [put, put, h.checkOwned hwf hwf' hg]
  cases inv.checkOwned site n with
  | error e => exact .error e
  | ok _ => exact .ok () (h.stage ..)

theorem alongside_unmark (n : NodeId) (t : τ) :
    Alongside gone (inv.unmark site n t) (inv'.unmark site n t) := by
  rw [unmark, unmark, h.checkOwned hwf hwf' hg, h.marker]
  cases inv.checkOwned site n with
  | error e => exact .error e
  | ok _ => exact .ok (inv.marker n t) (h.stage ..)

theorem alongside_remove (n : NodeId) : Alongside gone (inv.remove site n) (inv'.remove site n) := by
  rw [Invocation.remove, Invocation.remove, h.checkOwned hwf hwf' hg]
  cases ho : inv.checkOwned site n with
  | error e => exact .error e
  | ok _ =>
    have hn := hwf.private_of_isWithin (checkOwned_ok ho)
    have hremove : inv'.session.tree.remove n =
        (inv.session.tree.remove n).map fun x => (x.1, x.2.without gone) := by
      rw [h.session.tree] at hwf' ⊢
      exact remove_without hwf hwf' hg hn
    show Alongside gone (onTree (inv.session.tree.remove n) >>= _)
      (onTree (inv'.session.tree.remove n) >>= _)
    rw [hremove]
    cases inv.session.tree.remove n with
    | error why => exact .error (.tree why)
    | ok x =>
      refine .ok () ⟨⟨⟨h.session.features, h.session.lockBroken, h.session.poisoned⟩, rfl,
        h.session.store⟩, ?_⟩
      show Staged.mk (inv'.staged.markers.eraseAll x.1) inv'.staged.created (inv'.staged.removed ++ x.1) = _
      rw [h.staged]
      rfl

theorem alongside_add (parent : NodeId) (kind : Kind) (name : String)
    (hc : (attempt inv (inv.add site parent kind name)).2.staged.created = [] ∨
      (attempt inv' (inv'.add site parent kind name)).2.staged.created = []) :
    Alongside gone (inv.add site parent kind name) (inv'.add site parent kind name) := by
  have hown := h.checkOwned hwf hwf' hg parent
  have hk (ho : inv.checkOwned site parent = .ok ()) :
      inv'.session.tree.kind? parent = inv.session.tree.kind? parent := by
    rw [h.session.tree] at hwf' ⊢
    exact kind?_without hwf hwf' hg (hwf.private_of_isWithin (checkOwned_ok ho))
  refine alongside_of_created (fun e => ⟨?_, ?_⟩) (fun _ _ => created_add) (fun _ _ => created_add) hc
  · exact add_error_congr hown hk
  · exact add_error_congr hown.symm fun ho => (hk (hown ▸ ho)).symm

theorem alongside_clone (source parent : NodeId) (hs : inv.session.tree.Private site.target source)
    (hc : (attempt inv (inv.clone site source parent)).2.staged.created = [] ∨
      (attempt inv' (inv'.clone site source parent)).2.staged.created = []) :
    Alongside gone (inv.clone site source parent) (inv'.clone site source parent) := by
  have hown := h.checkOwned hwf hwf' hg parent
  have same (ho : inv.checkOwned site parent = .ok ()) :
      inv'.session.tree.isWithin parent source = inv.session.tree.isWithin parent source ∧
        inv'.session.tree.whole.subtree? source = inv.session.tree.whole.subtree? source ∧
        inv'.session.tree.kind? source = inv.session.tree.kind? source ∧
        inv'.session.tree.kind? parent = inv.session.tree.kind? parent := by
    have hp := hwf.private_of_isWithin (checkOwned_ok ho)
    rw [h.session.tree] at hwf' ⊢
    refine ⟨?_, subtree?_without hwf hg hs, kind?_without hwf hwf' hg hs, kind?_without hwf hwf' hg hp⟩
    rw [isWithin, isWithin, lineage_without hwf hwf' hg hp]
  refine alongside_of_created (fun e => ⟨?_, ?_⟩) (fun _ _ => created_clone hwf)
    (fun _ _ => created_clone hwf') hc
  · refine clone_error_congr hown fun why ho => ?_
    obtain ⟨hw, hsub, hks, hkp⟩ := same ho
    exact Tree.clone_error_congr hw hsub hks hkp
  · refine clone_error_congr hown.symm fun why ho => ?_
    obtain ⟨hw, hsub, hks, hkp⟩ := same (hown ▸ ho)
    exact Tree.clone_error_congr hw.symm hsub.symm hks.symm hkp.symm

/-- The answer to a proper request that looks within the target is the same for what follows, as long
    as nothing is created. -/
theorem answer {r : Request τ} {next : r.Reply → β} (hr : r.Proper)
    (hl : r.LooksWithin inv.session.tree site.target next)
    (hc : (r.answer site inv).2.staged.created = [] ∨ (r.answer site inv').2.staged.created = []) :
    next (r.answer site inv').1 = next (r.answer site inv).1 ∧
      Shadows gone (r.answer site inv).2 (r.answer site inv').2 := by
  cases r with
  | poisoned => exact ⟨congrArg next h.session.poisoned, h⟩
  | features => exact ⟨congrArg next h.session.features, h⟩
  | events => exact ⟨hl _ _, h⟩
  | tree =>
    refine ⟨hl _ ?_, h⟩
    show inv'.session.tree.whole.subtree? site.target = _
    rw [h.session.tree]
    refine subtree?_without hwf hg ?_
    intro q _ hq
    rw [← hq]
    exact q.within_self
  | node n =>
    refine ⟨congrArg next ?_, h⟩
    show inv'.session.tree.get? n = inv.session.tree.get? n
    rw [h.session.tree] at hwf' ⊢
    exact get?_without hwf hwf' hg hl
  | tags n =>
    refine ⟨congrArg next ?_, h⟩
    show Store.tags inv'.session.store n = Store.tags inv.session.store n
    rw [h.session.store]
  | marker n t => exact ⟨congrArg next (h.marker n t), h⟩
  | put n m => exact ((h.alongside_put hwf hwf' hg n m).attempt h).imp_left (congrArg next)
  | unmark n t => exact ((h.alongside_unmark hwf hwf' hg n t).attempt h).imp_left (congrArg next)
  | add parent kind name =>
    exact ((h.alongside_add hwf hwf' hg parent kind name hc).attempt h).imp_left (congrArg next)
  | remove n => exact ((h.alongside_remove hwf hwf' hg n).attempt h).imp_left (congrArg next)
  | clone source parent =>
    exact ((h.alongside_clone hwf hwf' hg source parent hl hc).attempt h).imp_left (congrArg next)
  | rename n name => exact hr.elim
  | graft parent kind name => exact hr.elim
  | prune n => exact hr.elim
  | store n m => exact hr.elim
  | record e =>
    exact ⟨rfl, ⟨⟨h.session.features, h.session.lockBroken, h.session.poisoned⟩, h.session.tree,
      h.session.store⟩, h.staged⟩
  | note n => exact ⟨rfl, h.session, h.staged⟩

end Shadows

/-- Proper work that looks within its target comes to the same where siblings have been, if it creates
    nothing. -/
theorem Shadows.run (h : Shadows gone inv inv') (work : Work τ α) (site : Site)
    (hin : Contained s site.target inv) (hin' : Isolated s' site.target inv')
    (hs : s.tree.WellFormed) (hs' : s'.tree.WellFormed) (hlive : site.target ∈ s.tree.ids)
    (hlive' : site.target < s'.tree.next) (hg : ∀ m ∈ gone, s.tree.Apart m site.target)
    (hw : work.Proper) (hl : work.LooksWithin site inv)
    (hc : (work.run site inv).2.staged.created = [] ∨ (work.run site inv').2.staged.created = []) :
    (work.run site inv').1 = (work.run site inv).1 ∧
      Shadows gone (work.run site inv).2 (work.run site inv').2 ∧
      Contained s site.target (work.run site inv).2 := by
  induction work generalizing inv inv' with
  | done a => exact ⟨rfl, h, hin⟩
  | ask r next ih =>
    have hc₁ : (r.answer site inv).2.staged.created = [] ∨ (r.answer site inv').2.staged.created = [] :=
      hc.imp (created_run (hw.2 _)) (created_run (hw.2 _))
    have hapart : ∀ m ∈ gone, inv.session.tree.Apart m site.target := by
      rw [hin.tree]
      exact fun m hm => (hg m hm).without _
    obtain ⟨hnext, hafter⟩ := h.answer hin.wellFormed hin'.wellFormed hapart hw.1 hl.1 hc₁
    have hnone : (r.answer site inv).2.staged.created = [] :=
      hc₁.elim id fun hc => by rwa [hafter.staged] at hc
    have hrun : (Work.ask r next).run site inv' =
        (next (r.answer site inv).1).run site (r.answer site inv').2 := by
      show (next (r.answer site inv').1).run site (r.answer site inv').2 = _
      rw [hnext]
    rw [hrun] at hc ⊢
    exact ih _ hafter (hin.answer hs hlive rfl hw.1 hnone) (hin'.answer hs' hlive' rfl hw.1) (hw.2 _)
      hl.2 hc

end Invocation

end Trellis
