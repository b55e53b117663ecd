/-
  Trellis.Proofs.Execution.Reachable — what is true of every session.

  A session is made for a tree; after that its tree is edited, its nodes are marked, it is seeded
  and plans are executed on it, with whatever bodies and however they end. Tags are written only
  to nodes that are there, so in each such session the tree is well-formed and no tag waits for a
  node that is yet to come (`Reachable.tidy`).

  - `Tidy.answer`, `Tidy.close`: one request and one commit keep this.
  - `Tidy.runStep`, `Tidy.executes`: hence a step and a whole execution do, by however many it is made.
-/
import Trellis.Proofs.Execution.Commit
import Trellis.Proofs.Execution.Invariants
import Trellis.Proofs.Execution.Rounds

namespace Trellis

variable {τ : Type} [MarkerFamily τ] {α : Type}

namespace Session

/-- The tree is well-formed, and no number that is yet to be given out carries a tag. -/
structure Tidy (s : Session τ) : Prop where
  wellFormed : s.tree.WellFormed
  fresh : ∀ n, s.tree.next ≤ n → ∀ u, u ∉ Store.tags s.store n

variable {s s' : Session τ} {c : Contract} {expected initial : FactSet}

theorem tidy_new {t : Tree} (h : t.WellFormed) (features : Features) : (new t features : Session τ).Tidy where
  wellFormed := h
  fresh _ _ u := Sorted.not_mem_empty u

namespace Tidy

variable (h : s.Tidy)

include h

/-- Only the tree and the tags matter. -/
theorem congr (htree : s'.tree = s.tree) (htags : ∀ n, Store.tags s'.store n = Store.tags s.store n) :
    s'.Tidy where
  wellFormed := by
    rw [htree]
    exact h.wellFormed
  fresh n hn u := by
    rw [htags]
    exact h.fresh n (by rw [← htree]; exact hn) u

theorem edit {t : Tree} (he : s.tree.Edit t) : Tidy { s with tree := t } where
  wellFormed := (h.wellFormed.edit he).1
  fresh n hn := h.fresh n (Nat.le_trans (h.wellFormed.edit he).2 hn)

/-- New tags on nodes of the tree do no harm. -/
theorem tagged {store : Store τ}
    (hold : ∀ n u, u ∈ Store.tags store n → n ∈ s.tree.ids ∨ u ∈ Store.tags s.store n) :
    Tidy { s with store } where
  wellFormed := h.wellFormed
  fresh n hn u hu := by
    rcases hold n u hu with hlive | hu
    · exact absurd (h.wellFormed.fresh n hlive) (Nat.not_lt.2 hn)
    · exact h.fresh n hn u hu

theorem seed (initial : FactSet) : (s.seed initial).Tidy := by
  refine h.tagged fun n u hu => ?_
  rw [mem_tags_foldl_tagAll, h.wellFormed.mem_nodesOfKind] at hu
  refine hu.imp_left fun hu => ?_
  obtain ⟨-, q, hq, hid, -⟩ := hu
  exact Tree.mem_ids_iff.2 ⟨q, hq, hid⟩

/-! ## Committing -/

theorem commitStaged (expected : FactSet) (staged : Staged τ) : (s.commitStaged expected staged).Tidy := by
  refine h.tagged fun n u hu => ?_
  rcases mem_tags_commitStaged.1 hu with ⟨-, hk, -⟩ | ⟨hu, -⟩
  · obtain ⟨q, hq, hid, -⟩ := h.wellFormed.kind?_eq_some.1 hk
    exact .inl (Tree.mem_ids_iff.2 ⟨q, hq, hid⟩)
  · exact .inr hu

theorem commitEffects (c : Contract) (target : NodeId) : (s.commitEffects c target).Tidy := by
  refine h.tagged fun n u hu => ?_
  rcases mem_tags_commitEffects.1 hu with ⟨-, hd⟩ | ⟨hu, -⟩
  · obtain ⟨q, hq, hid, -⟩ := h.wellFormed.mem_descendantsOfKind.1 hd
    exact .inl (Tree.mem_ids_iff.2 ⟨q, hq, hid⟩)
  · exact .inr hu

theorem commit (c : Contract) (expected : FactSet) (o : NodeId × Outcome τ) :
    (s.commit c expected o).Tidy := by
  rcases o with ⟨target, _ | staged | ⟨staged, e⟩⟩
  · exact h.commitEffects c target
  · exact (h.commitStaged expected staged).commitEffects c target
  · exact h.tagged fun n u hu => .inr (mem_tags_dropAll.1 hu).1

end Tidy

end Session

/-! ## Invocations -/

namespace Invocation

variable {inv after : Invocation τ} {site : Site} {n parent : NodeId} {kind : Kind} {name : String}

theorem graft_ok (h : inv.graft parent kind name = .ok (n, after)) :
    inv.session.tree.add parent kind name = .ok (n, after.session.tree) ∧
      after.session.store = inv.session.store := by
  obtain ⟨⟨m, tree⟩, hedit, h⟩ := bind_eq_ok.1 h
  cases h
  exact ⟨onTree_ok hedit, rfl⟩

theorem prune_ok {gone : List NodeId} (h : inv.prune n = .ok (gone, after)) :
    inv.session.tree.remove n = .ok (gone, after.session.tree) ∧
      after.session.store = inv.session.store := by
  obtain ⟨⟨gone', tree⟩, hedit, h⟩ := bind_eq_ok.1 h
  cases h
  exact ⟨onTree_ok hedit, rfl⟩

end Invocation

namespace Session.Tidy

open Invocation

variable {inv : Invocation τ} (h : inv.session.Tidy)

include h

theorem edited {after : Invocation τ} (he : inv.session.tree.Edit after.session.tree)
    (hstore : after.session.store = inv.session.store) : after.session.Tidy :=
  (h.edit he).congr rfl fun n => by rw [hstore]

/-- Answering any request, confined or not, keeps a session tidy. -/
theorem answer (site : Site) (r : Request τ) : (r.answer site inv).2.session.Tidy := by
  cases r with
  | poisoned => exact h
  | features => exact h
  | events => exact h
  | tree => exact h
  | node n => exact h
  | tags n => exact h
  | marker n t => exact h
  | put n m =>
    refine attempt_snd (P := fun inv => inv.session.Tidy) h fun a after he => ?_
    obtain ⟨-, -, he⟩ := bind_eq_ok.1 he
    cases he
    exact h
  | unmark n t =>
    refine attempt_snd (P := fun inv => inv.session.Tidy) h fun a after he => ?_
    obtain ⟨-, -, he⟩ := bind_eq_ok.1 he
    cases he
    exact h
  | add parent kind name =>
    refine attempt_snd (P := fun inv => inv.session.Tidy) h fun n after he => ?_
    obtain ⟨-, hedit, hstore, -⟩ := add_ok he
    exact h.edited (.add hedit) hstore
  | remove n =>
    refine attempt_snd (P := fun inv => inv.session.Tidy) h fun a after he => ?_
    obtain ⟨-, gone, hedit, hstore, -⟩ := remove_ok he
    exact h.edited (.remove hedit) hstore
  | clone source parent =>
    refine attempt_snd (P := fun inv => inv.session.Tidy) h fun n after he => ?_
    obtain ⟨-, pairs, hedit, hstore, -⟩ := clone_ok he
    exact h.edited (.clone hedit) hstore
  | rename n name =>
    refine attempt_snd (P := fun inv => inv.session.Tidy) h fun a after he => ?_
    obtain ⟨hedit, hstore, -⟩ := rename_ok he
    exact h.edited (.rename hedit) hstore
  | graft parent kind name =>
    refine attempt_snd (P := fun inv => inv.session.Tidy) h fun n after he => ?_
    obtain ⟨hedit, hstore⟩ := graft_ok he
    exact h.edited (.add hedit) hstore
  | prune n =>
    refine attempt_snd (P := fun inv => inv.session.Tidy) h fun gone after he => ?_
    obtain ⟨hedit, hstore⟩ := prune_ok he
    exact h.edited (.remove hedit) hstore
  | store n m => exact h.congr rfl fun n' => Store.tags_putMarker _ n n' m
  | record e => exact h.congr rfl fun _ => rfl
  | note n => exact h

theorem run (site : Site) (work : Work τ α) : (work.run site inv).2.session.Tidy := by
  induction work generalizing inv with
  | done a => exact h
  | ask r next ih => exact ih _ (h.answer site r)

end Session.Tidy

/-! ## Steps -/

namespace Session.Tidy

variable {r : Run τ} (h : r.session.Tidy)

include h

theorem runBody (p : Pass τ) (step : Step) (target : NodeId) :
    (p.runBody step target r).2.session.Tidy := by
  have start : (⟨r.session, .none, r.notes⟩ : Invocation τ).session.Tidy := h
  refine p.runBody_snd (P := fun inv => inv.session.Tidy) step start (start.run _ _) ?_
  exact fun inv broken hinv => hinv.congr rfl fun _ => rfl

theorem invoke (p : Pass τ) (step : Step) (target : NodeId) :
    (p.invoke step r target).2.session.Tidy :=
  p.invoke_snd step h (h.runBody p step target) fun _ _ _ hs => hs.congr rfl fun _ => rfl

/-- A step keeps a session tidy, however it ends. -/
theorem runStep (p : Pass τ) (step : Step) (targets : List NodeId) (expected : FactSet) :
    (p.runStep step targets expected r).2.session.Tidy :=
  p.runStep_snd step h (fun _ _ hs => hs.congr rfl fun _ => rfl)
    (fun n _ _ hr => hr.invoke p step n) fun _ o hs => hs.commit p.contract expected o

theorem runSteps (e : Engine τ) (steps : List Step) (st : Standing) :
    (e.runSteps steps st r).2.session.Tidy :=
  Engine.runSteps_snd h fun p step targets expected _ hr => hr.runStep p step targets expected

end Session.Tidy

/-! ## Sessions -/

namespace Session

variable {s : Session τ}

theorem Tidy.records (h : s.Tidy) (os : List Omission) :
    (os.foldl (fun s o => s.record (.remark .planWarning o.text)) s).Tidy := by
  induction os generalizing s with
  | nil => exact h
  | cons o os ih => exact ih (h.congr rfl fun _ => rfl)

theorem Tidy.close (h : s.Tidy) (c : Contract) (expected : FactSet) (task : NodeId × Ending τ) :
    (s.close c expected task).Tidy := by
  rcases task with ⟨n, outcome | staged | _⟩
  · exact h.commit c expected (n, outcome)
  · exact h.tagged fun m u hu => .inr (mem_tags_dropAll.1 hu).1
  · exact h

theorem lasting_tidy : Lasting fun s : Session τ => s.Tidy where
  congr h htree hstore _ := h.congr htree fun n => by rw [hstore]
  answer site r h := h.answer site r
  copy h hcopy := h.edit (.add (h.wellFormed.copyNode_ok hcopy).2.1)
  close c expected task h := h.close c expected task

/-- An execution keeps a session tidy, by however many it is made. -/
theorem Tidy.executes {e : Engine τ} {q : Plan} {workers : Workers}
    {answer : Except Stop (List StepReport)} {r : Run τ} (h : s.Tidy)
    (hexec : e.Executes workers q s answer r) : r.session.Tidy := by
  have opened : (Engine.opening q s).session.Tidy := (h.seed q.initial).records q.omissions
  cases hexec with
  | refused => exact h
  | failed _ hruns => exact (Engine.lasting_runsSteps lasting_tidy hruns opened).congr rfl fun _ => rfl
  | ended _ hruns => exact Engine.lasting_runsSteps lasting_tidy hruns opened

/-- The sessions there can be. -/
inductive Reachable : Session τ → Prop
  | new {t : Tree} (features : Features) : t.Built → Reachable (new t features)
  | edit {s : Session τ} {t : Tree} : Reachable s → s.tree.Edit t → Reachable { s with tree := t }
  | putMarker {s : Session τ} (n : NodeId) (m : Marker τ) :
    Reachable s → Reachable { s with store := (Store.putMarker s.store n m).2 }
  | takeMarker {s : Session τ} (n : NodeId) (t : τ) :
    Reachable s → Reachable { s with store := (Store.takeMarker s.store n t).2 }
  | record {s : Session τ} (e : Event) : Reachable s → Reachable (s.record e)
  | seed {s : Session τ} (initial : FactSet) : Reachable s → Reachable (s.seed initial)
  | executes {s : Session τ} {e : Engine τ} {q : Plan} {workers : Workers}
    {answer : Except Stop (List StepReport)} {r : Run τ} : Reachable s →
    e.Executes workers q s answer r → Reachable r.session

theorem Reachable.tidy (h : s.Reachable) : s.Tidy := by
  induction h with
  | new features ht => exact tidy_new ht.wellFormed features
  | edit _ he ih => exact ih.edit he
  | putMarker n m _ ih => exact ih.congr rfl fun n' => Store.tags_putMarker _ n n' m
  | takeMarker n t _ ih => exact ih.congr rfl fun n' => Store.tags_takeMarker _ n n' t
  | record e _ ih => exact ih.congr rfl fun _ => rfl
  | seed initial _ ih => exact ih.seed initial
  | executes _ hexec ih => exact ih.executes hexec

end Session

end Trellis
