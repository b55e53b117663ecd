/-
  Trellis.Proofs.Execution.Step — what a step does to the tags of a node.

  The frames of the invocations of a step add up to its trace: nodes from before the step that
  are still there stand where they stood, every new node was created below one of the targets,
  and until the commit the store is as it was (`Traced`).

  - `mem_tags_runStep`: after a step that succeeds, a node carries what it carried before, or,
    if it is new, what the plan expects of its kind, less the declared removals and plus the
    declared additions if it is below a target; invoked or skipped makes no difference.
-/
import Trellis.Proofs.Execution.Commit
import Trellis.Proofs.Execution.Frame
import Trellis.Proofs.Execution.Invariants
import Trellis.Proofs.Execution.Progress

namespace Trellis

open Trellis.Tree

variable {τ : Type} [MarkerFamily τ]

/-- What the invocation staged, if there was one. -/
def Outcome.staged? : Outcome τ → Option (Staged τ)
  | .skipped => none
  | .completed staged => some staged
  | .failed staged _ => some staged

namespace Outcome

variable {outcomes : List (NodeId × Outcome τ)}

omit [MarkerFamily τ] in
theorem not_failed (hf : failure? outcomes = none) (target : NodeId) (staged : Staged τ) (e : Error) :
    (target, failed staged e) ∉ outcomes := by
  intro ho
  have := List.findSome?_eq_none_iff.1 hf _ ho
  cases this

omit [MarkerFamily τ] in
theorem eq_completed (hf : failure? outcomes = none) {o : NodeId × Outcome τ} (ho : o ∈ outcomes)
    {staged : Staged τ} (hs : o.2.staged? = some staged) : o.2 = .completed staged := by
  rcases o with ⟨target, _ | staged' | ⟨staged', e⟩⟩
  · cases hs
  · cases hs
    rfl
  · exact absurd ho (not_failed hf target staged' e)

end Outcome

/-- What holds after some invocations that began in session `s`, before they are committed. -/
structure Traced (s : Session τ) (outcomes : List (NodeId × Outcome τ)) (s' : Session τ) : Prop where
  wellFormed : s'.tree.WellFormed
  store : s'.store = s.store
  next : s.tree.next ≤ s'.tree.next
  old : ∀ q ∈ s'.tree.places, q.id < s.tree.next → q ∈ s.tree.places
  new : ∀ q ∈ s'.tree.places, s.tree.next ≤ q.id →
    ∃ o ∈ outcomes, ∃ staged ∈ o.2.staged?, q.id ∈ staged.created
  created : ∀ o ∈ outcomes, ∀ staged ∈ o.2.staged?, ∀ n ∈ staged.created,
    s.tree.next ≤ n ∧ n < s'.tree.next
  owned : ∀ o ∈ outcomes, ∀ staged ∈ o.2.staged?, ∀ q ∈ s'.tree.places, q.id ∈ staged.created →
    q.Within o.1
  removed : ∀ o ∈ outcomes, ∀ staged ∈ o.2.staged?, ∀ n ∈ staged.removed,
    n < s'.tree.next ∧ n ∉ s'.tree.ids

namespace Traced

variable {s s₁ s₂ : Session τ} {outcomes os₁ os₂ : List (NodeId × Outcome τ)} {target n : NodeId}

theorem nil (h : s.tree.WellFormed) (htree : s₁.tree = s.tree) (hstore : s₁.store = s.store) :
    Traced s [] s₁ where
  wellFormed := by
    rw [htree]
    exact h
  store := hstore
  next := Nat.le_of_eq (congrArg Tree.next htree.symm)
  old := by
    rw [htree]
    exact fun _ hq _ => hq
  new q hq hle := by
    rw [htree] at hq
    exact absurd (h.lt_next hq) (Nat.not_lt.2 hle)
  created _ ho := absurd ho List.not_mem_nil
  owned _ ho := absurd ho List.not_mem_nil
  removed _ ho := absurd ho List.not_mem_nil

theorem append (h : Traced s os₁ s₁) (k : Traced s₁ os₂ s₂) : Traced s (os₁ ++ os₂) s₂ where
  wellFormed := k.wellFormed
  store := k.store.trans h.store
  next := Nat.le_trans h.next k.next
  old q hq hlt := h.old q (k.old q hq (Nat.lt_of_lt_of_le hlt h.next)) hlt
  new q hq hle := by
    by_cases hlt : q.id < s₁.tree.next
    · obtain ⟨o, ho, hs⟩ := h.new q (k.old q hq hlt) hle
      exact ⟨o, List.mem_append_left _ ho, hs⟩
    · obtain ⟨o, ho, hs⟩ := k.new q hq (Nat.not_lt.1 hlt)
      exact ⟨o, List.mem_append_right _ ho, hs⟩
  created o ho staged hs n hn := by
    rcases List.mem_append.1 ho with ho | ho
    · obtain ⟨hle, hlt⟩ := h.created o ho staged hs n hn
      exact ⟨hle, Nat.lt_of_lt_of_le hlt k.next⟩
    · obtain ⟨hle, hlt⟩ := k.created o ho staged hs n hn
      exact ⟨Nat.le_trans h.next hle, hlt⟩
  owned o ho staged hs q hq hc := by
    rcases List.mem_append.1 ho with ho | ho
    · have hlt := (h.created o ho staged hs q.id hc).2
      exact h.owned o ho staged hs q (k.old q hq hlt) hc
    · exact k.owned o ho staged hs q hq hc
  removed o ho staged hs n hn := by
    rcases List.mem_append.1 ho with ho | ho
    · obtain ⟨hlt, hgone⟩ := h.removed o ho staged hs n hn
      refine ⟨Nat.lt_of_lt_of_le hlt k.next, fun hids => hgone ?_⟩
      obtain ⟨q, hq, rfl⟩ := mem_ids_iff.1 hids
      exact mem_ids_iff.2 ⟨q, k.old q hq hlt, rfl⟩
    · exact k.removed o ho staged hs n hn

theorem skip (h : s.tree.WellFormed) (htree : s₁.tree = s.tree) (hstore : s₁.store = s.store) :
    Traced s [(target, .skipped)] s₁ := by
  have begun := nil h htree hstore
  refine ⟨begun.wellFormed, hstore, begun.next, begun.old, ?_, ?_, ?_, ?_⟩
  · intro q hq hle
    obtain ⟨o, ho, -⟩ := begun.new q hq hle
    exact absurd ho List.not_mem_nil
  all_goals
    intro o ho staged hs
    cases List.mem_singleton.1 ho
    cases hs

/-- A single invocation with its frame. -/
theorem single {outcome : Outcome τ} {inv : Invocation τ} (h : inv.Frame s target)
    (hs : outcome.staged? = some inv.staged) (htree : s₁.tree = inv.session.tree)
    (hstore : s₁.store = inv.session.store) : Traced s [(target, outcome)] s₁ := by
  refine ⟨?_, hstore.trans h.store, ?_, ?_, ?_, ?_, ?_, ?_⟩
  · rw [htree]
    exact h.wellFormed
  · rw [htree]
    exact h.next
  · rw [htree]
    exact h.old
  · intro q hq hle
    rw [htree] at hq
    exact ⟨_, List.mem_cons_self, inv.staged, hs, (h.new q hq hle).2⟩
  all_goals
    intro o ho staged hst
    cases List.mem_singleton.1 ho
    cases hs.symm.trans hst
    rw [htree]
  · exact h.created
  · exact fun q hq hc => (h.new q hq (h.created q.id hc).1).1
  · exact h.removed

/-! What the commit asks of a node that is there after the invocations. -/

variable {q : Place}

theorem created_iff (h : Traced s outcomes s₁) (hf : Outcome.failure? outcomes = none)
    (hq : q ∈ s₁.tree.places) : Session.Created outcomes q.id ↔ s.tree.next ≤ q.id := by
  constructor
  · intro hc
    obtain ⟨t, staged, ho, hc⟩ := hc
    exact (h.created _ ho staged rfl q.id hc).1
  · intro hle
    obtain ⟨⟨t, outcome⟩, ho, staged, hs, hc⟩ := h.new q hq hle
    cases Outcome.eq_completed hf ho hs
    exact ⟨t, staged, ho, hc⟩

theorem reached_iff (h : Traced s outcomes s₁) (hq : q ∈ s₁.tree.places) {k : Kind} :
    Session.Reached s₁.tree outcomes k q.id ↔ k = q.kind ∧ ∃ t ∈ outcomes.map Prod.fst, q.Within t := by
  unfold Session.Reached
  simp only [h.wellFormed.mem_descendantsOfKind, List.mem_map]
  constructor
  · intro hr
    obtain ⟨o, ho, q', hq', hid, hk, hw⟩ := hr
    cases h.wellFormed.eq_of_id_eq hq' hq hid
    exact ⟨hk.symm, o.1, ⟨o, ho, rfl⟩, hw⟩
  · intro hr
    obtain ⟨hk, t, ⟨o, ho, rfl⟩, hw⟩ := hr
    exact ⟨o, ho, q, hq, rfl, hk.symm, hw⟩

theorem spares (h : Traced s outcomes s₁) (hf : Outcome.failure? outcomes = none)
    (hq : q ∈ s₁.tree.places) : Session.Spares s₁.tree outcomes q.id where
  succeeds := Outcome.not_failed hf
  keeps t staged ho hgone := (h.removed _ ho staged rfl q.id hgone).2 (mem_ids_iff.2 ⟨q, hq, rfl⟩)
  owns t staged k ho hc hk := by
    rw [h.wellFormed.kind?_of_mem hq] at hk
    cases hk
    rw [h.wellFormed.mem_descendantsOfKind]
    exact ⟨q, hq, rfl, rfl, h.owned _ ho staged rfl q hq hc⟩

end Traced

/-! ## Invoking -/

namespace Pass

variable {p : Pass τ} {step : Step} {target n : NodeId} {r r' : Run τ} {outcome : Outcome τ}
  {outcomes : List (NodeId × Outcome τ)} {targets : List NodeId}

/-- However it is answered, and wherever it runs, the body is confined. -/
def Confined (p : Pass τ) : Prop := ∀ site, (p.body site).Confined

theorem frame_runBody (hp : p.Confined) (h : r.session.tree.WellFormed) :
    Invocation.Frame r.session target (p.runBody step target r).2 := by
  have start : Invocation.Frame r.session target ⟨r.session, .none, r.notes⟩ :=
    Invocation.frame_start h r.notes
  refine p.runBody_snd step start (start.run rfl (hp _)) ?_
  exact fun inv broken hinv => hinv.congr hinv.wellFormed rfl rfl rfl rfl rfl

/-- An invocation that does not crash has skipped its target, or ends where its body does. -/
theorem invoke_ok (he : p.invoke step r target = (.ok outcome, r')) :
    outcome = .skipped ∧ r'.session.tree = r.session.tree ∧ r'.session.store = r.session.store ∨
      ∃ inv, inv = (p.runBody step target r).2 ∧ outcome.staged? = some inv.staged ∧
        r'.session.tree = inv.session.tree ∧ r'.session.store = inv.session.store := by
  unfold invoke at he
  split at he
  · split at he
    · rename_i inv hrun
      cases he
      exact .inr ⟨inv, by rw [hrun], rfl, rfl, rfl⟩
    · rename_i source inv hrun
      cases he
      exact .inr ⟨inv, by rw [hrun], rfl, rfl, rfl⟩
    · cases he
  · cases he
    exact .inl ⟨rfl, rfl, rfl⟩

theorem traced_invoke (hp : p.Confined) (h : r.session.tree.WellFormed)
    (he : p.invoke step r target = (.ok outcome, r')) :
    Traced r.session [(target, outcome)] r'.session := by
  rcases invoke_ok he with ⟨rfl, htree, hstore⟩ | ⟨inv, rfl, hs, htree, hstore⟩
  · exact .skip h htree hstore
  · exact .single (frame_runBody hp h) hs htree hstore

theorem traced_invokeAll (hp : p.Confined) (h : r.session.tree.WellFormed)
    (he : p.invokeAll step targets r = (.ok outcomes, r')) :
    Traced r.session outcomes r'.session := by
  rw [invokeAll_ok] at he
  induction he with
  | nil => exact .nil h rfl rfl
  | failed hinv => exact traced_invoke hp h hinv
  | next _ hinv _ ih =>
    have first := traced_invoke hp h hinv
    exact first.append (ih first.wellFormed)

/-- Without failure every target has an outcome. -/
theorem targets_of_invokeAll (he : p.invokeAll step targets r = (.ok outcomes, r'))
    (hf : Outcome.failure? outcomes = none) : outcomes.map Prod.fst = targets := by
  rw [invokeAll_ok] at he
  induction he with
  | nil => rfl
  | failed => cases hf
  | next hne _ _ ih =>
    rw [Outcome.failure?_cons hne] at hf
    rw [List.map_cons, ih hf]

/-! ## The whole step -/

variable {expected : FactSet} {report : StepReport} {q : Place} {u : Tag}

theorem traced_runStep (hp : p.Confined) (h : r.session.tree.WellFormed)
    (he : p.runStep step targets expected r = (.ok report, r')) : ∃ outcomes s,
      Traced r.session outcomes s ∧ Outcome.failure? outcomes = none ∧
      outcomes.map Prod.fst = targets ∧ r'.session.tree = s.tree ∧
      r'.session.store = (outcomes.foldl (Session.commit p.contract expected) s).store := by
  obtain ⟨_, ⟨⟩⟩ | ⟨outcomes, r₁, hinv, ⟨_, -, ⟨⟩, -⟩ | ⟨hf, _, -, ⟨⟩, rfl⟩⟩ := runStep_cases he
  have announced : Traced r.session [] (r.announce step targets.length).session := .nil h rfl rfl
  have trace := announced.append (traced_invokeAll hp announced.wellFormed hinv)
  refine ⟨outcomes, r₁.session, trace, hf, targets_of_invokeAll hinv hf, ?_, rfl⟩
  have trees (os : List (NodeId × Outcome τ)) (s : Session τ) :
      (os.foldl (Session.commit p.contract expected) s).tree = s.tree := by
    induction os generalizing s with
    | nil => rfl
    | cons o os ih => rw [List.foldl_cons, ih, Session.commit_tree]
  exact trees _ _

/-- A node that the step made is below a target, any other stands where it stood. -/
theorem mem_places_runStep (hp : p.Confined) (h : r.session.tree.WellFormed)
    (he : p.runStep step targets expected r = (.ok report, r')) (hq : q ∈ r'.session.tree.places) :
    q.id < r.session.tree.next ∧ q ∈ r.session.tree.places ∨
      r.session.tree.next ≤ q.id ∧ ∃ t ∈ targets, q.Within t := by
  obtain ⟨outcomes, s, trace, -, htargets, htree, -⟩ := traced_runStep hp h he
  rw [htree] at hq
  rcases Nat.lt_or_ge q.id r.session.tree.next with hlt | hle
  · exact .inl ⟨hlt, trace.old q hq hlt⟩
  · obtain ⟨o, ho, staged, hs, hc⟩ := trace.new q hq hle
    refine .inr ⟨hle, o.1, ?_, trace.owned o ho staged hs q hq hc⟩
    rw [← htargets]
    exact List.mem_map_of_mem ho

/-- The node-wise law of a step that succeeds. -/
theorem mem_tags_runStep (hp : p.Confined) (hv : p.contract.Valid) (h : r.session.tree.WellFormed)
    (he : p.runStep step targets expected r = (.ok report, r')) (hq : q ∈ r'.session.tree.places) :
    u ∈ Store.tags r'.session.store q.id ↔
      Fact.tag u ∈ p.contract.adds ∧ u.scope = q.kind ∧ (∃ t ∈ targets, q.Within t) ∨
      (r.session.tree.next ≤ q.id ∧ u.scope = q.kind ∧ Fact.tag u ∈ expected ∨
        u ∈ Store.tags r.session.store q.id) ∧
        ¬ (Fact.tag u ∈ p.contract.removes ∧ u.scope = q.kind ∧ ∃ t ∈ targets, q.Within t) := by
  obtain ⟨outcomes, s, trace, hf, htargets, htree, hstore⟩ := traced_runStep hp h he
  rw [htree] at hq
  have kind : s.tree.kind? q.id = some u.scope ↔ u.scope = q.kind := by
    rw [trace.wellFormed.kind?_of_mem hq, Option.some.injEq, eq_comm]
  rw [hstore, Session.mem_tags_commitAll (trace.spares hf hq) (hv.disjoint _),
    trace.created_iff hf hq, trace.reached_iff hq, htargets, kind, trace.store]

end Pass

end Trellis
