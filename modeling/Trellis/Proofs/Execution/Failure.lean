/-
  Trellis.Proofs.Execution.Failure — what a failing invocation leaves behind.

  The nodes of a step fall into three parts: those before the one that fails, that one, and those
  after it. Bodies keep to the subtree of their node, and the nodes are apart, so what became of
  each part can be told by itself (`Halted`): the first are committed, below the second the tree
  is edited and the store is not, and the third are as the step found them.

  - `failure_commits_before`: so it is whenever an invocation fails, and the execution ends there
    with the error of the unit, in a poisoned session.
  - `failure_is_not_clean`: entries that the store has under numbers not yet given out pass to the
    nodes that get them, and a body may record events about any node.
-/
import Trellis.Proofs.Execution.Events
import Trellis.Proofs.Execution.Isolation
import Trellis.Proofs.Execution.Progress
import Trellis.Proofs.Execution.Refinement
import Trellis.Proofs.Tree.Routes

namespace Trellis

open Trellis.Tree

variable {τ : Type} [MarkerFamily τ]

/-! ## Where a step halts -/

/-- The moment at which invocations that began in session `s` have come to `outcomes` and session
    `s₁`, the one on `t` has ended as `inv`, and those on `after` are yet to come. -/
structure Halted (s s₁ : Session τ) (outcomes : List (NodeId × Outcome τ)) (t : NodeId)
    (inv : Invocation τ) (after : List NodeId) : Prop where
  wellFormed : s.tree.WellFormed
  live : ∀ n ∈ outcomes.map Prod.fst ++ t :: after, ∃ p ∈ s.tree.places, p.id = n
  apart : (outcomes.map Prod.fst ++ t :: after).Pairwise s.tree.Apart
  before : Secluded s outcomes s₁
  failing : inv.Isolated s₁ t

namespace Halted

variable {s s₁ : Session τ} {outcomes : List (NodeId × Outcome τ)} {t : NodeId} {inv : Invocation τ}
  {after : List NodeId} (h : Halted s s₁ outcomes t inv after) {o : NodeId × Outcome τ} {a x : NodeId}
  {q : Place} (c : Contract) (expected : FactSet)

include h

theorem lt_next (ha : a ∈ outcomes.map Prod.fst ++ t :: after) : a < s.tree.next := by
  obtain ⟨p, hp, rfl⟩ := h.live a ha
  exact h.wellFormed.lt_next hp

theorem apart_before (ho : o ∈ outcomes) (hx : x ∈ t :: after) : s.tree.Apart o.1 x :=
  (List.pairwise_append.1 h.apart).2.2 o.1 (List.mem_map_of_mem ho) x hx

theorem apart_after (ha : a ∈ after) : s.tree.Apart t a :=
  (List.pairwise_cons.1 (List.pairwise_append.1 h.apart).2.1).1 a ha

/-- The nodes of the step are still apart when the failing invocation begins. -/
theorem still_apart {a b : NodeId} (hab : s.tree.Apart a b)
    (ha : a ∈ outcomes.map Prod.fst ++ t :: after) (hb : b ∈ outcomes.map Prod.fst ++ t :: after) :
    s₁.tree.Apart a b :=
  hab.keep (fun q hq e => h.before.old q hq (e ▸ h.lt_next ha))
    fun q hq e => h.before.old q hq (e ▸ h.lt_next hb)

theorem still_apart_before (ho : o ∈ outcomes) (hx : x ∈ t :: after) : s₁.tree.Apart o.1 x :=
  h.still_apart (h.apart_before ho hx) (List.mem_append_left _ (List.mem_map_of_mem ho))
    (List.mem_append_right _ hx)

/-- The failing invocation as a list of one. -/
theorem last (e : Error) : Secluded s₁ [(t, .failed inv.staged e)] inv.session :=
  .single h.failing rfl rfl rfl

/-! What is below each node of the step. -/

theorem subtree?_before (ho : o ∈ outcomes) :
    inv.session.tree.whole.subtree? o.1 = s₁.tree.whole.subtree? o.1 := by
  have ho' : o.1 ∈ outcomes.map Prod.fst ++ t :: after :=
    List.mem_append_left _ (List.mem_map_of_mem ho)
  refine (h.last .sessionPoisoned).subtree?_eq (Nat.lt_of_lt_of_le (h.lt_next ho') h.before.next) ?_
  intro o' ho'
  rw [List.mem_singleton.1 ho']
  exact h.still_apart_before ho List.mem_cons_self

theorem subtree?_rest (hx : x ∈ t :: after) :
    s₁.tree.whole.subtree? x = s.tree.whole.subtree? x :=
  h.before.subtree?_eq (h.lt_next (List.mem_append_right _ hx)) fun _ ho => (h.apart_before ho hx).symm

theorem subtree?_after (ha : a ∈ after) :
    inv.session.tree.whole.subtree? a = s.tree.whole.subtree? a := by
  have ht : t ∈ outcomes.map Prod.fst ++ t :: after := List.mem_append_right _ List.mem_cons_self
  have ha' : a ∈ outcomes.map Prod.fst ++ t :: after :=
    List.mem_append_right _ (List.mem_cons_of_mem _ ha)
  refine ((h.last .sessionPoisoned).subtree?_eq
    (Nat.lt_of_lt_of_le (h.lt_next ha') h.before.next) ?_).trans
    (h.subtree?_rest (List.mem_cons_of_mem _ ha))
  intro o ho
  rw [List.mem_singleton.1 ho]
  exact (h.still_apart (h.apart_after ha) ht ha').symm

/-! What is committed. -/

/-- The edits of the failing invocation make no difference to the commits before it. -/
theorem store_commitAll {s₂ : Session τ} (htree : s₂.tree = inv.session.tree)
    (hstore : s₂.store = inv.session.store) :
    (outcomes.foldl (Session.commit c expected) s₂).store =
      (outcomes.foldl (Session.commit c expected) s₁).store := by
  refine (Session.commitAll_store_congr (h.failing.store.symm.trans hstore.symm) fun o ho => ?_).symm
  have ho' : o.1 ∈ outcomes.map Prod.fst ++ t :: after :=
    List.mem_append_left _ (List.mem_map_of_mem ho)
  rw [htree]
  refine (h.last .sessionPoisoned).alike h.before.wellFormed
    (Nat.lt_of_lt_of_le (h.lt_next ho') h.before.next) ?_ fun n hn => h.before.inside_of_touches ho hn
  intro o' ho'
  rw [List.mem_singleton.1 ho']
  exact h.still_apart_before ho List.mem_cons_self

/-- Nor do the commits reach what is below the other nodes. -/
theorem lookup_commitAll (hq : q ∈ inv.session.tree.places) (hx : x ∈ t :: after) (hw : q.Within x) :
    Store.lookup (outcomes.foldl (Session.commit c expected) s₁).store q.id =
      Store.lookup s.store q.id := by
  rw [← h.before.store]
  refine Session.lookup_commitAll fun o ho htouch => ?_
  obtain ⟨hlt, hin⟩ := h.before.inside_of_touches ho htouch
  have hq₁ := h.failing.old q hq hlt
  exact h.still_apart_before ho hx q hq₁ (hin q hq₁ rfl) hw

theorem lookup_dropAll {n : NodeId} (hn : n ∈ inv.session.tree.descendants x) (store : Store τ) :
    Store.lookup (Session.dropAll store inv.staged.removed) n = Store.lookup store n := by
  obtain ⟨q, hq, rfl, -⟩ := h.failing.wellFormed.mem_descendants.1 hn
  rw [Session.lookup_dropAll, if_neg]
  exact fun hgone => (h.failing.removed q.id hgone).2 (mem_ids_iff.2 ⟨q, hq, rfl⟩)

theorem lookup_rest {n : NodeId} (hx : x ∈ t :: after) (hn : n ∈ inv.session.tree.descendants x) :
    Store.lookup (Session.dropAll (outcomes.foldl (Session.commit c expected) s₁).store
      inv.staged.removed) n = Store.lookup s.store n := by
  rw [h.lookup_dropAll hn]
  obtain ⟨q, hq, rfl, hw⟩ := h.failing.wellFormed.mem_descendants.1 hn
  exact h.lookup_commitAll c expected hq hx hw

/-- What was below the target, or was made there, and is not there now, is forgotten. -/
theorem mem_removed {n : NodeId} (hlt : n < inv.session.tree.next)
    (hn : n ∈ s₁.tree.descendants t ∨ s₁.tree.next ≤ n) (hgone : n ∉ inv.session.tree.ids) :
    n ∈ inv.staged.removed := by
  refine h.failing.forgotten n hlt (hn.imp_left fun hd => ?_) hgone
  obtain ⟨q, hq, rfl, -⟩ := h.before.wellFormed.mem_descendants.1 hd
  exact mem_ids_iff.2 ⟨q, hq, rfl⟩

theorem mem_descendants_of_made {n : NodeId} (hn : n ∈ inv.session.tree.ids) (hle : s₁.tree.next ≤ n) :
    n ∈ inv.session.tree.descendants t := by
  obtain ⟨q, hq, rfl⟩ := mem_ids_iff.1 hn
  exact h.failing.wellFormed.mem_descendants.2 ⟨q, hq, rfl, (h.failing.new q hq hle).1⟩

end Halted

/-! ## Executions that fail -/

/-- The event does not say of any of the nodes `after` that it was skipped or that its invocation
    ended, unless a body recorded it on one of the nodes `done`. -/
def Pass.QuietAbout (p : Pass τ) (step : Step) (after done : List NodeId) (event : Event) : Prop :=
  ∀ a ∈ after, event.node = some a →
    event.kind ∈ [.nodeSkipped, .invocationCompleted, .invocationFailed] →
    ∃ n ∈ done, (p.body ⟨step.unit, n, step.granularity⟩).Records event

/-- How things stand when an execution has ended because of an invocation that failed on node `t`
    of a step, having come to `outcomes` on the nodes `before` it. The step began in run `r`, the
    invocation in run `r₁`; it ended as `inv` with the error `source`. -/
structure Aftermath (q : Plan) (p : Pass τ) (step : Step) (expected : FactSet) (before : List NodeId)
    (t : NodeId) (after : List NodeId) (r r₁ : Run τ) (outcomes : List (NodeId × Outcome τ))
    (inv : Invocation τ) (source : Error) (r' : Run τ) : Prop where
  /-- The error is the unit's own, or the unit wanted a lock that is broken. -/
  cause : (p.body ⟨step.unit, t, step.granularity⟩).run ⟨step.unit, t, step.granularity⟩
      ⟨r₁.session, .none, r₁.notes⟩ = (.error (.failed source), inv) ∨
    step.exclusive = true ∧ r₁.session.lockBroken = true ∧ source = .lockBroken ∧
      inv = ⟨r₁.session, .none, r₁.notes⟩
  invoked : outcomes.map Prod.fst = before
  tree : r'.session.tree = inv.session.tree
  store : r'.session.store = Session.dropAll
    (outcomes.foldl (Session.commit p.contract expected) r₁.session).store inv.staged.removed
  /-- Below the nodes before, all is as if they had been committed and no more had been done. -/
  committed : ∀ b ∈ before,
    r'.session.tree.whole.subtree? b = r₁.session.tree.whole.subtree? b ∧
    ∀ n ∈ r'.session.tree.descendants b, Store.lookup r'.session.store n =
      Store.lookup (outcomes.foldl (Session.commit p.contract expected) r₁.session).store n
  /-- The invocation found its target as the step had found it. -/
  found : r₁.session.tree.whole.subtree? t = r.session.tree.whole.subtree? t
  /-- What is below the target now has what the store had under its number before the step. -/
  kept : ∀ n ∈ r'.session.tree.descendants t,
    Store.lookup r'.session.store n = Store.lookup r.session.store n
  /-- What the invocation made, and is still there, is below the target. -/
  made : ∀ n ∈ r'.session.tree.ids, r₁.session.tree.next ≤ n → n ∈ r'.session.tree.descendants t
  /-- What was below the target, or was made, and is not there now, has no entry. -/
  gone : ∀ n < r'.session.tree.next,
    n ∈ r₁.session.tree.descendants t ∨ r₁.session.tree.next ≤ n → n ∉ r'.session.tree.ids →
    Store.lookup r'.session.store n = none
  /-- Below the nodes after, all is as the step found it. -/
  untouched : ∀ a ∈ after,
    r'.session.tree.whole.subtree? a = r.session.tree.whole.subtree? a ∧
    ∀ n ∈ r'.session.tree.descendants a,
      Store.lookup r'.session.store n = Store.lookup r.session.store n
  /-- Of the nodes after nothing is told but what a body records. -/
  untold : EventLog.Adds (p.QuietAbout step after (before ++ [t])) r.session.events r'.session.events
  /-- The failure is the last that happens: no step begins after it. -/
  events : r'.session.events = (inv.session.events.record ⟨.invocationFailed, step.unit, t,
      (Error.invocation step.unit t source).message, unmeasured⟩).record
    (.remark .error
      s!"Execution of {q.text} failed: {(Error.invocation step.unit t source).message}")
  signals : r'.signals =
    r₁.signals ++ [.invocationFailed step.unit t (.invocation step.unit t source)]
  poisoned : r'.session.poisoned = true

namespace Pass

variable {p : Pass τ} {step : Step} {target : NodeId} {r : Run τ} {source : Error} {inv : Invocation τ}

theorem runBody_failed (h : p.runBody step target r = (.error (.failed source), inv)) :
    (p.body ⟨step.unit, target, step.granularity⟩).run ⟨step.unit, target, step.granularity⟩
        ⟨r.session, .none, r.notes⟩ = (.error (.failed source), inv) ∨
      step.exclusive = true ∧ r.session.lockBroken = true ∧ source = .lockBroken ∧
        inv = ⟨r.session, .none, r.notes⟩ := by
  unfold runBody at h
  dsimp only at h
  split at h
  · rename_i hlock
    rw [Bool.and_eq_true] at hlock
    cases h
    exact .inr ⟨hlock.1, hlock.2, rfl, rfl⟩
  · split at h
    · cases h
    · exact .inl h

/-- The nodes of a step are apart, so the frames of its invocations say where it halts. -/
theorem halted {before after : List NodeId} {r₁ : Run τ} {outcomes : List (NodeId × Outcome τ)}
    (hp : p.Proper) (h : r.session.tree.WellFormed)
    (hlive : ∀ n ∈ before ++ target :: after, ∃ p ∈ r.session.tree.places, p.id = n)
    (hapart : (before ++ target :: after).Pairwise r.session.tree.Apart)
    (hbefore : p.invokeAll step before r = (.ok outcomes, r₁))
    (hnone : Outcome.failure? outcomes = none) (hrun : (p.runBody step target r₁).2 = inv) :
    Halted r.session r₁.session outcomes target inv after := by
  have live {n : NodeId} (hn : n ∈ before ++ target :: after) : n < r.session.tree.next := by
    obtain ⟨p, hp, rfl⟩ := hlive n hn
    exact h.lt_next hp
  obtain ⟨first, -⟩ := secluded_invokeAll hp.isolates h (fun n hn => live (List.mem_append_left _ hn)) hbefore
  have ht : target < r₁.session.tree.next :=
    Nat.lt_of_lt_of_le (live (List.mem_append_right _ List.mem_cons_self)) first.next
  have isolated : inv.Isolated r₁.session target := hrun ▸ isolated_runBody hp first.wellFormed ht
  have hinvoked := targets_of_invokeAll hbefore hnone
  exact ⟨h, by rwa [hinvoked], by rwa [hinvoked], first, isolated⟩

/-- What a step that halts commits. -/
theorem runStep_halted {s : Session τ} {before after : List NodeId} {r₁ r₂ : Run τ}
    {outcomes : List (NodeId × Outcome τ)} {error : Error} {event : Event}
    (h : Halted s r₁.session outcomes target inv after) (expected : FactSet)
    (hbefore : p.invokeAll step before (r.announce step (before ++ target :: after).length) =
      (.ok outcomes, r₁))
    (hnone : Outcome.failure? outcomes = none)
    (hfail : p.invoke step r₁ target = (.ok (.failed inv.staged error), r₂))
    (hsession : r₂.session = inv.session.record event) :
    ∃ r₃, p.runStep step (before ++ target :: after) expected r = (.error (.failed error), r₃) ∧
      r₃.session.tree = inv.session.tree ∧
      r₃.session.store = Session.dropAll
        (outcomes.foldl (Session.commit p.contract expected) r₁.session).store inv.staged.removed ∧
      r₃.session.events = inv.session.events.record event ∧ r₃.signals = r₂.signals := by
  have all := Session.commitAll_eq p.contract expected (outcomes ++ [(target, .failed inv.staged error)])
    r₂.session
  have htree : r₂.session.tree = inv.session.tree := by
    rw [hsession]
    rfl
  have hstore : r₂.session.store = inv.session.store := by
    rw [hsession]
    rfl
  refine ⟨_, runStep_of_failed after expected hbefore hnone hfail, ?_, ?_, ?_, rfl⟩
  · exact (congrArg Session.tree all).trans htree
  · rw [List.foldl_append, List.foldl_cons, List.foldl_nil, ← h.store_commitAll p.contract expected
      htree hstore]
    rfl
  · refine (congrArg Session.events all).trans ?_
    rw [hsession]
    rfl

theorem quietAbout_of_node_eq_none {after done : List NodeId} {event : Event} (h : event.node = none) :
    p.QuietAbout step after done event := by
  intro a _ hnode
  rw [h] at hnode
  cases hnode

/-- Whatever is told during a step of a node after the one that fails, a body tells it. -/
theorem adds_failed {before after : List NodeId} {r₁ r₂ : Run τ} {outcomes : List (NodeId × Outcome τ)}
    {outcome : Outcome τ} (hafter : ∀ a ∈ after, a ∉ before ++ [target])
    (hbefore : p.invokeAll step before r = (.ok outcomes, r₁))
    (hfail : p.invoke step r₁ target = (.ok outcome, r₂)) :
    EventLog.Adds (p.QuietAbout step after (before ++ [target])) r.session.events r₂.session.events := by
  have first := p.adds_invokeAll step r before
  have last := p.adds_invoke step r₁ target
  rw [hbefore] at first
  rw [hfail] at last
  have told : EventLog.Adds (fun event => ∃ n ∈ before ++ [target], p.Tells step n event)
      r.session.events r₂.session.events := by
    refine (first.imp fun event he => ?_).trans (last.imp fun event he => ?_)
    · obtain ⟨n, hn, he⟩ := he
      exact ⟨n, List.mem_append_left _ hn, he⟩
    · exact ⟨target, by simp, he⟩
  refine told.imp fun event he a ha hnode hkind => ?_
  obtain ⟨n, hn, hrecords | hstructural | hn'⟩ := he
  · exact ⟨n, hn, hrecords⟩
  · simp only [List.mem_cons, List.not_mem_nil, or_false] at hkind
    rcases hkind with hk | hk | hk <;> rw [hk] at hstructural <;> cases hstructural
  · rw [hnode] at hn'
    cases hn'
    exact absurd hn (hafter a ha)

end Pass

namespace Engine

variable {e : Engine τ} {steps rest : List Step} {st st' : Standing} {r r' : Run τ}

theorem Reaches.tidy (h : e.Reaches steps st r rest st' r') (hr : r.session.Tidy) : r'.session.Tidy := by
  induction h with
  | here => exact hr
  | @next step _ _ st _ _ _ _ p targets _ _ hstep _ ih =>
    have kept := hr.runStep p step targets st.expected
    rw [hstep] at kept
    exact ih kept

end Engine

/-- A package with three types. -/
def Tree.trio : Tree where
  whole := .node 0 .program "app" (.node 1 .package "core"
    (.node 2 .type "A" (.node 3 .method "f" .empty .empty)
      (.node 4 .type "B" .empty (.node 5 .type "C" .empty .empty))) .empty) .empty
  next := 6

theorem Tree.built_trio : Tree.trio.Built := by
  have second := Built.edit Tree.built_sample (.add (show Tree.add _ 1 .type "B" = .ok (4, _) from rfl))
  exact second.edit (.add (show Tree.add _ 1 .type "C" = .ok (5, Tree.trio) from rfl))

def outlined : Tag := ⟨"outlined", .type⟩

def outline : Contract where
  name := "outline"
  description := ""
  granularity := .type
  needs := ∅
  adds := Sorted.ofList [.tag outlined]
  removes := ∅
  features := ∅
  uses := ∅
  exclusive := true
  orderHint := 0

def outlines : Plan := ⟨.maximal, ∅, [.ofContract outline], Sorted.ofList [.tag outlined], []⟩

/-- An engine with a crew of one. -/
def Engine.alone (p : Pass StockMarker) : Engine StockMarker := ⟨Sorted.ofList [p], AdapterSet.standard, true⟩

def Pass.outlining : Pass StockMarker where
  contract := outline
  filter? := none
  body site := .ask (.add site.target .method "outline") fun _ =>
    .done (if site.target = 4 then .error (.failed (.other "no outline")) else .ok ())

/-- A session that has something stored under the next number to be given out. -/
def early : Session StockMarker :=
  let s := Session.new Tree.trio ∅
  { s with store := (Store.putMarker s.store 6 ⟨.label, .text "early"⟩).2 }

namespace Pass

/-- Says that the last type is skipped, and fails on the first. -/
def hasty : Pass StockMarker where
  contract := outline
  filter? := none
  body site := .ask (.record ⟨.nodeSkipped, "outline", some 5, "", none⟩) fun _ =>
    .ask (.add site.target .method "outline") fun _ => .done (.error (.failed (.other "no outline")))

def crashing : Pass StockMarker := { hasty with body := fun _ => .done (.error (.crashed "gone")) }

end Pass

namespace Engine

/-- The only step of the plan ends its run. -/
theorem runPlan_outlines {p : Pass StockMarker} {s : Session StockMarker} {targets : List NodeId}
    {stop : Stop} {r : Run StockMarker}
    (hprep : (alone p).prepare (opening outlines s).session (.ofInitial ∅) (.ofContract outline) =
      .ok (p, targets))
    (hstep : p.runStep (.ofContract outline) targets ∅ (opening outlines s) = (.error stop, r)) :
    (alone p).runPlan outlines s = (.error stop, r) := by
  rw [runPlan_eq]
  exact runSteps_of_error hprep hstep

end Engine

end Trellis
