/-
  Trellis.Proofs.Execution.Nodewise — what a step makes of each node.

  The commits of a step alternate over its targets, each over a subtree that its invocation has
  reshaped. But the targets are apart, so of all these commits only one touches a given node: the
  one of the target above it (`Secluded.lookup_commitAll`). What the step makes of the node is
  what this one makes of the entry that the node had to begin with, and that can be written down.

  - `nodewise_commit`: a node below no target keeps its entry. A node below a target, of which there
    is one, has the tags it had, or if it is new those the plan has come to, less those declared
    removed and plus those declared added for its kind; under each kind of marker it has nothing if
    that is declared removed, else what the invocation of the target changed last, if it changed
    anything, else what it had. A number that belongs to no node has no entry.

  With many workers there may be new nodes that have nothing (`raced_commit_misses_copy`).
-/
import Trellis.Proofs.Execution.Housekeeping
import Trellis.Proofs.Execution.Staging

namespace Trellis

open Trellis.Tree

variable {τ : Type} [MarkerFamily τ]

/-! ## One commit -/

namespace Session

variable {s : Session τ} {c : Contract} {expected : FactSet} {n target : NodeId}
  {o : NodeId × Outcome τ} {before after : List (NodeId × Outcome τ)}

theorem find?_foldl_clearMarker (store : Store τ) (kind k : String) (nodes : List NodeId) :
    (Store.markers (nodes.foldl (fun store m => Store.clearMarker store m kind) store) n).find? k =
      if kind = k ∧ n ∈ nodes then none else (Store.markers store n).find? k := by
  induction nodes generalizing store with
  | nil => simp
  | cons m nodes ih =>
    rw [List.foldl_cons, ih, Store.markers_clearMarker]
    by_cases e : m = n
    · rw [if_pos e, Sorted.find?_erase]
      by_cases ek : kind = k
      · simp [ek, e]
      · simp [ek]
    · rw [if_neg e]
      simp [Ne.symm e]

theorem find?_foldl_clearMarkers (store : Store τ) (kinds : List String) (nodes : List NodeId)
    (k : String) :
    (Store.markers (kinds.foldl (fun store kind =>
      nodes.foldl (fun store m => Store.clearMarker store m kind) store) store) n).find? k =
      if k ∈ kinds ∧ n ∈ nodes then none else (Store.markers store n).find? k := by
  induction kinds generalizing store with
  | nil => simp
  | cons kind kinds ih =>
    rw [List.foldl_cons, ih, find?_foldl_clearMarker]
    by_cases hn : n ∈ nodes
    · by_cases hk : k ∈ kinds
      · simp [hk, hn]
      · simp [hk, hn, eq_comm]
    · simp [hn]

theorem find?_markers_commitEffects (k : String) :
    (Store.markers (s.commitEffects c target).store n).find? k =
      if Fact.marker k ∈ c.removes ∧ n ∈ s.tree.descendants target then none
      else (Store.markers s.store n).find? k := by
  unfold commitEffects
  dsimp only
  rw [find?_foldl_clearMarkers, Store.markers_foldl, Store.markers_foldl]
  · simp only [FactSet.mem_markers]
  · exact fun store tag => Store.markers_foldl (fun store m => Store.markers_removeTag store m n tag) store
  · exact fun store tag => Store.markers_foldl (fun store m => Store.markers_insertTag store m n tag) store

/-- If one of the commits is the only one to touch a node, it is all that matters to it. -/
theorem lookup_commitAll_single (hbefore : ∀ o' ∈ before, ¬ Touches s.tree o' n)
    (hafter : ∀ o' ∈ after, ¬ Touches s.tree o' n) :
    Store.lookup ((before ++ o :: after).foldl (commit c expected) s).store n =
      Store.lookup (s.commit c expected o).store n := by
  have htree : (before.foldl (commit c expected) s).tree = s.tree := by rw [commitAll_eq]
  rw [List.foldl_append, List.foldl_cons, lookup_commitAll]
  · exact lookup_commit_congr htree (lookup_commitAll hbefore)
  · rw [commit_tree, htree]
    exact hafter

end Session

namespace Secluded

variable {s s' : Session τ} {c : Contract} {expected : FactSet} {t : NodeId} {outcome : Outcome τ}
  {before after : List (NodeId × Outcome τ)} {q : Place}

section Single

variable (h : Secluded s (before ++ (t, outcome) :: after) s')
  (hlive : ∀ o ∈ before ++ (t, outcome) :: after, o.1 < s.tree.next)
  (hapart : ((before ++ (t, outcome) :: after).map Prod.fst).Pairwise s.tree.Apart)
  (hq : q ∈ s'.tree.places) (hw : q.Within t)

include h hlive hapart hq hw

/-- Targets that are apart stay so, and a node that is below one of them is below that one only. -/
theorem not_within {o : NodeId × Outcome τ} (ho : o ∈ before ∨ o ∈ after) : ¬ q.Within o.1 := by
  have apart : s.tree.Apart t o.1 := by
    rw [List.map_append, List.map_cons] at hapart
    obtain ⟨-, hrest, hcross⟩ := List.pairwise_append.1 hapart
    rcases ho with ho | ho
    · exact (hcross o.1 (List.mem_map_of_mem ho) t List.mem_cons_self).symm
    · exact (List.pairwise_cons.1 hrest).1 o.1 (List.mem_map_of_mem ho)
  have live {a : NodeId} (ha : a < s.tree.next) : ∀ q ∈ s'.tree.places, q.id = a → q ∈ s.tree.places :=
    fun q hq e => h.old q hq (e ▸ ha)
  have ht : t < s.tree.next := hlive (t, outcome) (by simp)
  have ho : o.1 < s.tree.next := hlive o (by rcases ho with ho | ho <;> simp [ho])
  exact apart.keep (live ht) (live ho) q hq hw

theorem eq_of_within {t' : NodeId} (ht' : t' ∈ (before ++ (t, outcome) :: after).map Prod.fst)
    (hw' : q.Within t') : t' = t := by
  obtain ⟨o, ho, rfl⟩ := List.mem_map.1 ht'
  rcases List.mem_append.1 ho with ho | ho
  · exact absurd hw' (h.not_within hlive hapart hq hw (.inl ho))
  · rcases List.mem_cons.1 ho with rfl | ho
    · rfl
    · exact absurd hw' (h.not_within hlive hapart hq hw (.inr ho))

theorem not_touches {o : NodeId × Outcome τ} (ho : o ∈ before ∨ o ∈ after) :
    ¬ Session.Touches s'.tree o q.id := by
  intro htouch
  have hmem : o ∈ before ++ (t, outcome) :: after := by rcases ho with ho | ho <;> simp [ho]
  exact h.not_within hlive hapart hq hw ho ((h.inside_of_touches hmem htouch).2 q hq rfl)

/-- The commit of the target above a node is all that matters to it. -/
theorem lookup_commitAll :
    Store.lookup ((before ++ (t, outcome) :: after).foldl (Session.commit c expected) s').store q.id =
      Store.lookup (s'.commit c expected (t, outcome)).store q.id :=
  Session.lookup_commitAll_single (fun _ ho => h.not_touches hlive hapart hq hw (.inl ho))
    fun _ ho => h.not_touches hlive hapart hq hw (.inr ho)

/-- A new node has been made by the invocation on the target above it. -/
theorem made_here (hle : s.tree.next ≤ q.id) : ∃ staged ∈ outcome.staged?, q.id ∈ staged.created := by
  obtain ⟨o, ho, staged, hs, hc⟩ := h.new q hq hle
  have touched : Session.Touches s'.tree o q.id := .inr ⟨staged, hs, .inl hc⟩
  rcases List.mem_append.1 ho with ho | ho
  · exact absurd touched (h.not_touches hlive hapart hq hw (.inl ho))
  · rcases List.mem_cons.1 ho with rfl | ho
    · exact ⟨staged, hs, hc⟩
    · exact absurd touched (h.not_touches hlive hapart hq hw (.inr ho))

end Single

/-- No commit matters to a node that is below no target. -/
theorem lookup_commitAll_outside {outcomes : List (NodeId × Outcome τ)} (h : Secluded s outcomes s')
    (hq : q ∈ s'.tree.places) (hoff : ∀ o ∈ outcomes, ¬ q.Within o.1) :
    Store.lookup (outcomes.foldl (Session.commit c expected) s').store q.id =
      Store.lookup s.store q.id := by
  rw [Session.lookup_commitAll, h.store]
  exact fun o ho htouch => hoff o ho ((h.inside_of_touches ho htouch).2 q hq rfl)

/-- The tags of a node after the commit of the target above it. -/
theorem mem_tags_commit_above {outcomes : List (NodeId × Outcome τ)} (h : Secluded s outcomes s')
    (ho : (t, outcome) ∈ outcomes) (hf : ∀ staged e, outcome ≠ .failed staged e)
    (hq : q ∈ s'.tree.places) (hw : q.Within t)
    (hmade : s.tree.next ≤ q.id → ∃ staged ∈ outcome.staged?, q.id ∈ staged.created) {u : Tag} :
    u ∈ Store.tags (s'.commit c expected (t, outcome)).store q.id ↔
      Fact.tag u ∈ c.adds ∧ u.scope = q.kind ∨
      (s.tree.next ≤ q.id ∧ Fact.tag u ∈ expected ∧ u.scope = q.kind ∨ u ∈ Store.tags s.store q.id) ∧
        ¬ (Fact.tag u ∈ c.removes ∧ u.scope = q.kind) := by
  have below : q.id ∈ s'.tree.descendantsOfKind t u.scope ↔ u.scope = q.kind := by
    rw [h.wellFormed.mem_descendantsOfKind]
    constructor
    · intro hd
      obtain ⟨q', hq', hid, hk, -⟩ := hd
      rw [h.wellFormed.eq_of_id_eq hq' hq hid] at hk
      exact hk.symm
    · exact fun hk => ⟨q, hq, rfl, hk.symm, hw⟩
  have kind : s'.tree.kind? q.id = some u.scope ↔ u.scope = q.kind := by
    rw [h.wellFormed.kind?_of_mem hq, Option.some.injEq, eq_comm]
  cases outcome with
  | failed staged e => exact absurd rfl (hf staged e)
  | skipped =>
    have old : ¬ s.tree.next ≤ q.id := by
      intro hle
      obtain ⟨staged, hs, -⟩ := hmade hle
      cases hs
    rw [Session.commit, Session.mem_tags_commitEffects, below, h.store]
    simp [old]
  | completed staged =>
    have created : q.id ∈ staged.created ↔ s.tree.next ≤ q.id := by
      constructor
      · exact fun hc => (h.created _ ho staged rfl q.id hc).1
      · intro hle
        obtain ⟨staged', hs, hc⟩ := hmade hle
        cases hs
        exact hc
    have kept : q.id ∉ staged.removed := fun hgone =>
      (h.removed _ ho staged rfl q.id hgone).2 (mem_ids_iff.2 ⟨q, hq, rfl⟩)
    have tree : (s'.commitStaged expected staged).tree = s'.tree := rfl
    rw [Session.commit, Session.mem_tags_commitEffects, Session.mem_tags_commitStaged, tree, below,
      created, kind, h.store]
    simp only [kept, not_false_eq_true, and_true]
    grind

end Secluded

namespace Pass

variable {p : Pass τ} {step : Step} {t n : NodeId} {r r₁ r₂ r' : Run τ} {expected : FactSet}
  {targets : List NodeId} {report : StepReport} {outcome : Outcome τ}
  {outcomes : List (NodeId × Outcome τ)} {q : Place}

/-- The changes of markers that the invocation on a node makes, none if the pass does not apply. -/
def stagings (p : Pass τ) (step : Step) (t : NodeId) (r : Run τ) : List (Staging τ) :=
  if r.session.appliesTo p t then
    (p.body ⟨step.unit, t, step.granularity⟩).stagings ⟨step.unit, t, step.granularity⟩
      ⟨r.session, .none, r.notes⟩
  else []

/-- The markers of a node after the commit of the target above it, on which the pass was invoked in
    run `r₁`. -/
theorem find?_markers_commit_above {s s' : Session τ} (h : Secluded s outcomes s')
    (ho : (t, outcome) ∈ outcomes) (hf : ∀ staged e, outcome ≠ .failed staged e)
    (hq : q ∈ s'.tree.places) (hw : q.Within t) (hp : p.Proper) (hs₁ : r₁.session.tree.WellFormed)
    (ht : t < r₁.session.tree.next) (he : p.invoke step r₁ t = (.ok outcome, r₂)) (kind : String) :
    (Store.markers (s'.commit p.contract expected (t, outcome)).store q.id).find? kind =
      if Fact.marker kind ∈ p.contract.removes then none
      else (Staging.last? (p.stagings step t r₁) q.id kind).getD
        ((Store.markers s.store q.id).find? kind) := by
  have below : q.id ∈ s'.tree.descendants t := h.wellFormed.mem_descendants.2 ⟨q, hq, rfl, hw⟩
  rcases invoke_completed (p := p) (by rw [he]) hf with ⟨happlies, rfl⟩ | ⟨happlies, inv, hrun, rfl⟩
  · rw [Session.commit, Session.find?_markers_commitEffects, stagings, happlies, h.store]
    simp only [below, and_true]
    rfl
  · have kept : q.id ∉ inv.staged.removed := fun hgone =>
      (h.removed _ ho inv.staged rfl q.id hgone).2 (mem_ids_iff.2 ⟨q, hq, rfl⟩)
    have live : s'.tree.contains q.id = true := h.wellFormed.contains_of_mem hq
    obtain ⟨-, hrun⟩ := runBody_eq_ok.1 hrun
    have ended := congrArg Prod.snd hrun
    dsimp only at ended
    subst ended
    have last := Invocation.get?_changes_run hs₁ ht (hp _) r₁.notes kept kind
    have keyed := Invocation.keyed_changes_run hs₁ ht (hp _) r₁.notes kept
    rw [Invocation.changes] at last keyed
    have tree (staged : Staged τ) : (s'.commitStaged expected staged).tree = s'.tree := rfl
    rw [Session.commit, Session.find?_markers_commitEffects, tree,
      Session.markers_commitStaged live kept, Markers.find?_changeAll keyed, last, stagings,
      if_pos happlies, h.store]
    simp only [below, and_true]

/-! ## The step -/

/-- What a step that began in session `s` and left `s'` has made of the node `n` of kind `k`, if it
    came to the target `t` above the node in run `r₁`. -/
structure Commits (p : Pass τ) (step : Step) (expected : FactSet) (s : Session τ) (r₁ : Run τ)
    (s' : Session τ) (t n : NodeId) (k : Kind) : Prop where
  tags : ∀ u, u ∈ Store.tags s'.store n ↔
    Fact.tag u ∈ p.contract.adds ∧ u.scope = k ∨
      (if s.tree.contains n then u ∈ Store.tags s.store n else Fact.tag u ∈ expected ∧ u.scope = k) ∧
        ¬ (Fact.tag u ∈ p.contract.removes ∧ u.scope = k)
  markers : ∀ kind, (Store.markers s'.store n).find? kind =
    if Fact.marker kind ∈ p.contract.removes then none
    else (Staging.last? (p.stagings step t r₁) n kind).getD
      (if s.tree.contains n then (Store.markers s.store n).find? kind else none)

theorem commits_of_secluded {s s₁ s' : Session τ} {done rest : List (NodeId × Outcome τ)}
    (hs : s.Kempt) (h : Secluded s (done ++ (t, outcome) :: rest) s₁)
    (hlive : ∀ o ∈ done ++ (t, outcome) :: rest, o.1 < s.tree.next)
    (hapart : ((done ++ (t, outcome) :: rest).map Prod.fst).Pairwise s.tree.Apart)
    (hf : ∀ staged e, outcome ≠ .failed staged e) (hq : q ∈ s₁.tree.places) (hw : q.Within t)
    (hstore : s'.store =
      ((done ++ (t, outcome) :: rest).foldl (Session.commit p.contract expected) s₁).store)
    (hp : p.Proper) (hs₁ : r₁.session.tree.WellFormed) (ht : t < r₁.session.tree.next)
    (he : p.invoke step r₁ t = (.ok outcome, r₂)) : p.Commits step expected s r₁ s' t q.id q.kind := by
  have ho : (t, outcome) ∈ done ++ (t, outcome) :: rest := by simp
  have hlook : Store.lookup s'.store q.id =
      Store.lookup (s₁.commit p.contract expected (t, outcome)).store q.id := by
    rw [hstore]
    exact h.lookup_commitAll hlive hapart hq hw
  have old : s.tree.contains q.id = true ↔ ¬ s.tree.next ≤ q.id := by
    constructor
    · exact fun hc => Nat.not_le.2 (hs.wellFormed.lt_next_of_contains hc)
    · exact fun hlt => hs.wellFormed.contains_of_mem (h.old q hq (Nat.not_le.1 hlt))
  have new (hle : s.tree.next ≤ q.id) : Store.entry s.store q.id = ⟨∅, ∅⟩ := by
    rw [Store.entry, hs.vacant q.id fun hin => Nat.not_lt.2 hle (hs.wellFormed.fresh _ hin)]
    rfl
  constructor
  case tags =>
    intro u
    have tags : Store.tags s'.store q.id = _ :=
      congrArg (fun entry => (entry.getD ⟨∅, ∅⟩).tags) hlook
    rw [tags]
    refine (h.mem_tags_commit_above ho hf hq hw (h.made_here hlive hapart hq hw)).trans ?_
    by_cases hle : s.tree.next ≤ q.id
    · have bare : u ∉ Store.tags s.store q.id := by
        rw [Store.tags, new hle]
        exact Sorted.not_mem_empty u
      simp [old, hle, bare]
    · simp [old, hle]
  case markers =>
    intro kind
    have markers : Store.markers s'.store q.id = _ :=
      congrArg (fun entry => (entry.getD ⟨∅, ∅⟩).markers) hlook
    rw [markers]
    refine (find?_markers_commit_above h ho hf hq hw hp hs₁ ht he kind).trans ?_
    by_cases hle : s.tree.next ≤ q.id
    · have bare : (Store.markers s.store q.id).find? kind = none := by
        rw [Store.markers, new hle]
        rfl
      simp [old, hle, bare]
    · simp [old, hle]

/-- Let a step complete on targets that are apart, with one worker and a pass that edits by the rules of an
    invocation only, on a store that has entries for nodes of the tree only. A node below no target
    keeps its entry; a node below a target is below this one only, and the step makes of it what
    `Commits` says; and what is no node, as all that was removed, has no entry. -/
theorem nodewise_commit (hs : r.session.tree.WellFormed) (hh : r.session.Housed) (hp : p.Proper)
    (hlive : ∀ t ∈ targets, r.session.tree.contains t = true)
    (hapart : targets.Pairwise r.session.tree.Apart)
    (hstep : p.runStep step targets expected r = (.ok report, r')) :
    (∀ n, r'.session.tree.contains n = true → (∀ t ∈ targets, n ∉ r'.session.tree.descendants t) →
      Store.lookup r'.session.store n = Store.lookup r.session.store n) ∧
    (∀ before t after, targets = before ++ t :: after → ∃ done r₁,
      p.invokeAll step before (r.announce step targets.length) = (.ok done, r₁) ∧
      ∀ n ∈ r'.session.tree.descendants t,
        (∀ t' ∈ targets, n ∈ r'.session.tree.descendants t' → t' = t) ∧
        ∃ k, r'.session.tree.kind? n = some k ∧
          p.Commits step expected r.session r₁ r'.session t n k) ∧
    ∀ n, r'.session.tree.contains n = false → Store.lookup r'.session.store n = none := by
  have kempt := Session.kempt_of_housed hs hh
  have hlt : ∀ t ∈ targets, t < r.session.tree.next :=
    fun t ht => hs.lt_next_of_contains (hlive t ht)
  have tidy : r'.session.Kempt :=
    kempt.performs hp.confined ((performs_one_iff kempt.tidy).2 hstep) nofun
  let start := r.announce step targets.length
  have begun : start.session.Kempt := kempt.congr rfl rfl
  obtain ⟨outcomes, r₃, hinv, hf⟩ := runStep_ok hstep
  obtain ⟨r₄, hstep', htree, hstore⟩ := runStep_of_invokeAll expected hinv hf
  obtain rfl : r' = r₄ := congrArg Prod.snd (hstep.symm.trans hstep')
  obtain ⟨secluded, -⟩ := secluded_invokeAll hp.isolates begun.wellFormed hlt hinv
  have invoked := targets_of_invokeAll hinv hf
  have hwf := secluded.wellFormed
  refine ⟨fun n hn hoff => ?outside, fun before t after hsplit => ?below, fun n hn => ?dead⟩
  case outside =>
    rw [htree] at hn hoff
    obtain ⟨q, hq, rfl⟩ := hwf.contains_iff.1 hn
    rw [hstore]
    refine secluded.lookup_commitAll_outside hq fun o ho hw => ?_
    exact hoff o.1 (invoked ▸ List.mem_map_of_mem ho) (hwf.mem_descendants.2 ⟨q, hq, rfl, hw⟩)
  case below =>
    subst hsplit
    obtain ⟨done, r₁, outcome, r₂, rest, hdone, -, htarget, -, rfl⟩ := invokeAll_split hinv hf
    refine ⟨done, r₁, hdone, fun n hn => ?_⟩
    rw [htree] at hn
    obtain ⟨q, hq, rfl, hw⟩ := hwf.mem_descendants.1 hn
    have live : ∀ o ∈ done ++ (t, outcome) :: rest, o.1 < start.session.tree.next :=
      fun o ho => hlt o.1 (invoked ▸ List.mem_map_of_mem ho)
    have apart : ((done ++ (t, outcome) :: rest).map Prod.fst).Pairwise start.session.tree.Apart :=
      invoked ▸ hapart
    refine ⟨fun t' ht' hn' => ?single, q.kind, htree ▸ hwf.kind?_of_mem hq, ?law⟩
    case single =>
      rw [htree] at hn'
      obtain ⟨q', hq', hid, hw'⟩ := hwf.mem_descendants.1 hn'
      obtain rfl := hwf.eq_of_id_eq hq' hq hid
      exact secluded.eq_of_within live apart hq hw (invoked.symm ▸ ht') hw'
    case law =>
      -- The invocations before it have left the target a number of the tree.
      obtain ⟨first, -⟩ := secluded_invokeAll hp.isolates begun.wellFormed
        (fun a ha => hlt a (List.mem_append_left _ ha)) hdone
      have ht : t < r₁.session.tree.next :=
        Nat.lt_of_lt_of_le (live (t, outcome) (by simp)) first.next
      have ended : ∀ staged e, outcome ≠ .failed staged e := by
        rintro staged e rfl
        exact Outcome.not_failed hf t staged e (by simp)
      have law := commits_of_secluded begun secluded live apart ended hq hw hstore hp
        first.wellFormed ht htarget
      exact ⟨law.tags, law.markers⟩
  case dead =>
    refine tidy.vacant n fun hin => ?_
    rw [tidy.wellFormed.contains_iff_mem_ids.2 hin] at hn
    cases hn

/-! ## An instance

Each type but the last is to get an outline, and no scratch is to be left on any; the second type
removes itself. -/

def tidying : Pass StockMarker where
  contract := { outline with removes := Sorted.ofList [.marker "scratch"], exclusive := false }
  filter? := some fun node => node.name ≠ "C"
  body site := .ask (.add site.target .method "outline") fun _ =>
    .ask (.put site.target ⟨.scratch, .text "work"⟩) fun _ =>
      if site.target = 4 then .ask (.remove 4) fun _ => .done (.ok ()) else .done (.ok ())

theorem proper_tidying : tidying.Proper := by
  refine fun site => ⟨trivial, fun _ => ⟨trivial, fun _ => ?_⟩⟩
  dsimp only
  split
  · exact ⟨trivial, fun _ => trivial⟩
  · trivial

/-- The package keeps its entry, the type loses its scratch though one was put last, the method below
    it keeps its label, the new one has the tag that methods have by then, and the second type has
    lost its entry. -/
theorem nodewise_commit_tidying : ∃ (raw : Tag) (report : StepReport) (r' : Run StockMarker),
    tidying.runStep (.ofContract tidying.contract) [2, 4, 5] (Sorted.ofList [.tag raw])
      (.ofSession labelled) = (.ok report, r') ∧
    Store.lookup r'.session.store 1 = Store.lookup labelled.store 1 ∧
    (Store.markers r'.session.store 2).find? "scratch" = none ∧
    (Store.markers r'.session.store 3).find? "label" = some ⟨.label, .text "f"⟩ ∧
    raw ∈ Store.tags r'.session.store 6 ∧ outlined ∉ Store.tags r'.session.store 6 ∧
    Store.lookup r'.session.store 4 = none := by
  let raw : Tag := ⟨"raw", .method⟩
  let r : Run StockMarker := .ofSession labelled
  let step : Step := .ofContract tidying.contract
  have housed : labelled.Housed := by
    intro entry he
    cases List.mem_singleton.1 he
    decide
  obtain ⟨report, r', hstep, htree⟩ : ∃ report r',
      tidying.runStep step [2, 4, 5] (Sorted.ofList [.tag raw]) r = (.ok report, r') ∧
      r'.session.tree = ⟨.node 0 .program "app" (.node 1 .package "core"
        (.node 2 .type "A" (.node 3 .method "f" .empty (.node 6 .method "outline" .empty .empty))
          (.node 5 .type "C" .empty .empty)) .empty) .empty, 8⟩ := ⟨_, _, rfl, by cbv⟩
  obtain ⟨outside, below, dead⟩ := nodewise_commit (r := r) Tree.built_trio.wellFormed housed
    proper_tidying (by decide) (by decide) hstep
  obtain ⟨done, r₁, hdone, law⟩ := below [] 2 [4, 5] rfl
  cases hdone
  rw [htree] at outside law dead
  refine ⟨raw, report, r', hstep, outside 1 (by decide) (by decide), ?_, ?_, ?_, ?_,
    dead 4 (by decide)⟩
  · obtain ⟨-, k, hk, commits⟩ := law 2 (by decide)
    exact (commits.markers "scratch").trans (if_pos (by decide))
  · obtain ⟨-, k, hk, commits⟩ := law 3 (by decide)
    exact (commits.markers "label").trans (by cbv)
  · obtain ⟨-, k, hk, commits⟩ := law 6 (by decide)
    obtain rfl : k = .method := Option.some.inj (hk.symm.trans (by decide))
    exact (commits.tags raw).2 (by decide)
  · obtain ⟨-, k, hk, commits⟩ := law 6 (by decide)
    obtain rfl : k = .method := Option.some.inj (hk.symm.trans (by decide))
    exact fun h => absurd ((commits.tags outlined).1 h) (by decide)

/-- With many workers a step may make less of a node: a copy that nobody knows of, as its clone was broken
    off by a sibling, is below a target and has none of the tags that methods have by then. -/
theorem raced_commit_misses_copy : ∃ (r r' : Run StockMarker) (report : StepReport),
    sweeping.Proper ∧ r.session.tree.WellFormed ∧ r.session.Housed ∧
    (∀ t ∈ [2, 4], r.session.tree.contains t = true) ∧ [2, 4].Pairwise r.session.tree.Apart ∧
    sweeping.Performs .many (.ofContract sweep) [2, 4] (Sorted.ofList [Planner.raw]) r (.ok report) r' ∧
    r.session.tree.contains 6 = false ∧ r'.session.tree.kind? 6 = some .method ∧
    6 ∈ r'.session.tree.descendants 4 ∧
    ⟨"raw", .method⟩ ∈ FactSet.tagsOf (Sorted.ofList [Planner.raw]) .method ∧
    Fact.tag ⟨"raw", .method⟩ ∉ sweep.removes ∧ Store.hasTag r'.session.store 6 ⟨"raw", .method⟩ = false := by
  obtain ⟨r', hperforms, htree, hgone⟩ := sweeping_races
  have housed : unswept.session.Housed := by
    intro entry he
    cases List.mem_singleton.1 he
    decide
  refine ⟨unswept, r', _, proper_sweeping, Tree.built_pair.wellFormed, housed, by decide, by decide,
    hperforms, by decide, ?_, ?_, by decide, by decide, ?_⟩
  · rw [htree]
    decide
  · rw [htree]
    decide
  · rw [Store.hasTag, Store.tags, Store.entry, hgone]
    rfl

end Pass

end Trellis
