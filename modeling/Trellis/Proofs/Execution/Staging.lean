/-
  Trellis.Proofs.Execution.Staging — what an invocation stages, reads and commits.

  There are three accounts of the markers of a node in the course of an invocation: the changes its
  requests have made, one after the other (`Work.stagings`); the overlay it keeps of them, by node
  and by kind; and what the store will have when the overlay is committed. They agree on every node
  that the invocation has not removed.

  - Under a kind the overlay has the last change that was made (`get?_changes_run`). Each request
    keeps this (`Isolated.changes_answer`): removals forget what was staged for removed nodes only, and
    the copies made by a cloning are new, so that nothing was staged for them.
  - Committing applies the overlay to the markers of the node (`markers_commitStaged`), and so does
    reading through it (`get_markers`), since what is staged under a kind is of that kind.
  - `reads_what_is_committed`: so what the invocation reads at its end is what is there after the
    commit, whichever types share a kind.
-/
import Trellis.Proofs.Execution.Siblings
import Trellis.Proofs.Tree.Coherence

namespace Trellis

open Trellis.Tree

variable {τ : Type} [MarkerFamily τ] {α : Type}

namespace Tree.WellFormed

variable {t u : Tree} {source parent : NodeId} {pairs : List (NodeId × NodeId)}

/-- What is cloned has been given a number before. -/
theorem lt_next_of_clone (h : t.WellFormed) (he : t.clone source parent = .ok (pairs, u)) :
    ∀ pair ∈ pairs, pair.1 < t.next := by
  obtain ⟨-, sub, -, -, hsub, -, -, -, rfl, rfl⟩ := clone_eq_ok.1 he
  intro pair hpair
  have hin : pair.1 ∈ sub.ids := (List.of_mem_zip hpair).1
  exact h.fresh _ ((Forest.sublist_ids_subtree hsub).subset hin)

/-- The numbers of the copies are new: each is given once, and none is that of a source. -/
theorem copies_new (h : t.WellFormed) (he : t.clone source parent = .ok (pairs, u)) :
    (∀ pair ∈ pairs, t.next ≤ pair.2) ∧ (pairs.map Prod.snd).Nodup ∧
      ∀ a ∈ pairs, ∀ b ∈ pairs, a.1 ≠ b.2 := by
  obtain ⟨p, -, hg⟩ := h.grows_clone he
  have hcopies : ∀ pair ∈ pairs, t.next ≤ pair.2 := by
    intro pair hpair
    have hmem : pair.2 ∈ pairs.map Prod.snd := List.mem_map_of_mem hpair
    rw [hg.new_eq, List.mem_range'_1] at hmem
    exact hmem.1
  refine ⟨hcopies, ?_, fun a ha b hb e => ?_⟩
  · rw [hg.new_eq]
    exact List.nodup_range'
  · exact Nat.not_lt.2 (hcopies b hb) (e ▸ h.lt_next_of_clone he a ha)

end Tree.WellFormed

/-! ## Changes of markers -/

/-- What is put under a kind is of that kind. -/
def MarkerChanges.Keyed (cs : MarkerChanges τ) : Prop :=
  ∀ kind, ∀ change ∈ OrdMap.get? cs kind, ∀ m ∈ change, Marker.kind m = kind

namespace Markers

variable {ms : Markers τ} {kind k : String}

theorem find?_change {change : Option (Marker τ)} (h : ∀ m ∈ change, Marker.kind m = kind) (k : String) :
    (ms.change kind change).find? k = if kind = k then change else ms.find? k := by
  cases change with
  | none => exact Sorted.find?_erase ms kind k
  | some m =>
    rw [change, Sorted.find?_insert, h m rfl]

theorem find?_changeAll {cs : MarkerChanges τ} (h : cs.Keyed) (k : String) :
    (ms.changeAll cs).find? k = (OrdMap.get? cs k).getD (ms.find? k) := by
  have keyed : ∀ c ∈ cs.toList, ∀ m ∈ c.2, Marker.kind m = c.1 := by
    intro c hc m hm
    refine h c.1 c.2 ?_ m hm
    exact Option.map_eq_some_iff.2 ⟨c, Sorted.find?_eq_some.2 ⟨hc, rfl⟩, rfl⟩
  have single := cs.ascending.imp Sorted.ne_of_compare_lt
  have lookup : OrdMap.get? cs k = (cs.toList.find? fun c => c.1 = k).map Prod.snd := rfl
  rw [changeAll, lookup]
  clear lookup
  generalize cs.toList = l at keyed single
  induction l generalizing ms with
  | nil => rfl
  | cons c l ih =>
    obtain ⟨hc, hl⟩ := List.forall_mem_cons.1 keyed
    obtain ⟨hne, hsingle⟩ := List.pairwise_cons.1 single
    rw [List.foldl_cons, ih hl hsingle, find?_change hc, List.find?_cons]
    by_cases e : c.1 = k
    · -- No other change is for this kind.
      have later : (l.find? fun c => c.1 = k) = none := by
        refine List.find?_eq_none.2 fun c' hc' e' => hne c' hc' ?_
        simpa [e] using (of_decide_eq_true e').symm
      simp [later, e]
    · simp [e]

theorem changeAll_empty (ms : Markers τ) : ms.changeAll ∅ = ms := rfl

theorem get?_asChanges (ms : Markers τ) (k : String) :
    OrdMap.get? ms.asChanges k =
      ((ms.toList.map fun m => (m.kind, some m)).reverse.find? fun c => c.1 = k).map Prod.snd := by
  rw [asChanges, OrdMap.get?, Sorted.ofList, Sorted.find?_insertAll]
  congr 1
  exact Option.or_none

end Markers

/-! ## Committing the overlay -/

namespace Session

variable {s : Session τ} {expected : FactSet} {staged : Staged τ} {n : NodeId}

theorem markers_dropAll {store : Store τ} {nodes : List NodeId} (hn : n ∉ nodes) :
    Store.markers (dropAll store nodes) n = Store.markers store n := by
  rw [Store.markers, Store.entry, lookup_dropAll, if_neg hn, Store.markers, Store.entry]

theorem markers_welcome (tree : Tree) (expected : FactSet) (store : Store τ) (m n : NodeId) :
    Store.markers (welcome tree expected store m) n = Store.markers store n := by
  unfold welcome
  split
  · exact Store.markers_foldl (fun store t => Store.markers_insertTag store m n t) store
  · rfl

/-- The markers of a node that the invocation has not removed are changed as the overlay has it. -/
theorem markers_commitStaged (hn : s.tree.contains n = true) (hr : n ∉ staged.removed) :
    Store.markers (s.commitStaged expected staged).store n =
      (Store.markers s.store n).changeAll ((OrdMap.get? staged.markers n).getD ∅) := by
  have begun : Store.markers (staged.created.foldl (welcome s.tree expected)
      (dropAll s.store staged.removed)) n = Store.markers s.store n := by
    rw [Store.markers_foldl (fun store m => markers_welcome s.tree expected store m n),
      markers_dropAll hr]
  have single := staged.markers.ascending.imp Sorted.ne_of_compare_lt
  have lookup : OrdMap.get? staged.markers n =
      (staged.markers.toList.find? fun change => change.1 = n).map Prod.snd := rfl
  unfold commitStaged
  dsimp only
  rw [lookup, ← begun]
  generalize staged.markers.toList = changes at single
  generalize staged.created.foldl _ _ = store
  induction changes generalizing store with
  | nil => rfl
  | cons change changes ih =>
    obtain ⟨hne, hsingle⟩ := List.pairwise_cons.1 single
    rw [List.foldl_cons, ih hsingle, List.find?_cons]
    by_cases e : change.1 = n
    · -- No other change is for this node.
      have later : (changes.find? fun c => c.1 = n) = none := by
        refine List.find?_eq_none.2 fun c hc e' => hne c hc ?_
        simpa [e] using (of_decide_eq_true e').symm
      rw [later, e, if_pos hn, Store.markers_applyChanges, if_pos rfl]
      simp [Markers.changeAll_empty]
    · have spared : Store.markers (if s.tree.contains change.1 then
          Store.applyChanges store change.1 change.2 else store) n = Store.markers store n := by
        split
        · rw [Store.markers_applyChanges, if_neg e]
        · rfl
      rw [spared]
      simp [e]

end Session

/-! ## The changes an invocation makes -/

/-- A change of the marker of some kind on a node. -/
structure Staging (τ : Type) where
  node : NodeId
  kind : String
  change : Option (Marker τ)

namespace Staging

/-- The last change for a kind on a node. -/
def last? (log : List (Staging τ)) (n : NodeId) (kind : String) : Option (Option (Marker τ)) :=
  (log.reverse.find? fun e => e.node = n ∧ e.kind = kind).map change

/-- What is put under a kind is of that kind. -/
def Keyed (e : Staging τ) : Prop := ∀ m ∈ e.change, Marker.kind m = e.kind

variable {log more : List (Staging τ)} {n : NodeId} {kind : String} {change : Option (Marker τ)}

omit [MarkerFamily τ] in
theorem last?_append (log more : List (Staging τ)) (n : NodeId) (kind : String) :
    last? (log ++ more) n kind = (last? more n kind).or (last? log n kind) := by
  rw [last?, List.reverse_append, List.find?_append, Option.map_or, last?, last?]

omit [MarkerFamily τ] in
theorem last?_eq_none (h : ∀ e ∈ log, e.node ≠ n) : last? log n kind = none := by
  rw [last?, Option.map_eq_none_iff, List.find?_eq_none]
  intro e he hn
  exact h e (List.mem_reverse.1 he) (of_decide_eq_true hn).1

theorem keyed_of_last? (h : ∀ e ∈ log, e.Keyed) (hlast : last? log n kind = some change) :
    ∀ m ∈ change, Marker.kind m = kind := by
  obtain ⟨e, he, rfl⟩ := Option.map_eq_some_iff.1 hlast
  have found : e.node = n ∧ e.kind = kind := by simpa using List.find?_some he
  rw [← found.2]
  exact h e (List.mem_reverse.1 (List.mem_of_find?_eq_some he))

end Staging

/-- What a cloning stages for a copy: the markers its source has, each as its type has it. -/
def Invocation.copied (inv : Invocation τ) (pair : NodeId × NodeId) : List (Staging τ) :=
  ((inv.markers pair.1).forCopy pair.1 pair.2).toList.map fun m => ⟨pair.2, m.kind, some m⟩

/-- The changes of markers that answering a request makes, in order. -/
def Request.stagings (site : Site) (inv : Invocation τ) : Request τ → List (Staging τ)
  | put n m => if inv.session.tree.isWithin n site.target then [⟨n, m.kind, some m⟩] else []
  | unmark n t =>
    if inv.session.tree.isWithin n site.target then [⟨n, MarkerFamily.kind t, none⟩] else []
  | clone source parent =>
    if inv.session.tree.isWithin parent site.target then
      match inv.session.tree.clone source parent with
      | .ok (pairs, _) => pairs.flatMap inv.copied
      | .error _ => []
    else []
  | _ => []

/-- The changes of markers that work makes, from the first to the last. -/
def Work.stagings (site : Site) : Work τ α → Invocation τ → List (Staging τ)
  | done _, _ => []
  | ask r next, inv =>
    let (reply, after) := r.answer site inv
    r.stagings site inv ++ (next reply).stagings site after

namespace Invocation

variable {s : Session τ} {target n m : NodeId} {inv after : Invocation τ} {site : Site} {kind k : String}

theorem keyed_stagings (site : Site) (inv : Invocation τ) (r : Request τ) :
    ∀ e ∈ r.stagings site inv, e.Keyed := by
  have one {n : NodeId} {kind : String} {change : Option (Marker τ)} {owned : Prop} [Decidable owned]
      (h : ∀ m ∈ change, Marker.kind m = kind) :
      ∀ e ∈ (if owned then [⟨n, kind, change⟩] else [] : List (Staging τ)), e.Keyed := by
    intro e he
    split at he
    · cases List.mem_singleton.1 he
      exact h
    · cases he
  cases r with
  | put n m =>
    refine one fun m' hm => ?_
    cases hm
    rfl
  | unmark n t => exact one fun m hm => nomatch hm
  | clone source parent =>
    intro e he
    rw [Request.stagings] at he
    split at he
    · split at he
      · obtain ⟨pair, -, he⟩ := List.mem_flatMap.1 he
        obtain ⟨m, -, rfl⟩ := List.mem_map.1 he
        intro m' hm
        cases hm
        rfl
      · cases he
    · cases he
  | _ => exact fun e he => nomatch he

theorem keyed_work_stagings (site : Site) (work : Work τ α) (inv : Invocation τ) :
    ∀ e ∈ work.stagings site inv, e.Keyed := by
  induction work generalizing inv with
  | done a => exact fun e he => nomatch he
  | ask r next ih =>
    intro e he
    rcases List.mem_append.1 he with he | he
    · exact keyed_stagings site inv r e he
    · exact ih _ _ e he

/-! ## What becomes of the overlay -/

theorem changes_stageAll (inv : Invocation τ) (m n : NodeId) (cs : MarkerChanges τ) :
    (inv.stageAll m cs).changes n = if m = n then cs else inv.changes n := by
  rw [changes, stageAll, OrdMap.get?_set]
  split
  · rfl
  · rfl

theorem changes_stage (inv : Invocation τ) (m n : NodeId) (kind : String) (change : Option (Marker τ))
    (k : String) : OrdMap.get? ((inv.stage m kind change).changes n) k =
      (Staging.last? [⟨m, kind, change⟩] n k).or (OrdMap.get? (inv.changes n) k) := by
  rw [stage, changes_stageAll]
  by_cases e : m = n
  · rw [if_pos e, OrdMap.get?_set]
    by_cases ek : kind = k
    · simp [Staging.last?, e, ek]
    · simp [Staging.last?, e, ek]
  · simp [Staging.last?, e]

theorem changes_removed (inv : Invocation τ) (gone : List NodeId) (n : NodeId) :
    (inv.removed gone).changes n = if n ∈ gone then ∅ else inv.changes n := by
  rw [changes, removed, OrdMap.get?_eraseAll]
  split
  · rfl
  · rfl

theorem changes_copyMarkers (inv : Invocation τ) {pair : NodeId × NodeId} (h : inv.changes pair.2 = ∅)
    (n : NodeId) : (inv.copyMarkers pair).changes n =
      if pair.2 = n then ((inv.markers pair.1).forCopy pair.1 pair.2).asChanges else inv.changes n := by
  unfold copyMarkers
  dsimp only
  split
  · rename_i hempty
    have nothing : ((inv.markers pair.1).forCopy pair.1 pair.2).asChanges = ∅ :=
      Sorted.ext (List.isEmpty_iff.1 hempty)
    split
    · rename_i e
      rw [nothing, ← e, h]
    · rfl
  · rw [changes_stageAll]

/-- What is staged under a kind when markers are copied to nodes for which nothing is staged yet. -/
theorem changes_foldl_copyMarkers (inv : Invocation τ) {pairs : List (NodeId × NodeId)}
    (hnew : ∀ pair ∈ pairs, inv.changes pair.2 = ∅) (hsingle : (pairs.map Prod.snd).Nodup)
    (hsources : ∀ a ∈ pairs, ∀ b ∈ pairs, a.1 ≠ b.2) (n : NodeId) (kind : String) :
    OrdMap.get? ((pairs.foldl copyMarkers inv).changes n) kind =
      (Staging.last? (pairs.flatMap inv.copied) n kind).or (OrdMap.get? (inv.changes n) kind) := by
  induction pairs generalizing inv with
  | nil => rfl
  | cons pair pairs ih =>
    obtain ⟨hpair, hpairs⟩ := List.forall_mem_cons.1 hnew
    obtain ⟨hfresh, hrest⟩ := List.nodup_cons.1 hsingle
    have first := changes_copyMarkers inv hpair
    have same {m : NodeId} (hm : pair.2 ≠ m) : (inv.copyMarkers pair).changes m = inv.changes m := by
      rw [first, if_neg hm]
    have sources : pairs.flatMap (inv.copyMarkers pair).copied = pairs.flatMap inv.copied := by
      refine List.flatMap_congr fun b hb => ?_
      have hne : pair.2 ≠ b.1 :=
        (hsources b (List.mem_cons_of_mem _ hb) pair List.mem_cons_self).symm
      have hsession : (inv.copyMarkers pair).session = inv.session :=
        (foldl_copyMarkers [pair] inv).1
      rw [copied, copied, markers, markers, same hne, hsession]
    rw [List.foldl_cons, ih _ ?new hrest ?sources, sources, List.flatMap_cons, Staging.last?_append,
      Option.or_assoc, first]
    case new =>
      intro b hb
      rw [same fun e => hfresh (e ▸ List.mem_map_of_mem hb), hpairs b hb]
    case sources =>
      exact fun a ha b hb => hsources a (List.mem_cons_of_mem _ ha) b (List.mem_cons_of_mem _ hb)
    congr 1
    by_cases e : pair.2 = n
    · have nothing : OrdMap.get? (inv.changes n) kind = none := by
        rw [← e, hpair]
        rfl
      rw [if_pos e, nothing, Option.or_none, Markers.get?_asChanges, Staging.last?, copied,
        ← List.map_reverse, ← List.map_reverse, List.find?_map, List.find?_map]
      simp [Function.comp_def, e]
    · rw [if_neg e, Staging.last?_eq_none, Option.none_or]
      intro entry hentry
      obtain ⟨m, -, rfl⟩ := List.mem_map.1 hentry
      exact e

theorem put_eq (inv : Invocation τ) (site : Site) (n : NodeId) (m : Marker τ) : inv.put site n m =
    if inv.session.tree.isWithin n site.target then .ok ((), inv.stage n m.kind (some m))
    else .error (.notOwned site.target n) := by
  rw [put, checkOwned]
  split
  · rfl
  · rfl

theorem unmark_eq (inv : Invocation τ) (site : Site) (n : NodeId) (t : τ) : inv.unmark site n t =
    if inv.session.tree.isWithin n site.target then
      .ok (inv.marker n t, inv.stage n (MarkerFamily.kind t) none)
    else .error (.notOwned site.target n) := by
  rw [unmark, checkOwned]
  split
  · rfl
  · rfl

/-- Nothing is staged for a number under which there is nothing in the overlay. -/
theorem changes_eq_empty (h : ∀ change ∈ inv.staged.markers, change.1 ≠ n) : inv.changes n = ∅ := by
  rw [changes, OrdMap.get?, Sorted.find?_eq_none.2 h]
  rfl

theorem changes_congr (h : after.staged.markers = inv.staged.markers) (n : NodeId) :
    after.changes n = inv.changes n := by
  rw [changes, changes, h]

namespace Isolated

variable (h : Isolated s target inv)

include h

/-- Nothing is staged for a number that has not been given out. -/
theorem changes_of_next_le (hn : inv.session.tree.next ≤ n) : inv.changes n = ∅ :=
  changes_eq_empty fun change hc e => Nat.not_lt.2 hn (e ▸ (h.markers change hc).1)

theorem changes_clone {source parent copy : NodeId} (he : inv.clone site source parent = .ok (copy, after))
    (n : NodeId) (kind : String) : OrdMap.get? (after.changes n) kind =
      (Staging.last? ((Request.clone source parent).stagings site inv) n kind).or
        (OrdMap.get? (inv.changes n) kind) := by
  obtain ⟨_, howned, he⟩ := bind_eq_ok.1 he
  obtain ⟨⟨pairs, tree⟩, hedit, he⟩ := bind_eq_ok.1 he
  cases he
  have hedit := onTree_ok hedit
  obtain ⟨hcopies, hsingle, hsources⟩ := h.wellFormed.copies_new hedit
  rw [Request.stagings, if_pos (checkOwned_ok howned), hedit]
  exact changes_foldl_copyMarkers (inv.withTree tree)
    (fun pair hpair => h.changes_of_next_le (hcopies pair hpair)) hsingle hsources n kind

/-- Answering a request adds its changes to the overlay of what is not removed. -/
theorem changes_answer {r : Request τ} (hr : r.Proper) (hn : n ∉ (r.answer site inv).2.staged.removed)
    (kind : String) : OrdMap.get? ((r.answer site inv).2.changes n) kind =
      (Staging.last? (r.stagings site inv) n kind).or (OrdMap.get? (inv.changes n) kind) := by
  have start : OrdMap.get? (inv.changes n) kind =
      (Staging.last? [] n kind).or (OrdMap.get? (inv.changes n) kind) := rfl
  cases r with
  | put m mark =>
    rw [Request.answer, put_eq, Request.stagings]
    split
    · exact changes_stage inv m n _ _ kind
    · exact start
  | unmark m t =>
    rw [Request.answer, unmark_eq, Request.stagings]
    split
    · exact changes_stage inv m n _ _ kind
    · exact start
  | add parent k name =>
    refine attempt_snd (P := fun after => OrdMap.get? (after.changes n) kind = _) start ?_
    intro m after he
    rw [changes_congr (markers_add he)]
    exact start
  | remove m =>
    rw [Request.answer] at hn ⊢
    revert hn
    refine attempt_snd (P := fun after => n ∉ after.staged.removed →
      OrdMap.get? (after.changes n) kind = _) (fun _ => start) fun _ after he hn => ?_
    obtain ⟨_, -, he⟩ := bind_eq_ok.1 he
    obtain ⟨⟨gone, tree⟩, -, he⟩ := bind_eq_ok.1 he
    cases he
    rw [changes_removed, if_neg fun hgone => hn (List.mem_append_right _ hgone)]
    exact start
  | clone source parent =>
    rw [Request.answer]
    cases he : inv.clone site source parent with
    | ok a => exact h.changes_clone he n kind
    | error e =>
      have none : (Request.clone source parent).stagings site inv = [] := by
        rw [Request.stagings]
        split
        · rename_i howned
          split
          · rename_i pairs tree hedit
            rw [Invocation.clone, checkOwned, if_pos howned, hedit] at he
            cases he
          · rfl
        · rfl
      rw [none]
      exact start
  | rename | graft | prune | store => exact hr.elim
  | _ => exact start

end Isolated

theorem mem_removed_answer {r : Request τ} (hr : r.Proper) (hn : n ∈ inv.staged.removed) :
    n ∈ (r.answer site inv).2.staged.removed := by
  refine answer_snd (P := fun after => n ∈ after.staged.removed) hr ?same ?stage ?add ?remove ?clone
  case same =>
    intro after _ _ hstaged
    rwa [hstaged]
  case stage => exact fun _ _ _ _ => hn
  case add =>
    intro parent kind name m after he
    rwa [(add_ok he).2.2.2.2]
  case remove =>
    intro m after he
    obtain ⟨-, gone, -, -, -, hremoved⟩ := remove_ok he
    rw [hremoved]
    exact List.mem_append_left _ hn
  case clone =>
    intro source parent m after he
    obtain ⟨-, pairs, -, -, -, hremoved⟩ := clone_ok he
    rwa [hremoved]

theorem mem_removed_run {work : Work τ α} (hw : work.Proper) (hn : n ∈ inv.staged.removed) :
    n ∈ (work.run site inv).2.staged.removed := by
  induction work generalizing inv with
  | done a => exact hn
  | ask r next ih => exact ih _ (hw.2 _) (mem_removed_answer hw.1 hn)

theorem Isolated.changes_run {work : Work τ α} (h : Isolated s target inv) (hs : s.tree.WellFormed)
    (ht : target < s.tree.next) (hsite : site.target = target) (hw : work.Proper)
    (hn : n ∉ (work.run site inv).2.staged.removed) (kind : String) :
    OrdMap.get? ((work.run site inv).2.changes n) kind =
      (Staging.last? (work.stagings site inv) n kind).or (OrdMap.get? (inv.changes n) kind) := by
  induction work generalizing inv with
  | done a => rfl
  | ask r next ih =>
    have first : n ∉ (r.answer site inv).2.staged.removed := by
      intro hin
      refine hn ?_
      show n ∈ ((next (r.answer site inv).1).run site (r.answer site inv).2).2.staged.removed
      exact mem_removed_run (hw.2 _) hin
    have rest := ih (r.answer site inv).1 (h.answer hs ht hsite hw.1) (hw.2 _) hn
    rw [h.changes_answer hw.1 first] at rest
    rw [Work.stagings, Staging.last?_append, Option.or_assoc]
    exact rest

/-- At its end an invocation has staged for a node, under each kind, the last change it made, unless
    it has removed the node. -/
theorem get?_changes_run {work : Work τ α} (hs : s.tree.WellFormed) (ht : site.target < s.tree.next)
    (hw : work.Proper) (notes : List Note)
    (hn : n ∉ (work.run site ⟨s, .none, notes⟩).2.staged.removed) (kind : String) :
    OrdMap.get? ((work.run site ⟨s, .none, notes⟩).2.changes n) kind =
      Staging.last? (work.stagings site ⟨s, .none, notes⟩) n kind := by
  have nothing : OrdMap.get? (changes ⟨s, .none, notes⟩ n) kind = none := rfl
  rw [(isolated_start hs notes).changes_run hs ht rfl hw hn, nothing, Option.or_none]

theorem keyed_changes_run {work : Work τ α} (hs : s.tree.WellFormed) (ht : site.target < s.tree.next)
    (hw : work.Proper) (notes : List Note)
    (hn : n ∉ (work.run site ⟨s, .none, notes⟩).2.staged.removed) :
    ((work.run site ⟨s, .none, notes⟩).2.changes n).Keyed := by
  intro kind change hchange
  rw [get?_changes_run hs ht hw notes hn] at hchange
  exact Staging.keyed_of_last? (keyed_work_stagings site work _) hchange

/-! ## Reading through the overlay -/

/-- The overlay shows the markers of a node as they will be. -/
theorem get_markers (h : (inv.changes n).Keyed) (t : τ) : (inv.markers n).get t = inv.marker n t := by
  rw [Markers.get, markers, Markers.find?_changeAll h, marker]
  cases OrdMap.get? (inv.changes n) (MarkerFamily.kind t) with
  | none => rfl
  | some change =>
    cases change with
    | none => rfl
    | some m => rfl

end Invocation

/-- Numbers a type, copies its labelled method, then takes the number off the method, where there is
    none, and tries a removal that is refused. -/
def Work.numbering : Work StockMarker Unit :=
  .ask (.put 2 ⟨.numericLabel, .number 7⟩) fun _ => .ask (.clone 3 2) fun _ =>
    .ask (.unmark 3 .numericLabel) fun _ => .ask (.remove 5) fun _ => .done ()

end Trellis
