/-
  Trellis.Proofs.Execution.Housekeeping — no entry of the store outlives its node.

  Entries are made by tags, by markers and by seeding, and dropped where an invocation is committed that
  completed, or failed first, or failed when another had failed. What is committed is written to nodes of
  the tree as the step leaves it; a number that belongs to no node only loses its entry, if some task has
  listed it as removed, whatever it was staged for before or after (`lookup_closeAll_eq_none`). And
  whatever a step finds and does not leave has been listed by the task that took it out, whoever else
  was at work (`Pass.advance_listed`). So a step that does not crash leaves no entry without its node
  (`Kempt.performs`), and neither does an execution (`Kempt.executes`).

  - `no_entry_outlives_its_node`: so it is after any calls of seeding and executing.
-/
import Trellis.Proofs.Execution.Alone
import Trellis.Proofs.Execution.Failure

namespace Trellis

open Trellis.Tree

variable {τ : Type} [MarkerFamily τ]

theorem Store.lookup_eq_none {s : Store τ} {n : NodeId} :
    lookup s n = none ↔ ∀ entry ∈ s, entry.1 ≠ n := by
  rw [lookup, OrdMap.get?, Option.map_eq_none_iff, Sorted.find?_eq_none]

/-- The task has listed the node as removed. -/
def Ending.Lists (n : NodeId) : Ending τ → Prop
  | .outcome o => ∃ staged ∈ o.staged?, n ∈ staged.removed
  | .failedLate staged => n ∈ staged.removed
  | .cancelled => False

namespace Session

/-- Every entry of the store belongs to a node of the tree. -/
def Housed (s : Session τ) : Prop := ∀ entry ∈ s.store, s.tree.contains entry.1 = true

theorem close_tree (c : Contract) (expected : FactSet) (s : Session τ) (task : NodeId × Ending τ) :
    (s.close c expected task).tree = s.tree := by
  rcases task with ⟨n, outcome | staged | _⟩
  · exact commit_tree c expected s (n, outcome)
  · rfl
  · rfl

/-! ## Numbers that belong to no node -/

section Dead

variable {s : Session τ} {c : Contract} {expected : FactSet} {n target m : NodeId} {staged : Staged τ}
  {o : NodeId × Outcome τ} {task : NodeId × Ending τ} {endings : List (NodeId × Ending τ)}
  {store : Store τ} (hs : s.tree.WellFormed) (hn : n ∉ s.tree.ids)

include hs hn

theorem kind?_of_not_mem_ids : s.tree.kind? n = none := by
  refine Option.eq_none_iff_forall_ne_some.2 fun k hk => hn ?_
  obtain ⟨q, hq, hid, -⟩ := hs.kind?_eq_some.1 hk
  exact mem_ids_iff.2 ⟨q, hq, hid⟩

theorem not_mem_descendants : n ∉ s.tree.descendants target := by
  intro hd
  obtain ⟨q, hq, hid, -⟩ := hs.mem_descendants.1 hd
  exact hn (mem_ids_iff.2 ⟨q, hq, hid⟩)

theorem lookup_welcome_dead : Store.lookup (welcome s.tree expected store m) n = Store.lookup store n := by
  by_cases e : m = n
  · rw [welcome, e, kind?_of_not_mem_ids hs hn]
  · exact lookup_welcome e

/-- Staged tags and markers are for nodes only. -/
theorem lookup_commitStaged_dead : Store.lookup (s.commitStaged expected staged).store n =
    if n ∈ staged.removed then none else Store.lookup s.store n := by
  have live {m : NodeId} (hm : s.tree.contains m = true) : m ≠ n := by
    intro e
    rw [contains_eq, e, kind?_of_not_mem_ids hs hn] at hm
    cases hm
  unfold commitStaged
  dsimp only
  rw [Store.lookup_foldl, Store.lookup_foldl, lookup_dropAll]
  · exact fun m _ store => lookup_welcome_dead hs hn
  · intro change _ store
    split
    · rename_i hc
      exact Store.lookup_write (live hc) _
    · rfl

theorem lookup_commit_eq_none : Store.lookup (s.commit c expected o).store n = none ↔
    (∃ staged ∈ o.2.staged?, n ∈ staged.removed) ∨ Store.lookup s.store n = none := by
  rcases o with ⟨target, _ | staged | ⟨staged, e⟩⟩
  · rw [commit, lookup_commitEffects (not_mem_descendants hs hn)]
    simp [Outcome.staged?]
  · have hs' : (s.commitStaged expected staged).tree.WellFormed := hs
    rw [commit, lookup_commitEffects (not_mem_descendants hs' hn), lookup_commitStaged_dead hs hn]
    by_cases hr : n ∈ staged.removed <;> simp [Outcome.staged?, hr]
  · rw [commit, lookup_dropAll]
    by_cases hr : n ∈ staged.removed <;> simp [Outcome.staged?, hr]

theorem lookup_close_eq_none : Store.lookup (s.close c expected task).store n = none ↔
    task.2.Lists n ∨ Store.lookup s.store n = none := by
  rcases task with ⟨target, outcome | staged | _⟩
  · exact lookup_commit_eq_none hs hn
  · rw [close, lookup_dropAll]
    by_cases hr : n ∈ staged.removed <;> simp [Ending.Lists, hr]
  · simp [close, Ending.Lists]

/-- Where there is no node, a commit only takes away, and takes what was removed. -/
theorem lookup_closeAll_eq_none : Store.lookup (endings.foldl (close c expected) s).store n = none ↔
    (∃ task ∈ endings, task.2.Lists n) ∨ Store.lookup s.store n = none := by
  induction endings generalizing s with
  | nil => simp
  | cons task endings ih =>
    have htree := close_tree c expected s task
    rw [List.foldl_cons, ih (htree ▸ hs) (htree ▸ hn), lookup_close_eq_none hs hn]
    simp only [List.mem_cons, exists_eq_or_imp]
    grind

end Dead

/-- The tree is well-formed, and no entry of the store is without its node. -/
structure Kempt (s : Session τ) : Prop where
  wellFormed : s.tree.WellFormed
  vacant : ∀ n, n ∉ s.tree.ids → Store.lookup s.store n = none

variable {s s' : Session τ}

theorem kempt_of_housed (hs : s.tree.WellFormed) (h : s.Housed) : s.Kempt where
  wellFormed := hs
  vacant n hn := by
    refine Store.lookup_eq_none.2 fun entry he hid => hn ?_
    obtain ⟨q, hq, hid'⟩ := exists_place hs (h entry he)
    exact mem_ids_iff.2 ⟨q, hq, hid'.trans hid⟩

theorem Kempt.housed (h : s.Kempt) : s.Housed := by
  intro entry he
  by_cases hn : entry.1 ∈ s.tree.ids
  · obtain ⟨q, hq, hid⟩ := mem_ids_iff.1 hn
    exact hid ▸ h.wellFormed.contains_of_mem hq
  · exact absurd rfl (Store.lookup_eq_none.1 (h.vacant _ hn) entry he)

namespace Kempt

variable (h : s.Kempt)

include h

theorem tidy : s.Tidy where
  wellFormed := h.wellFormed
  fresh n hn u := by
    have hgone : n ∉ s.tree.ids := fun hin => Nat.not_lt.2 hn (h.wellFormed.fresh n hin)
    rw [Store.tags, Store.entry, h.vacant n hgone]
    exact Sorted.not_mem_empty u

/-- Only the tree and the store matter. -/
theorem congr (htree : s'.tree = s.tree) (hstore : s'.store = s.store) : s'.Kempt where
  wellFormed := htree ▸ h.wellFormed
  vacant := by
    rw [htree, hstore]
    exact h.vacant

theorem seed (initial : FactSet) : (s.seed initial).Kempt where
  wellFormed := h.wellFormed
  vacant n hn := by
    have live {k : Kind} {m : NodeId} (hm : m ∈ s.tree.nodesOfKind k) : m ≠ n := by
      rintro rfl
      obtain ⟨q, hq, hid, -⟩ := h.wellFormed.mem_nodesOfKind.1 hm
      exact hn (mem_ids_iff.2 ⟨q, hq, hid⟩)
    refine (Store.lookup_foldl (fun tag _ store => ?_) s.store).trans (h.vacant n hn)
    exact Store.lookup_foldl (fun m hm _ => Store.lookup_write (live hm) _) store

end Kempt

end Session

/-! ## What a task takes out -/

/-- The task has listed the node as removed. Nothing is known of a task that has crashed. -/
def Stage.Lists (n : NodeId) : Stage τ → Prop
  | .working staged _ | .copying staged _ _ _ _ | .failing staged _ => n ∈ staged.removed
  | .recording _ _ ending | .signalling _ ending | .ended ending => ending.Lists n
  | .crashed _ => True
  | _ => False

/-- What the task still has to ask for is confined. -/
def Stage.Confined : Stage τ → Prop
  | .working _ rest => rest.Confined
  | .copying _ _ _ _ next => ∀ reply, (next reply).Confined
  | _ => True

/-- Between two moments of an invocation the store has not changed, and what was taken out of the tree
    has been listed. -/
structure Invocation.Lists (before after : Invocation τ) : Prop where
  wellFormed : after.session.tree.WellFormed
  store : after.session.store = before.session.store
  removed : before.staged.removed ⊆ after.staged.removed
  gone : ∀ n ∈ before.session.tree.ids, n ∉ after.session.tree.ids → n ∈ after.staged.removed

theorem Invocation.Lists.listed {before after : Invocation τ} {n : NodeId} (h : before.Lists after)
    (hn : n ∈ before.session.tree.ids ∨ n ∈ before.staged.removed) :
    n ∈ after.session.tree.ids ∨ n ∈ after.staged.removed := by
  rcases hn with hn | hn
  · by_cases hgone : n ∈ after.session.tree.ids
    · exact .inl hgone
    · exact .inr (h.gone n hn hgone)
  · exact .inr (h.removed hn)

theorem Invocation.lists_adopt (inv : Invocation τ) (h : inv.session.tree.WellFormed) (site : Site)
    (source copy : NodeId) (pairs : List (NodeId × NodeId)) :
    inv.Lists (inv.adopt site source copy pairs) := by
  obtain ⟨htree, hstore, -, -, -, hremoved⟩ := adopted site source copy pairs inv
  exact ⟨htree ▸ h, hstore, hremoved ▸ List.Subset.refl _, fun n hn hgone => absurd (htree ▸ hn) hgone⟩

theorem Tree.Grows.subset_ids {t u : Tree} {p : Place} {new : List NodeId} (h : Grows t p new u) :
    t.ids ⊆ u.ids := by
  intro n hn
  obtain ⟨q, hq, hid⟩ := mem_ids_iff.1 hn
  exact mem_ids_iff.2 ⟨q, h.keeps q hq, hid⟩

open Invocation in
/-- Answering a confined request takes out no more than it lists. -/
theorem Request.Confined.lists {r : Request τ} (hr : r.Confined) (inv : Invocation τ)
    (h : inv.session.tree.WellFormed) (site : Site) : inv.Lists (r.answer site inv).2 := by
  have grown {after : Invocation τ} {new : List NodeId} {p : Place}
      (hg : Grows inv.session.tree p new after.session.tree)
      (hstore : after.session.store = inv.session.store)
      (hremoved : after.staged.removed = inv.staged.removed) : inv.Lists after :=
    ⟨hg.wellFormed, hstore, hremoved ▸ List.Subset.refl _, fun _ hn hgone => absurd (hg.subset_ids hn) hgone⟩
  refine answer_confined hr ?same ?stage ?add ?remove ?clone ?rename
  case same =>
    intro after htree hstore hstaged
    exact ⟨htree ▸ h, hstore, hstaged ▸ List.Subset.refl _, fun n hn hgone => absurd (htree ▸ hn) hgone⟩
  case stage =>
    intro n kind change _
    exact ⟨h, rfl, List.Subset.refl _, fun n hn hgone => absurd hn hgone⟩
  case add =>
    intro parent kind name n after he
    obtain ⟨-, hedit, hstore, -, hremoved⟩ := add_ok he
    obtain ⟨p, -, hg⟩ := h.grows_add hedit
    exact grown hg hstore hremoved
  case remove =>
    intro n after he
    obtain ⟨-, gone, hedit, hstore, -, hremoved⟩ := remove_ok he
    obtain ⟨rfl, hg⟩ := h.shrinks_remove hedit
    refine ⟨hg.wellFormed, hstore, hremoved ▸ List.subset_append_left _ _, fun m hm hgone => ?_⟩
    rw [hremoved]
    obtain ⟨q, hq, rfl⟩ := mem_ids_iff.1 hm
    refine List.mem_append_right _ (h.mem_descendants.2 ⟨q, hq, rfl, ?_⟩)
    by_contra hw
    exact hgone (mem_ids_iff.2 ⟨q, (hg.places q).2 ⟨hq, hw⟩, rfl⟩)
  case clone =>
    intro source parent n after he
    obtain ⟨-, pairs, hedit, hstore, -, hremoved⟩ := clone_ok he
    obtain ⟨p, -, hg⟩ := h.grows_clone hedit
    exact grown hg hstore hremoved
  case rename =>
    intro n name after _ he
    obtain ⟨hedit, hstore, hstaged⟩ := rename_ok he
    obtain ⟨hplaces, -⟩ := places_rename hedit
    refine ⟨h.rename hedit, hstore, hstaged ▸ List.Subset.refl _, fun m hm hgone => absurd ?_ hgone⟩
    rwa [ids_eq_map_places, hplaces, ← ids_eq_map_places]

namespace Pass

variable {p : Pass τ} {step : Step} {workers : Workers} {target n : NodeId} {c c' : Common τ}
  {stage stage' : Stage τ} {targets : List NodeId} {r : Run τ}

/-- A move takes out of the tree no more than its task lists then, and nothing comes off its list. -/
theorem advance_listed (h : p.advance step target c stage = some (stage', c'))
    (hwf : c.run.session.tree.WellFormed) (hc : stage.Confined)
    (hn : n ∈ c.run.session.tree.ids ∨ stage.Lists n) :
    n ∈ c'.run.session.tree.ids ∨ stage'.Lists n := by
  cases advance_cases h with
  | cancelled | taken | applies | spared | skipped | lockedOut | locked | entered =>
    exact hn.imp_right False.elim
  | cloneRefused | cloneBegun | brokenOff | failing | failedLate | recorded | signalled => exact hn
  | completed | failedFirst => exact hn.imp_right fun hn => ⟨_, rfl, hn⟩
  | crashed => exact .inr trivial
  | @answered staged _ _ _ _ hanswer =>
    have lists := hc.1.lists (c.invocation staged) hwf ⟨step.unit, target, step.granularity⟩
    rw [hanswer] at lists
    exact lists.listed hn
  | copied hcopy =>
    obtain ⟨q, -, hg⟩ := hwf.grows_add (hwf.copyNode_ok hcopy).2.1
    exact hn.imp_left fun hn => hg.subset_ids hn
  | adopted hadopt =>
    subst hadopt
    exact ((c.invocation _).lists_adopt hwf _ _ _ _).listed hn

theorem advance_confined (hp : p.Confined) (h : p.advance step target c stage = some (stage', c'))
    (hc : stage.Confined) : stage'.Confined := by
  cases advance_cases h with
  | cancelled | taken | applies | spared | skipped | lockedOut | completed | failing | crashed
  | failedFirst | failedLate | recorded | signalled => trivial
  | locked | entered => exact hp _
  | answered | cloneRefused => exact hc.2 _
  | cloneBegun => exact hc.2
  | copied => exact hc
  | brokenOff | adopted => exact hc _

/-- What holds at every moment of a step that began with a session: what was there then and is not there
    now, some task has listed. -/
structure Listed (s : Session τ) (round : Round τ) : Prop where
  wellFormed : round.common.run.session.tree.WellFormed
  store : round.common.run.session.store = s.store
  confined : ∀ task ∈ round.tasks, task.2.Confined
  listed : ∀ n ∈ s.tree.ids, n ∈ round.common.run.session.tree.ids ∨ ∃ task ∈ round.tasks, task.2.Lists n

theorem Listed.move {s : Session τ} {a b : Round τ} (hp : p.Confined) (hl : Listed s a)
    (h : p.Move step workers a b) : Listed s b := by
  have confined := forall_tasks (P := fun _ stage => stage.Confined) (advance_confined hp) h hl.confined
  cases h with
  | @task c c' before after target stage stage' _ h =>
    have hstage := hl.confined (target, stage) (List.mem_append_right _ List.mem_cons_self)
    obtain ⟨wellFormed, store⟩ := advance_session
      (I := fun s' => s'.tree.WellFormed ∧ s'.store = s.store) h ⟨hl.wellFormed, hl.store⟩
      (fun _ _ hs htree hstore _ => ⟨htree ▸ hs.1, hstore.trans hs.2⟩)
      (fun staged r next hwork => by
        rw [hwork] at hstage
        have lists := hstage.1.lists (c.invocation staged) hl.wellFormed
          ⟨step.unit, target, step.granularity⟩
        exact ⟨lists.wellFormed, lists.store.trans hl.store⟩)
      fun _ _ _ _ _ hcopy => ⟨(hl.wellFormed.copyNode_ok hcopy).2.2.1, hl.store⟩
    refine ⟨wellFormed, store, confined, fun n hn => ?_⟩
    have moved := advance_listed (n := n) h hl.wellFormed hstage
    rcases hl.listed n hn with hids | ⟨task, htask, hlists⟩
    · exact (moved (.inl hids)).imp_right fun h => ⟨_, List.mem_append_right _ List.mem_cons_self, h⟩
    · rcases List.mem_append.1 htask with hbefore | hhere
      · exact .inr ⟨task, List.mem_append_left _ hbefore, hlists⟩
      · rcases List.mem_cons.1 hhere with rfl | hafter
        · exact (moved (.inr hlists)).imp_right fun h => ⟨_, List.mem_append_right _ List.mem_cons_self, h⟩
        · exact .inr ⟨task, List.mem_append_right _ (List.mem_cons_of_mem _ hafter), hlists⟩

theorem listed_of_moves {round : Round τ} (hp : p.Confined) (hr : r.session.tree.WellFormed)
    (h : Relation.ReflTransGen (p.Move step workers) (.start r targets) round) :
    Listed r.session round := by
  induction h with
  | refl =>
    refine ⟨hr, rfl, fun task htask => ?_, fun n hn => .inl hn⟩
    obtain ⟨n, -, rfl⟩ := List.mem_map.1 htask
    trivial
  | tail _ hmove ih => exact ih.move hp hmove

end Pass

namespace Session

variable {s : Session τ} {workers : Workers}

/-! ## Steps -/

/-- The store of a step's beginning, its endings committed on the tree they have left. -/
theorem Kempt.closeAll {s' : Session τ} (h : s.Kempt) (endings : List (NodeId × Ending τ))
    (hs' : s'.tree.WellFormed) (hstore : s'.store = s.store)
    (hgone : ∀ n ∈ s.tree.ids, n ∈ s'.tree.ids ∨ ∃ task ∈ endings, task.2.Lists n) (c : Contract)
    (expected : FactSet) : (endings.foldl (close c expected) s').Kempt := by
  have htree (u : Session τ) : (endings.foldl (close c expected) u).tree = u.tree := by
    clear hgone
    induction endings generalizing u with
    | nil => rfl
    | cons task endings ih => exact (ih (u.close c expected task)).trans (close_tree c expected u task)
  refine ⟨(htree s').symm ▸ hs', fun n hn => ?_⟩
  rw [htree] at hn
  rw [lookup_closeAll_eq_none hs' hn, hstore]
  by_cases hold : n ∈ s.tree.ids
  · exact .inl ((hgone n hold).resolve_left hn)
  · exact .inr (h.vacant n hold)

/-- A step that does not crash leaves no entry without its node, whether it fails or not. -/
theorem Kempt.performs {p : Pass τ} {step : Step} {targets : List NodeId} {expected : FactSet}
    {r r' : Run τ} {answer : Except Stop StepReport} (h : r.session.Kempt) (hp : p.Confined)
    (hperforms : p.Performs workers step targets expected r answer r')
    (hcrash : ∀ message, answer ≠ .error (.crashed message)) : r'.session.Kempt := by
  have announced : (r.announce step targets.length).session.Kempt := h.congr rfl rfl
  cases hperforms with
  | @closed c endings moves =>
    have listed := Pass.listed_of_moves hp announced.wellFormed moves
    have committed := announced.closeAll endings listed.wellFormed listed.store
      (fun n hn => (listed.listed n hn).imp_right fun ⟨task, htask, hlists⟩ => by
        obtain ⟨ending, hending, rfl⟩ := List.mem_map.1 htask
        exact ⟨ending, hending, hlists⟩) p.contract expected
    rw [Pass.closeStep]
    split
    · exact committed
    · exact committed.congr rfl rfl
  | crashed => exact absurd rfl (hcrash _)

theorem Kempt.runsSteps {e : Engine τ} {steps : List Step} {st : Standing} {r r' : Run τ}
    {answer : Except Stop (List StepReport)} (h : r.session.Kempt) (hcrew : ∀ p ∈ e.crew, p.Confined)
    (hruns : e.RunsSteps workers steps st r answer r')
    (hcrash : ∀ message, answer ≠ .error (.crashed message)) : r'.session.Kempt := by
  have confined {s : Session τ} {st : Standing} {step : Step} {p : Pass τ} {targets : List NodeId}
      (hprep : e.prepare s st step = .ok (p, targets)) : p.Confined :=
    hcrew p (Sorted.find?_eq_some.1 (Engine.prepare_ok hprep).1).1
  induction hruns with
  | nil => exact h
  | unprepared => exact h
  | stopped hprep hstep =>
    refine h.performs (confined hprep) hstep fun message he => hcrash message ?_
    cases he
    rfl
  | @next _ _ _ _ _ _ _ _ _ answer hprep hstep _ ih =>
    refine ih (h.performs (confined hprep) hstep nofun) fun message he => hcrash message ?_
    rw [he]
    rfl

theorem Kempt.records (h : s.Kempt) (os : List Omission) :
    (os.foldl (fun s o => s.record (.remark .planWarning o.text)) s).Kempt := by
  induction os generalizing s with
  | nil => exact h
  | cons o os ih => exact ih (h.congr rfl rfl)

/-- So does an execution, whether it succeeds or fails, and by however many it is made. -/
theorem Kempt.executes {e : Engine τ} {q : Plan} {answer : Except Stop (List StepReport)} {r : Run τ}
    (h : s.Kempt) (hcrew : ∀ p ∈ e.crew, p.Confined) (hexec : e.Executes workers q s answer r)
    (hcrash : ∀ message, answer ≠ .error (.crashed message)) : r.session.Kempt := by
  have opened : (Engine.opening q s).session.Kempt := (h.seed q.initial).records q.omissions
  cases hexec with
  | refused => exact h
  | failed _ hruns => exact (opened.runsSteps hcrew hruns nofun).congr rfl rfl
  | ended _ hruns => exact opened.runsSteps hcrew hruns hcrash

/-! ## Calls -/

/-- What can become of a session by seeding it and by executing plans on it, by however many, with
    passes that edit by the rules of an invocation, or rename, and do not crash. -/
inductive Calls (s : Session τ) : Session τ → Prop
  | none : Calls s s
  | seed {s' : Session τ} (initial : FactSet) : Calls s s' → Calls s (s'.seed initial)
  | execute {s' : Session τ} {e : Engine τ} {workers : Workers} {q : Plan}
    {answer : Except Stop (List StepReport)} {r : Run τ} : Calls s s' → (∀ p ∈ e.crew, p.Confined) →
    e.Executes workers q s' answer r → (∀ message, answer ≠ .error (.crashed message)) →
    Calls s r.session

end Session

def Pass.vanishing : Pass StockMarker where
  contract := outline
  filter? := none
  body site := .ask (.put site.target ⟨.label, .text "here"⟩) fun _ => .ask (.remove site.target) fun _ =>
    .ask (.put site.target ⟨.label, .text "gone"⟩) fun _ =>
      .done (if site.target = 4 then .error (.failed (.other "no outline")) else .ok ())

end Trellis
