/-
  Trellis.Proofs.Execution.Siblings — the targets of a step, one by one and in any order.

  An outcome is quiet if it is no failure and nothing was created on the way to it. To which quiet
  outcome an invocation comes is a matter between its target and the run that the step began with:
  what siblings have done before makes no difference to it, and all it does to the tree is to take
  out nodes of its own (`invoke_elsewhere`). So the targets can be invoked in any order
  (`invokeAll_of_comesTo`, `comesTo_of_invokeAll`).

  Committing the outcomes writes below their own targets only, and these are apart, so it can be
  done in any order as well (`targets_in_any_order`).
-/
import Trellis.Proofs.Execution.Commute
import Trellis.Proofs.Execution.Failure
import Trellis.Proofs.Execution.Shadow

namespace Trellis

open Trellis.Tree

variable {τ : Type} [MarkerFamily τ]

/-! ## Quiet outcomes -/

namespace Outcome

/-- Nothing failed, and nothing was created. -/
def Quiet : Outcome τ → Prop
  | .skipped => True
  | .completed staged => staged.created = []
  | .failed _ _ => False

/-- What an invocation took out of the tree. -/
def removed (outcome : Outcome τ) : List NodeId := (outcome.staged?.map Staged.removed).getD []

/-- The outcome is about nodes that `t` has below `target`. -/
def StaysBelow (t : Tree) (target : NodeId) (outcome : Outcome τ) : Prop :=
  ∀ staged ∈ outcome.staged?, (∀ n ∈ staged.removed, n ∈ t.descendants target) ∧
    ∀ change ∈ staged.markers, change.1 ∈ t.descendants target

variable {outcome : Outcome τ} {t : Tree} {target n : NodeId}

omit [MarkerFamily τ] in
theorem StaysBelow.mem_of_removed (h : outcome.StaysBelow t target) (hn : n ∈ outcome.removed) :
    n ∈ t.descendants target := by
  cases outcome with
  | skipped => exact absurd hn List.not_mem_nil
  | completed staged => exact (h staged rfl).1 n hn
  | failed staged e => exact (h staged rfl).1 n hn

omit [MarkerFamily τ] in
/-- All that is committed of a quiet outcome is about nodes below its target. -/
theorem StaysBelow.mem_of_touches (h : outcome.StaysBelow t target) (hq : outcome.Quiet)
    (ht : t.WellFormed) {gone : List NodeId} (hwf : (t.without gone).WellFormed)
    (hn : Session.Touches (t.without gone) (target, outcome) n) : n ∈ t.descendants target := by
  rcases hn with hn | ⟨staged, hs, hn | hn | ⟨change, hc, rfl⟩⟩
  · obtain ⟨p, hp, rfl, hw⟩ := hwf.mem_descendants.1 hn
    exact ht.mem_descendants.2 ⟨p, (mem_places_without.1 hp).1, rfl, hw⟩
  · cases outcome with
    | skipped => cases hs
    | completed staged =>
      cases hs
      rw [Quiet] at hq
      rw [hq] at hn
      exact absurd hn List.not_mem_nil
    | failed staged e => exact hq.elim
  · exact (h staged hs).1 n hn
  · exact (h staged hs).2 change hc

end Outcome

namespace StepReport

variable {outcomes outcomes' : List (NodeId × Outcome τ)} {report : StepReport}

omit [MarkerFamily τ] in
theorem count_comm (report : StepReport) (x y : Outcome τ) :
    (report.count x).count y = (report.count y).count x := by
  cases x <;> cases y <;> simp [count, Nat.add_right_comm]

omit [MarkerFamily τ] in
/-- The report does not tell in which order the outcomes came about. -/
theorem count_perm (hperm : outcomes.Perm outcomes') (report : StepReport) :
    (outcomes.map Prod.snd).foldl count report = (outcomes'.map Prod.snd).foldl count report :=
  (hperm.map Prod.snd).foldl_eq' (fun x _ y _ report => count_comm report x y) report

omit [MarkerFamily τ] in
theorem created_le_count (outcomes : List (Outcome τ)) (report : StepReport) :
    report.created ≤ (outcomes.foldl count report).created := by
  induction outcomes generalizing report with
  | nil => exact Nat.le_refl _
  | cons outcome outcomes ih =>
    refine Nat.le_trans ?_ (ih (report.count outcome))
    cases outcome with
    | skipped => exact Nat.le_refl _
    | completed staged => exact Nat.le_add_right _ _
    | failed staged e => exact Nat.le_refl _

omit [MarkerFamily τ] in
/-- A step that did not fail and reports no creations had quiet outcomes only. -/
theorem quiet_of_created (hf : Outcome.failure? outcomes = none)
    (hc : ((outcomes.map Prod.snd).foldl count report).created = 0) : ∀ o ∈ outcomes, o.2.Quiet := by
  induction outcomes generalizing report with
  | nil => exact fun o ho => absurd ho List.not_mem_nil
  | cons o outcomes ih =>
    have first := created_le_count (outcomes.map Prod.snd) (report.count o.2)
    have rest : Outcome.failure? outcomes = none := List.findSome?_eq_none_iff.2 fun o ho =>
      List.findSome?_eq_none_iff.1 hf o (List.mem_cons_of_mem _ ho)
    refine List.forall_mem_cons.2 ⟨?_, ih rest hc⟩
    rw [List.map_cons, List.foldl_cons] at hc
    rw [hc, Nat.le_zero] at first
    rcases o with ⟨target, _ | staged | ⟨staged, e⟩⟩
    · trivial
    · exact List.eq_nil_of_length_eq_zero (Nat.eq_zero_of_add_eq_zero_left first)
    · cases hf

end StepReport

/-! ## One invocation -/

namespace Pass

variable {p : Pass τ} {step : Step} {target : NodeId} {r r' r₁ : Run τ} {outcome : Outcome τ}
  {inv : Invocation τ} {gone : List NodeId}

/-- Run on a target now, the body looks at the tree within the target only. -/
def LooksWithin (p : Pass τ) (step : Step) (target : NodeId) (r : Run τ) : Prop :=
  (p.body ⟨step.unit, target, step.granularity⟩).LooksWithin ⟨step.unit, target, step.granularity⟩
    ⟨r.session, .none, r.notes⟩

theorem runBody_eq_ok : p.runBody step target r = (.ok (), inv) ↔
    (step.exclusive && r.session.lockBroken) = false ∧
      (p.body ⟨step.unit, target, step.granularity⟩).run ⟨step.unit, target, step.granularity⟩
        ⟨r.session, .none, r.notes⟩ = (.ok (), inv) := by
  unfold runBody
  dsimp only
  split
  · rename_i hlock
    simp [hlock]
  · rename_i hlock
    rw [Bool.not_eq_true] at hlock
    rw [and_iff_right hlock]
    split
    · rename_i hrun
      rw [hrun]
      simp
    · exact Iff.rfl

theorem invoke_of_not_appliesTo (step : Step) (h : r.session.appliesTo p target = false) :
    (p.invoke step r target).1 = .ok .skipped ∧
      ∃ event, (p.invoke step r target).2.session = r.session.record event := by
  rw [invoke, h, if_neg Bool.false_ne_true]
  exact ⟨rfl, _, rfl⟩

theorem invoke_of_runBody (h : r.session.appliesTo p target = true)
    (hrun : p.runBody step target r = (.ok (), inv)) :
    (p.invoke step r target).1 = .ok (.completed inv.staged) ∧
      ∃ event, (p.invoke step r target).2.session = inv.session.record event := by
  rw [invoke, if_pos h, hrun]
  exact ⟨rfl, _, rfl⟩

/-- An invocation that ends well has skipped its target, or run the body to its end. -/
theorem invoke_completed (ho : (p.invoke step r target).1 = .ok outcome)
    (hf : ∀ staged e, outcome ≠ .failed staged e) :
    r.session.appliesTo p target = false ∧ outcome = .skipped ∨
      r.session.appliesTo p target = true ∧ ∃ inv, p.runBody step target r = (.ok (), inv) ∧
        outcome = .completed inv.staged := by
  unfold invoke at ho
  split at ho
  · rename_i happlies
    split at ho
    · rename_i inv hrun
      cases ho
      exact .inr ⟨happlies, inv, hrun, rfl⟩
    · cases ho
      exact absurd rfl (hf _ _)
    · cases ho
  · rename_i happlies
    cases ho
    exact .inl ⟨Bool.eq_false_iff.2 happlies, rfl⟩

/-- A quiet one has created nothing besides. -/
theorem invoke_quiet (ho : (p.invoke step r target).1 = .ok outcome) (hq : outcome.Quiet) :
    r.session.appliesTo p target = false ∧ outcome = .skipped ∨
      r.session.appliesTo p target = true ∧ ∃ inv, p.runBody step target r = (.ok (), inv) ∧
        inv.staged.created = [] ∧ outcome = .completed inv.staged := by
  have hf : ∀ staged e, outcome ≠ .failed staged e := by
    rintro staged e rfl
    exact hq
  rcases invoke_completed ho hf with hskip | ⟨happlies, inv, hrun, rfl⟩
  · exact .inl hskip
  · exact .inr ⟨happlies, inv, hrun, hq, rfl⟩

section Elsewhere

/-! Run `r'` lacks some nodes apart from the target that run `r` has. -/

variable (hp : p.Proper) (h : r.session.tree.WellFormed) (h' : r'.session.tree.WellFormed)
  (hlacks : r.session.Lacks gone r'.session) (hg : ∀ m ∈ gone, r.session.tree.Apart m target)

include h h' hlacks hg

theorem appliesTo_elsewhere : r'.session.appliesTo p target = r.session.appliesTo p target := by
  have hget : r'.session.tree.get? target = r.session.tree.get? target := by
    rw [hlacks.tree] at h' ⊢
    refine get?_without h h' hg ?_
    intro q _ hq
    rw [← hq]
    exact q.within_self
  rw [Session.appliesTo, Session.appliesTo, hget]

include hp

/-- If the body ends well in one of the runs, creating nothing, it does so in both. -/
theorem runBody_elsewhere (hlive : target ∈ r.session.tree.ids) (hl : p.LooksWithin step target r)
    (hr₁ : r₁ = r ∨ r₁ = r') (hrun : p.runBody step target r₁ = (.ok (), inv))
    (hc : inv.staged.created = []) :
    ∃ after after', p.runBody step target r = (.ok (), after) ∧
      p.runBody step target r' = (.ok (), after') ∧ after.Shadows gone after' ∧
      after.Contained r.session target ∧ after.staged = inv.staged := by
  let site : Site := ⟨step.unit, target, step.granularity⟩
  have hnext : target < r'.session.tree.next := by
    rw [hlacks.tree]
    exact h.fresh target hlive
  obtain ⟨hlock, hrun⟩ := runBody_eq_ok.1 hrun
  have begun : Invocation.Shadows gone ⟨r.session, .none, r.notes⟩ ⟨r'.session, .none, r'.notes⟩ :=
    ⟨hlacks, rfl⟩
  have quiet : ((p.body site).run site ⟨r.session, .none, r.notes⟩).2.staged.created = [] ∨
      ((p.body site).run site ⟨r'.session, .none, r'.notes⟩).2.staged.created = [] := by
    rcases hr₁ with rfl | rfl
    · exact .inl (hrun ▸ hc)
    · exact .inr (hrun ▸ hc)
  obtain ⟨hresult, hshadow, hin⟩ := begun.run (p.body site) site (Invocation.contained_start h r.notes)
    (Invocation.isolated_start h' r'.notes) h h' hlive hnext hg (hp site) hl quiet
  have same : ((p.body site).run site ⟨r.session, .none, r.notes⟩).1 = .ok () ∧
      (step.exclusive && r.session.lockBroken) = false ∧
      ((p.body site).run site ⟨r.session, .none, r.notes⟩).2.staged = inv.staged := by
    rcases hr₁ with rfl | rfl
    · exact ⟨by rw [hrun], hlock, by rw [hrun]⟩
    · rw [← hlacks.lockBroken, ← hresult, ← hshadow.staged]
      exact ⟨by rw [hrun], hlock, by rw [hrun]⟩
  obtain ⟨hok, hlock, hstaged⟩ := same
  refine ⟨_, _, runBody_eq_ok.2 ⟨hlock, Prod.ext hok rfl⟩,
    runBody_eq_ok.2 ⟨?_, Prod.ext (hresult.trans hok) rfl⟩, hshadow, hin, hstaged⟩
  rw [hlacks.lockBroken]
  exact hlock

/-- If an invocation comes to a quiet outcome in one of the runs, it does so in both, and the second
    run then lacks what the invocation has removed as well. -/
theorem invoke_elsewhere (hl : r.session.appliesTo p target = true → p.LooksWithin step target r)
    (hr₁ : r₁ = r ∨ r₁ = r') (ho : (p.invoke step r₁ target).1 = .ok outcome) (hq : outcome.Quiet) :
    (p.invoke step r target).1 = .ok outcome ∧ (p.invoke step r' target).1 = .ok outcome ∧
      outcome.StaysBelow r.session.tree target ∧
      r.session.Lacks (gone ++ outcome.removed) (p.invoke step r' target).2.session ∧
      (p.invoke step r' target).2.session.tree.WellFormed := by
  have happlies := appliesTo_elsewhere (p := p) h h' hlacks hg
  have happlies₁ : r₁.session.appliesTo p target = r.session.appliesTo p target := by
    rcases hr₁ with rfl | rfl
    · rfl
    · exact happlies
  rcases invoke_quiet ho hq with ⟨hskip, rfl⟩ | ⟨hrun, inv, hbody, hc, rfl⟩
  · rw [happlies₁] at hskip
    obtain ⟨hsolo, -⟩ := invoke_of_not_appliesTo step hskip
    obtain ⟨hother, event, hsession⟩ := invoke_of_not_appliesTo step (happlies.trans hskip)
    rw [hsession]
    refine ⟨hsolo, hother, fun _ hs => absurd hs (by simp [Outcome.staged?]), ?_, h'⟩
    rw [Outcome.removed, Outcome.staged?, Option.map_none, Option.getD_none, List.append_nil]
    exact hlacks.record event
  · rw [happlies₁] at hrun
    have hlive : target ∈ r.session.tree.ids := by
      obtain ⟨q, hq, hid⟩ := exists_place h (contains_of_appliesTo hrun)
      exact mem_ids_iff.2 ⟨q, hq, hid⟩
    obtain ⟨after, after', hsolo, hother, hshadow, hin, hstaged⟩ :=
      runBody_elsewhere hp h h' hlacks hg hlive (hl hrun) hr₁ hbody hc
    have hfixed : r.session.Fixed after.session := by
      have fixed := Work.fixed_run (p.body ⟨step.unit, target, step.granularity⟩)
        ⟨step.unit, target, step.granularity⟩ ⟨r.session, .none, r.notes⟩
      rwa [(runBody_eq_ok.1 hsolo).2] at fixed
    have hwf : after'.session.tree.WellFormed := by
      have isolated : Invocation.Isolated r'.session target (p.runBody step target r').2 :=
        isolated_runBody hp h' (by rw [hlacks.tree]; exact h.fresh target hlive)
      rw [hother] at isolated
      exact isolated.wellFormed
    obtain ⟨hsolo, -⟩ := invoke_of_runBody hrun hsolo
    obtain ⟨hother, event, hsession⟩ := invoke_of_runBody (happlies.trans hrun) hother
    rw [hsession, ← hstaged]
    refine ⟨hsolo, hshadow.staged ▸ hother, ?_, ?_, hwf⟩
    · rintro staged ⟨⟩
      exact ⟨hin.taken, hin.staged⟩
    · have alone : r.session.Lacks after.staged.removed after.session := ⟨hfixed, hin.tree, hin.store⟩
      exact (alone.trans hshadow.session).record event

end Elsewhere

/-! ## All of them -/

/-- `o` is the outcome of a quiet invocation on `target` that begins in run `r`. -/
def ComesTo (p : Pass τ) (step : Step) (r : Run τ) (target : NodeId) (o : NodeId × Outcome τ) : Prop :=
  o.1 = target ∧ (p.invoke step r target).1 = .ok o.2 ∧ o.2.Quiet

variable {targets targets' : List NodeId} {outcomes outcomes' : List (NodeId × Outcome τ)}

section Step

variable (hp : p.Proper) (h : r.session.tree.WellFormed) (hapart : targets.Pairwise r.session.tree.Apart)
  (hl : ∀ t ∈ targets, r.session.appliesTo p t = true → p.LooksWithin step t r)
  (h' : r'.session.tree.WellFormed) (hlacks : r.session.Lacks gone r'.session)
  (hg : ∀ m ∈ gone, ∀ t ∈ targets, r.session.tree.Apart m t)

include h

/-- What an invocation removes is apart from the other targets. -/
theorem apart_removed {t : NodeId} {ts : List NodeId} (hts : ∀ u ∈ ts, r.session.tree.Apart t u)
    (hb : outcome.StaysBelow r.session.tree t)
    (hg : ∀ m ∈ gone, ∀ u ∈ ts, r.session.tree.Apart m u) :
    ∀ m ∈ gone ++ outcome.removed, ∀ u ∈ ts, r.session.tree.Apart m u := by
  intro m hm u hu
  rcases List.mem_append.1 hm with hm | hm
  · exact hg m hm u hu
  · exact h.apart_of_mem (hts u hu) (hb.mem_of_removed hm)

include hp hapart hl h' hlacks hg

/-- The outcomes to which invocations come each by itself are those of all of them in a row. -/
theorem invokeAll_of_comesTo (ho : List.Forall₂ (p.ComesTo step r) targets outcomes) :
    ∃ r₁, p.invokeAll step targets r' = (.ok outcomes, r₁) ∧ r₁.session.tree.WellFormed ∧
      r.session.Lacks (gone ++ outcomes.flatMap (·.2.removed)) r₁.session ∧
      ∀ o ∈ outcomes, o.2.Quiet ∧ o.2.StaysBelow r.session.tree o.1 := by
  induction ho generalizing r' gone with
  | nil =>
    refine ⟨r', rfl, h', ?_, fun o ho => absurd ho List.not_mem_nil⟩
    rwa [List.flatMap_nil, List.append_nil]
  | @cons t o ts os ho _ ih =>
    obtain ⟨ht, hts⟩ := List.pairwise_cons.1 hapart
    obtain ⟨hlt, hlts⟩ := List.forall_mem_cons.1 hl
    obtain ⟨rfl, ho, hq⟩ := ho
    obtain ⟨-, hother, hbelow, hlacks₁, hwf⟩ := invoke_elsewhere hp h h' hlacks
      (fun m hm => hg m hm _ List.mem_cons_self) hlt (.inl rfl) ho hq
    have hg₁ := apart_removed h ht hbelow fun m hm u hu => hg m hm u (List.mem_cons_of_mem _ hu)
    obtain ⟨r₁, hrest, hwf₁, hlacks₂, hbelow₂⟩ := ih hts hlts hwf hlacks₁ hg₁
    refine ⟨r₁, ?_, hwf₁, ?_, List.forall_mem_cons.2 ⟨⟨hq, hbelow⟩, hbelow₂⟩⟩
    on_goal 2 => rwa [List.flatMap_cons, ← List.append_assoc]
    have hinv : p.invoke step r' o.1 = (.ok o.2, (p.invoke step r' o.1).2) := Prod.ext hother rfl
    refine invokeAll_ok.2 (.next (fun staged error hfailed => ?_) hinv (invokeAll_ok.1 hrest))
    rw [hfailed] at hq
    exact hq

/-- The outcomes of invocations in a row are those to which each comes by itself, if they are quiet. -/
theorem comesTo_of_invokeAll (hrun : p.invokeAll step targets r' = (.ok outcomes, r₁))
    (hq : ∀ o ∈ outcomes, o.2.Quiet) : List.Forall₂ (p.ComesTo step r) targets outcomes := by
  rw [invokeAll_ok] at hrun
  induction hrun generalizing gone with
  | nil => exact .nil
  | failed => exact (hq _ List.mem_cons_self).elim
  | next _ hinv _ ih =>
    obtain ⟨ht, hts⟩ := List.pairwise_cons.1 hapart
    obtain ⟨hlt, hlts⟩ := List.forall_mem_cons.1 hl
    obtain ⟨hq, hqs⟩ := List.forall_mem_cons.1 hq
    obtain ⟨hsolo, -, hbelow, hlacks₁, hwf⟩ := invoke_elsewhere hp h h' hlacks
      (fun m hm => hg m hm _ List.mem_cons_self) hlt (.inr rfl) (by rw [hinv]) hq
    have hg₁ := apart_removed h ht hbelow fun m hm u hu => hg m hm u (List.mem_cons_of_mem _ hu)
    rw [hinv] at hlacks₁ hwf
    exact .cons ⟨rfl, hsolo, hq⟩ (ih hts hlts hwf hlacks₁ hg₁ hqs)

end Step

/-! ## Committing -/

/-- Outcomes about what is below targets that are apart commit to the same in any order. -/
theorem commitAll_perm_of_staysBelow {s : Session τ} {t : Tree} (ht : t.WellFormed)
    (hwf : s.tree.WellFormed) (hs : s.tree = t.without gone) (c : Contract) (expected : FactSet)
    (hperm : outcomes.Perm outcomes') (hapart : (outcomes.map Prod.fst).Pairwise t.Apart)
    (hbelow : ∀ o ∈ outcomes, o.2.Quiet ∧ o.2.StaysBelow t o.1) :
    (outcomes.foldl (Session.commit c expected) s).store =
      (outcomes'.foldl (Session.commit c expected) s).store := by
  refine Session.commitAll_perm hperm fun x hx y hy hne n hnx hny => ?_
  have below {o : NodeId × Outcome τ} (ho : o ∈ outcomes) (hn : Session.Touches s.tree o n) :
      n ∈ t.descendants o.1 := by
    rw [hs] at hwf hn
    exact (hbelow o ho).2.mem_of_touches (hbelow o ho).1 ht hwf hn
  have symm : Std.Symm fun x y : NodeId × Outcome τ => t.Apart x.1 y.1 := ⟨fun _ _ h => h.symm⟩
  have apart : t.Apart x.1 y.1 := (List.pairwise_map.1 hapart).forall hx hy hne
  obtain ⟨q, hq, rfl, hwx⟩ := ht.mem_descendants.1 (below hx hnx)
  obtain ⟨q', hq', hid, hwy⟩ := ht.mem_descendants.1 (below hy hny)
  obtain rfl := ht.eq_of_id_eq hq' hq hid
  exact apart q' hq' hwx hwy

variable {expected : FactSet} {report : StepReport}

theorem runStep_ok (hstep : p.runStep step targets expected r = (.ok report, r')) :
    ∃ outcomes r₁, p.invokeAll step targets (r.announce step targets.length) = (.ok outcomes, r₁) ∧
      Outcome.failure? outcomes = none := by
  obtain ⟨_, ⟨⟩⟩ | ⟨outcomes, r₁, hinv, ⟨_, -, ⟨⟩, -⟩ | ⟨hf, -⟩⟩ := runStep_cases hstep
  exact ⟨outcomes, r₁, hinv, hf⟩

/-- A step whose invocations do not fail completes: it commits their outcomes and counts them. -/
theorem runStep_of_invokeAll (expected : FactSet)
    (hinv : p.invokeAll step targets (r.announce step targets.length) = (.ok outcomes, r₁))
    (hf : Outcome.failure? outcomes = none) : ∃ r', p.runStep step targets expected r =
        (.ok ((outcomes.map Prod.snd).foldl .count (.empty step targets.length)), r') ∧
      r'.session.tree = r₁.session.tree ∧
      r'.session.store = (outcomes.foldl (Session.commit p.contract expected) r₁.session).store := by
  rw [runStep]
  simp only [hinv, hf]
  refine ⟨_, rfl, ?_, rfl⟩
  show (outcomes.foldl (Session.commit p.contract expected) r₁.session).tree = r₁.session.tree
  rw [Session.commitAll_eq]

/-- Let a step complete without creating a node, on targets that are apart. Let its pass edit by the
    rules of an invocation only, and, on any target that it is for, look at the tree within the
    target only, and not go by what the log has; it may read the tags and markers of all nodes. Then in
    any order of the targets the step completes with the same report, and leaves the same tree and the
    same store. -/
theorem targets_in_any_order (h : r.session.tree.WellFormed) (hp : p.Proper)
    (hperm : targets.Perm targets') (hapart : targets.Pairwise r.session.tree.Apart)
    (hl : ∀ t ∈ targets, r.session.appliesTo p t = true →
      p.LooksWithin step t (r.announce step targets.length))
    (hstep : p.runStep step targets expected r = (.ok report, r₁)) (hc : report.created = 0) :
    ∃ r₂, p.runStep step targets' expected r = (.ok report, r₂) ∧
      r₂.session.tree = r₁.session.tree ∧ r₂.session.store = r₁.session.store := by
  let start := r.announce step targets.length
  have hstart : start.session.tree.WellFormed := h
  have hlacks : start.session.Lacks [] start.session := .refl _
  have hnone (ts : List NodeId) : ∀ m ∈ ([] : List NodeId), ∀ t ∈ ts, start.session.tree.Apart m t :=
    fun _ hm => absurd hm List.not_mem_nil
  -- The outcomes of the first order come about in any order.
  obtain ⟨outcomes, ended, hinv, hf⟩ := runStep_ok hstep
  obtain ⟨r', hstep', htree, hstore⟩ := runStep_of_invokeAll expected hinv hf
  rw [hstep', Prod.mk.injEq, Except.ok.injEq] at hstep
  obtain ⟨rfl, rfl⟩ := hstep
  have hcomes : List.Forall₂ (p.ComesTo step start) targets outcomes :=
    comesTo_of_invokeAll hp hstart hapart hl hstart hlacks (hnone targets) hinv
      (StepReport.quiet_of_created hf hc)
  obtain ⟨_, hinv₁, hwf, hlacked, hbelow⟩ :=
    invokeAll_of_comesTo hp hstart hapart hl hstart hlacks (hnone targets) hcomes
  obtain rfl : ended = _ := (Prod.mk.inj (hinv.symm.trans hinv₁)).2
  obtain ⟨outcomes', hcomes', hperm'⟩ := List.perm_comp_forall₂ hperm.symm hcomes
  obtain ⟨ended', hinv', hwf', hlacked', -⟩ := invokeAll_of_comesTo hp hstart
    (hperm.pairwise hapart fun h => Tree.Apart.symm h) (fun t ht => hl t (hperm.mem_iff.2 ht)) hstart
    hlacks (hnone targets') hcomes'
  have hf' : Outcome.failure? outcomes' = none := List.findSome?_eq_none_iff.2 fun o ho =>
    List.findSome?_eq_none_iff.1 hf o (hperm'.mem_iff.1 ho)
  rw [show start = r.announce step targets'.length by rw [← hperm.length_eq]] at hinv'
  obtain ⟨r₂, hstep₂, htree₂, hstore₂⟩ := runStep_of_invokeAll expected hinv' hf'
  -- Taken together they remove the same nodes, and commit the same.
  have trees : ended'.session.tree = ended.session.tree := by
    rw [hlacked.tree, hlacked'.tree]
    exact without_congr (fun _ => (hperm'.flatMap_right _).mem_iff) _
  have stores : ended'.session.store = ended.session.store := hlacked'.store.trans hlacked.store.symm
  refine ⟨r₂, ?_, htree₂.trans (trees.trans htree.symm), ?_⟩
  · rw [hstep₂, StepReport.count_perm hperm', hperm.length_eq]
  · have invoked := targets_of_invokeAll hinv hf
    have committed := commitAll_perm_of_staysBelow hstart hwf hlacked.tree p.contract expected
      hperm'.symm (invoked.symm ▸ hapart) hbelow
    rw [hstore, hstore₂, committed]
    refine Session.commitAll_store_congr stores fun o _ => ?_
    rw [trees]
    exact ⟨rfl, fun _ _ => rfl⟩

end Pass

/-! ## An instance

The types of a package take over the label of a method, which the first of them removes. -/

/-- A session in which method 3 has a label. -/
def labelled : Session StockMarker :=
  let s := Session.new Tree.trio ∅
  { s with store := (Store.putMarker s.store 3 ⟨.label, .text "f"⟩).2 }

namespace Pass

/-- Labels a node as method 3 is labelled, and removes the first of some others. -/
def relabel (target : NodeId) (below : List NodeId) : Work StockMarker (Except Stop Unit) :=
  .ask (.marker 3 .label) fun found =>
    .ask (.put target ⟨.label, found.getD (.text "none")⟩) fun _ =>
      match below with
      | [] => .done (.ok ())
      | n :: _ => .ask (.remove n) fun _ => .done (.ok ())

def relabelling : Pass StockMarker where
  contract := outline
  filter? := none
  body site := .ask .tree fun tree => relabel site.target ((tree.descendants site.target).drop 1)

theorem proper_relabelling : relabelling.Proper := by
  refine fun site => ⟨trivial, fun tree => ⟨trivial, fun found => ⟨trivial, fun _ => ?_⟩⟩⟩
  dsimp only
  split
  · trivial
  · exact ⟨trivial, fun _ => trivial⟩

/-- However the targets come, all three get the label, though the method may be gone by then. -/
theorem targets_in_any_order_relabelling : ∃ r₁ r₂ : Run StockMarker, ∃ report,
    relabelling.runStep (.ofContract outline) [2, 4, 5] ∅ (.ofSession labelled) = (.ok report, r₁) ∧
    relabelling.runStep (.ofContract outline) [5, 2, 4] ∅ (.ofSession labelled) = (.ok report, r₂) ∧
    r₂.session.tree = r₁.session.tree ∧ r₂.session.store = r₁.session.store ∧
    r₁.session.tree.contains 3 = false ∧
    [2, 4, 5].map (Store.marker r₁.session.store · StockMarker.label) =
      [some (.text "f"), some (.text "f"), some (.text "f")] := by
  let step : Step := .ofContract outline
  let r : Run StockMarker := .ofSession labelled
  have hwf : r.session.tree.WellFormed := Tree.built_trio.wellFormed
  have hapart : [2, 4, 5].Pairwise Tree.trio.Apart := by decide
  have reads (t : NodeId) : Request.LooksWithin (τ := StockMarker) Tree.trio t .tree fun tree =>
      relabel t ((tree.descendants t).drop 1) := by
    intro u hu
    have below : u.descendants t = Tree.trio.descendants t := by
      rw [descendants_eq_elim, descendants_eq_elim, hu]
    exact congrArg (fun nodes => relabel t (nodes.drop 1)) below
  have hlooks : ∀ t ∈ [2, 4, 5], r.session.appliesTo relabelling t = true →
      relabelling.LooksWithin step t (r.announce step 3) := by
    intro t ht _
    simp only [List.mem_cons, List.not_mem_nil, or_false] at ht
    rcases ht with rfl | rfl | rfl
    · exact ⟨reads 2, trivial, trivial, trivial, trivial⟩
    · exact ⟨reads 4, trivial, trivial, trivial⟩
    · exact ⟨reads 5, trivial, trivial, trivial⟩
  obtain ⟨r₁, report, hstep, hcreated, hgone, hlabels⟩ : ∃ r₁ report,
      relabelling.runStep step [2, 4, 5] ∅ r = (.ok report, r₁) ∧ report.created = 0 ∧
      r₁.session.tree.contains 3 = false ∧
      [2, 4, 5].map (Store.marker r₁.session.store · StockMarker.label) =
        [some (.text "f"), some (.text "f"), some (.text "f")] :=
    ⟨_, _, rfl, rfl, rfl, by cbv⟩
  obtain ⟨r₂, hstep₂, htree, hstore⟩ := targets_in_any_order hwf proper_relabelling
    (show [2, 4, 5].Perm [5, 2, 4] by decide) hapart hlooks hstep hcreated
  exact ⟨r₁, r₂, report, hstep, hstep₂, htree, hstore, hgone, hlabels⟩

/-- Numbers its node by the invocations that the log has as completed. -/
def ranking : Pass StockMarker where
  contract := outline
  filter? := none
  body site := .ask .events fun log =>
    .ask (.put site.target ⟨.serial, .number (log.count .invocationCompleted)⟩) fun _ => .done (.ok ())

/-- A body that goes by the log tells in which order the targets came, though it does not look at the tree
    at all and creates nothing. -/
theorem ranks_tell_the_order : ∃ (r₁ r₂ : Run StockMarker) (report : StepReport),
    ranking.Proper ∧ [2, 4].Pairwise Tree.trio.Apart ∧ report.created = 0 ∧
    ranking.runStep (.ofContract outline) [2, 4] ∅ (.ofSession (.new Tree.trio ∅)) = (.ok report, r₁) ∧
    ranking.runStep (.ofContract outline) [4, 2] ∅ (.ofSession (.new Tree.trio ∅)) = (.ok report, r₂) ∧
    Store.marker r₁.session.store 2 StockMarker.serial = some (.number 0) ∧
    Store.marker r₂.session.store 2 StockMarker.serial = some (.number 1) := by
  have proper : ranking.Proper := fun site => ⟨trivial, fun log => ⟨trivial, fun _ => trivial⟩⟩
  exact ⟨_, _, _, proper, by decide, rfl, rfl, rfl, by cbv, by cbv⟩

end Pass

end Trellis
