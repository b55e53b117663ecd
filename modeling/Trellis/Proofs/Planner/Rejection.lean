/-
  Trellis.Proofs.Planner.Rejection — what a dependency cycle that planning reports rules out.

  A cycle is reported by an ordering attempt, of the units selected so far. `Achieves` says that
  a sequence of enabled units works. An attempt that keeps within its budget and finds no order
  rules out every sequence of just the units it was made for (`not_achieves_of_trial`), so

  - `cycle_rejects_selections`: none of the selections that were tried can be ordered, and for a
    maximal goal there is no order of all eligible units with derivable needs.

  It does not rule out a plan for a goal of facts. Producers are chosen one by one, before any
  order is looked for, and a cycle among them ends planning although another producer would do:
  `cycle_rejects_buyable` plans to assemble what could have been bought.
-/
import Trellis.Proofs.Planner.Derivable
import Trellis.Proofs.Planner.Soundness

namespace Trellis.Planner

open Selection

variable {cat : Catalog} {features : Features} {initial required : FactSet}
  {order selected : List Contract}

/-- Enabled units of the catalog, each once and after those it uses, each of which finds what it
    needs, and at whose end the required facts hold. -/
structure Achieves (order : List Contract) (cat : Catalog) (features : Features)
    (initial required : FactSet) : Prop where
  registered : ∀ c ∈ order, c ∈ cat ∧ eligible features c = true
  distinct : order.Nodup
  uses : ∀ before u after, order = before ++ u :: after →
    ∀ v ∈ order, v ≠ u → v.name ∈ u.uses → v ∈ before
  feasible : Feasible initial order
  required : ∀ f ∈ required, f ∈ enact initial order

/-- A sequence that works solves the selection of just its units. -/
theorem Achieves.solves (h : Achieves order cat features initial required)
    (hsel : ∀ c, c ∈ order ↔ c ∈ selected) :
    Solves order ((Problem.new cat features initial).selection required selected) where
  complete := by
    refine (List.perm_ext_iff_of_nodup h.distinct
      (named_selection cat features initial required selected).nodup).2 fun c => ?_
    rw [Problem.mem_units_selection, Problem.mem_lineup, ← hsel]
    exact ⟨fun hc => ⟨(h.registered c hc).1, hc⟩, And.right⟩
  uses := h.uses
  feasible := h.feasible
  required := h.required

/-! ## Attempts on the way -/

namespace Problem

variable {p : Problem} {t : Trial} {names : List String}

/-- The attempts that come to nothing are those of their selections, and none finds an order. -/
theorem trial_of_settle (ht : t ∈ (p.settle required selected).trials) {e : Error}
    (he : (p.settle required selected).outcome = .error e) :
    t.attempt = (p.selection required t.selected).attempt ∧
      ∀ order final, t.attempt.outcome ≠ .ok (.done order final) := by
  refine ⟨attempt_of_trial ht, fun order final hdone => ?_⟩
  fun_induction p.settle required selected with
  | case1 _ _ _ _ failed =>
    rw [List.mem_singleton.1 ht] at hdone
    cases failed.symm.trans hdone
  | case2 => cases he
  | case3 _ _ _ _ _ stuck | case4 _ _ _ _ _ stuck =>
    rw [List.mem_singleton.1 ht] at hdone
    cases stuck.symm.trans hdone
  | case5 _ _ _ _ _ stuck _ _ _ _ _ ih =>
    rcases List.mem_cons.1 ht with rfl | ht
    · cases stuck.symm.trans hdone
    · exact ih ht he

theorem first_trial (p : Problem) (required : FactSet) (selected : List Contract) :
    ∃ t ∈ (p.settle required selected).trials, t.selected = selected := by
  obtain ⟨later, htrials⟩ := settle_trials p required selected
  exact ⟨_, htrials ▸ List.mem_cons_self, rfl⟩

theorem refusal_ne_dependencyCycle (f : Fact) (requester : String) :
    p.refusal f requester ≠ .dependencyCycle names := by
  unfold refusal
  split
  · simp
  · split <;> simp

theorem chooseProducer_ne_dependencyCycle {f : Fact} {requester : String} :
    p.chooseProducer f requester selected ≠ .error (.dependencyCycle names) := by
  unfold chooseProducer
  dsimp only
  split
  · simp
  · split
    · simp
    · intro h
      exact refusal_ne_dependencyCycle f requester (Except.error.inj h)

theorem close_ne_dependencyCycle {queue : List Request} :
    p.close queue selected ≠ .error (.dependencyCycle names) := by
  fun_induction p.close queue selected with
  | case1 => simp
  | case2 _ _ _ _ _ ih => exact ih
  | case3 _ _ _ _ _ _ _ ih => exact ih
  | case4 _ _ _ _ _ e chosen =>
    intro h
    cases h
    exact chooseProducer_ne_dependencyCycle chosen

/-- A dependency cycle is what some attempt found. -/
theorem trial_of_dependencyCycle
    (h : (p.settle required selected).outcome = .error (.dependencyCycle names)) :
    ∃ t ∈ (p.settle required selected).trials,
      t.attempt.outcome = .error (.dependencyCycle names) := by
  fun_induction p.settle required selected with
  | case1 selected _ trial e he =>
    cases h
    exact ⟨trial, List.mem_singleton_self _, he⟩
  | case2 => cases h
  | case3 _ _ _ _ _ _ e chosen =>
    cases h
    exact absurd chosen chooseProducer_ne_dependencyCycle
  | case4 _ _ _ _ _ _ _ _ e closed =>
    cases h
    exact absurd closed close_ne_dependencyCycle
  | case5 _ _ _ _ _ _ _ _ _ _ _ ih =>
    obtain ⟨t, ht, hcycle⟩ := ih h
    exact ⟨t, List.mem_cons_of_mem _ ht, hcycle⟩

/-- Where an attempt on the way found no order within its budget, there is none. -/
theorem not_achieves_of_trial
    (ht : t ∈ ((new cat features initial).settle required selected).trials) {e : Error}
    (he : ((new cat features initial).settle required selected).outcome = .error e)
    (hb : t.attempt.exhausted = false) :
    ¬ ∃ order, Achieves order cat features initial required ∧ ∀ c, c ∈ order ↔ c ∈ t.selected := by
  intro h
  obtain ⟨order, ha, hsel⟩ := h
  obtain ⟨hattempt, hnot⟩ := trial_of_settle ht he
  rw [hattempt] at hb hnot
  obtain ⟨found, final, hdone⟩ :=
    (ha.solves hsel).done (named_selection cat features initial required t.selected) hb
  exact hnot found final hdone

end Problem

/-! ## Rejections -/

variable {config : Config} {goal : Goal} {names : List String}

theorem solve_of_plan_error {e : Error} (hvalid : validated config cat initial = .ok ())
    (h : plan cat features config initial goal = .error e) :
    ((Problem.new cat features initial).solve goal).outcome = .error e := by
  unfold plan at h
  rw [hvalid] at h
  cases hsolve : ((Problem.new cat features initial).solve goal).outcome with
  | error e' =>
    simp only [Problem.planFor, hsolve] at h
    cases h
    rfl
  | ok found =>
    simp only [Problem.planFor, hsolve] at h
    cases h

/-- A dependency cycle is reported by an attempt to order what was selected. If no attempt was cut
    short, none of the selections that were tried can be ordered, and for a maximal goal there is
    no order of all eligible units with derivable needs. -/
theorem cycle_rejects_selections (hvalid : validated config cat initial = .ok ())
    (h : plan cat features config initial goal = .error (.dependencyCycle names))
    (hb : ∀ t ∈ ((Problem.new cat features initial).solve goal).trials,
      t.attempt.exhausted = false) :
    (∃ t ∈ ((Problem.new cat features initial).solve goal).trials,
      t.attempt.outcome = .error (.dependencyCycle names)) ∧
    (∀ t ∈ ((Problem.new cat features initial).solve goal).trials,
      ¬ ∃ order, Achieves order cat features initial goal.required ∧
        ∀ c, c ∈ order ↔ c ∈ t.selected) ∧
    (goal = .maximal →
      ¬ ∃ order, Achieves order cat features initial goal.required ∧
        ∀ c, c ∈ order ↔ c ∈ cat ∧ eligible features c = true ∧
          ∀ f ∈ c.needs, Derivable cat features initial f) := by
  have he := solve_of_plan_error hvalid h
  cases hsel : (Problem.new cat features initial).initialSelection goal with
  | error e =>
    rw [Problem.solve, hsel] at he
    cases he
    cases goal with
    | maximal => cases hsel
    | facts fs => exact absurd hsel Problem.close_ne_dependencyCycle
  | ok selected =>
    have hsolve : (Problem.new cat features initial).solve goal =
        (Problem.new cat features initial).settle goal.required selected := by
      rw [Problem.solve, hsel]
    rw [hsolve] at he hb ⊢
    have none_ordered := fun t ht => Problem.not_achieves_of_trial ht he (hb t ht)
    refine ⟨Problem.trial_of_dependencyCycle he, none_ordered, ?_⟩
    rintro rfl ⟨order, ha, hmem⟩
    -- The first attempt of a maximal goal is for all units that are eligible with derivable needs.
    obtain ⟨t, ht, hfirst⟩ := Problem.first_trial (.new cat features initial) Goal.maximal.required selected
    refine none_ordered t ht ⟨order, ha, fun c => ?_⟩
    rw [hmem, hfirst, ← Except.ok.inj hsel, List.mem_filter, Sorted.mem_toList, Problem.mem_lineup,
      Problem.reachable_iff]
    simp only [Problem.mem_derivable]
    exact Iff.rfl

/-! ## An instance

Something built can be assembled from parts or bought. `cut` makes parts, but asks for `assemble`
to run first, so the two go round in a circle. -/

def parts : Fact := .tag ⟨"parts", .program⟩

def built : Fact := .tag ⟨"built", .program⟩

def assemble : Contract where
  name := "assemble"
  description := ""
  granularity := .program
  needs := Sorted.ofList [parts]
  adds := Sorted.ofList [built]
  removes := ∅
  features := ∅
  uses := ∅
  exclusive := false
  orderHint := 0

def buy : Contract where
  name := "buy"
  description := ""
  granularity := .program
  needs := ∅
  adds := Sorted.ofList [built]
  removes := ∅
  features := ∅
  uses := ∅
  exclusive := false
  orderHint := 0

def cut : Contract where
  name := "cut"
  description := ""
  granularity := .program
  needs := ∅
  adds := Sorted.ofList [parts]
  removes := ∅
  features := ∅
  uses := Sorted.ofList ["assemble"]
  exclusive := false
  orderHint := 0

theorem cycle_rejects_selections_workshop :
    ¬ ∃ order, Achieves order (Sorted.ofList [assemble, cut]) ∅ ∅ ∅ ∧
      ∀ c, c ∈ order ↔ c ∈ (Sorted.ofList [assemble, cut] : Catalog) ∧ eligible ∅ c = true ∧
        ∀ f ∈ c.needs, Derivable (Sorted.ofList [assemble, cut]) ∅ ∅ f := by
  have h : plan (Sorted.ofList [assemble, cut]) ∅ .default ∅ .maximal
      = .error (.dependencyCycle ["assemble", "cut", "assemble"]) := by cbv
  have hb : (((Problem.new (Sorted.ofList [assemble, cut]) ∅ ∅).solve .maximal).trials.all
      fun t => !t.attempt.exhausted) = true := by
    cbv
  refine (cycle_rejects_selections (by cbv) h fun t ht => ?_).2.2 rfl
  simpa using List.all_eq_true.1 hb t ht

/-- The circle is reported although `buy` alone achieves the goal. -/
theorem cycle_rejects_buyable :
    validated .default (Sorted.ofList [assemble, buy, cut]) ∅ = .ok () ∧
    plan (Sorted.ofList [assemble, buy, cut]) ∅ .default ∅ (.facts (Sorted.ofList [built]))
      = .error (.dependencyCycle ["assemble", "cut", "assemble"]) ∧
    (∀ t ∈ ((Problem.new (Sorted.ofList [assemble, buy, cut]) ∅ ∅).solve
      (.facts (Sorted.ofList [built]))).trials, t.attempt.exhausted = false) ∧
    Achieves [buy] (Sorted.ofList [assemble, buy, cut]) ∅ ∅ (Sorted.ofList [built]) := by
  have hb : (((Problem.new (Sorted.ofList [assemble, buy, cut]) ∅ ∅).solve
      (.facts (Sorted.ofList [built]))).trials.all fun t => !t.attempt.exhausted) = true := by
    cbv
  have alone {before after : List Contract} {c : Contract} (h : [buy] = before ++ c :: after) :
      c = buy := by
    have : c ∈ [buy] := h ▸ List.mem_append_right before List.mem_cons_self
    exact List.mem_singleton.1 this
  refine ⟨by cbv, by cbv, fun t ht => by simpa using List.all_eq_true.1 hb t ht, ?_⟩
  constructor
  · decide
  · exact List.nodup_singleton buy
  · intro before u after hsplit v hv hne
    exact absurd ((List.mem_singleton.1 hv).trans (alone hsplit).symm) hne
  · intro before c after hsplit f hf
    rw [alone hsplit] at hf
    exact absurd hf (Sorted.not_mem_empty f)
  · decide

end Trellis.Planner
