/-
  Trellis.Proofs.Planner.Bounds — how much planning does before it ends.

  Three loops are nested in it, and each is bounded by what it cannot do twice.

  - Closing a selection handles one request after the other. A round that selects a unit selects a
    new one, since a unit selected before would have covered the fact (`closing_closes`); so all that
    is handled is the queue it begins with and the needs of what it adds.
  - An ordering attempt that gets stuck is the last, or the next is made for a selection with one
    more eligible unit (`settle_grows`); so there are no more attempts than eligible units, and one.
  - The search of one attempt calls itself with less left to do, and enters the protection of a link
    no more often than its budget allows (`supportTraced_traces`).

  `planning_is_bounded` puts them together.
-/
import Mathlib.Data.List.Perm.Subperm
import Trellis.Proofs.Planner.Calls
import Trellis.Proofs.Planner.Completeness

namespace Trellis.Planner

/-! ## Rounds of closing -/

theorem of_singleton_eq_append {α : Type} {a b : α} {before after : List α}
    (h : [a] = before ++ b :: after) : before = [] ∧ a = b ∧ after = [] := by
  rcases List.append_eq_singleton_iff.1 h.symm with ⟨rfl, h⟩ | ⟨-, h⟩
  · cases h
    exact ⟨rfl, rfl, rfl⟩
  · cases h

namespace Problem

/-- A round of closing a selection: the request it handles, and the unit it selects if the fact is
    not covered. -/
structure Round where
  request : Request
  chosen : Option Contract

variable {p : Problem} {queue : List Request} {selected : List Contract} {c : Contract}

/-- A producer of what the selection does not cover is not in it. -/
theorem not_mem_of_not_covered {f : Fact} {requester : String} (hcov : ¬ p.covered selected f = true)
    (hc : p.chooseProducer f requester [] = .ok c) : c ∉ selected := by
  obtain ⟨⟨-, hf⟩, -⟩ := mem_candidates.1 (mem_candidates_of_chooseProducer hc)
  intro hs
  refine hcov ?_
  rw [covered, Bool.or_eq_true, List.any_eq_true]
  exact .inr ⟨c, hs, decide_eq_true hf⟩

/-- `close`, with a record of its rounds. -/
def closing (p : Problem) (queue : List Request) (selected : List Contract) :
    Except Error (List Contract) × List Round :=
  match queue with
  | [] => (.ok selected, [])
  | (f, requester) :: queue =>
    if _covered : p.covered selected f = true then
      let rest := p.closing queue selected
      (rest.1, ⟨(f, requester), none⟩ :: rest.2)
    else match _chosen : p.chooseProducer f requester [] with
      | .ok c =>
        let rest := p.closing (queue ++ requests c) (c :: selected)
        (rest.1, ⟨(f, requester), some c⟩ :: rest.2)
      | .error e => (.error e, [⟨(f, requester), none⟩])
termination_by (p.unselected selected, queue.length)
decreasing_by
  · exact Prod.Lex.right _ (Nat.lt_succ_self _)
  · obtain ⟨⟨hc, -⟩, -⟩ := mem_candidates.1 (mem_candidates_of_chooseProducer _chosen)
    exact Prod.Lex.left _ _ (unselected_lt hc (not_mem_of_not_covered _covered _chosen))

theorem closing_fst : (p.closing queue selected).1 = p.close queue selected := by
  fun_induction p.closing queue selected with
  | case1 => rw [close]
  | case2 selected f requester queue hcov rest ih => rw [close, if_pos hcov, ← ih]
  | case3 selected f requester queue hcov c hc rest ih =>
    rw [close, if_neg hcov]
    split
    · rename_i e
      cases hc.symm.trans e
      exact ih
    · rename_i e
      cases hc.symm.trans e
  | case4 selected f requester queue hcov e hc =>
    rw [close, if_neg hcov]
    split
    · rename_i e
      cases hc.symm.trans e
    · rename_i e
      cases hc.symm.trans e
      rfl

/-- The units that are selected in some rounds. -/
def added (rounds : List Round) : List Contract := rounds.filterMap Round.chosen

@[simp] theorem added_cons_none (r : Request) (rounds : List Round) :
    added (⟨r, none⟩ :: rounds) = added rounds := rfl

@[simp] theorem added_cons_some (r : Request) (c : Contract) (rounds : List Round) :
    added (⟨r, some c⟩ :: rounds) = c :: added rounds := rfl

/-- What the rounds of closing a selection come to. -/
structure Closes (p : Problem) (queue : List Request) (selected : List Contract)
    (outcome : Except Error (List Contract)) (rounds : List Round) : Prop where
  /-- What a round selects is an eligible unit that was not selected before. -/
  fresh : ∀ before round after c, rounds = before ++ round :: after → round.chosen = some c →
    c ∈ p.lineup ∧ p.eligible c = true ∧ c ∉ selected ∧ c ∉ added before
  /-- The rounds handle the queue and then the needs of the units added, in this order. -/
  handled : rounds.map Round.request <+: queue ++ (added rounds).flatMap requests
  closed : ∀ closed, outcome = .ok closed → closed = (added rounds).reverse ++ selected

namespace Closes

variable {outcome : Except Error (List Contract)} {rounds : List Round} {r : Request}

theorem length_le (h : p.Closes queue selected outcome rounds) :
    rounds.length ≤ queue.length + ((added rounds).map (·.needs.toList.length)).sum := by
  have hlength (c : Contract) : (requests c).length = c.needs.toList.length := List.length_map _
  have := h.handled.length_le
  rw [List.length_map, List.length_append, List.length_flatMap] at this
  simpa only [hlength] using this

theorem stop (queue : List Request) (selected : List Contract) :
    p.Closes queue selected (.ok selected) [] where
  fresh before round after c h _ := by cases before <;> cases h
  handled := List.nil_prefix
  closed _ h := (Except.ok.inj h).symm

theorem fail (queue : List Request) (selected : List Contract) (r : Request) (e : Error) :
    p.Closes (r :: queue) selected (.error e) [⟨r, none⟩] where
  fresh before round after c h hc := by
    obtain ⟨-, rfl, -⟩ := of_singleton_eq_append h
    cases hc
  handled := List.cons_prefix_cons.2 ⟨rfl, List.nil_prefix⟩
  closed _ h := by cases h

theorem skip (h : p.Closes queue selected outcome rounds) (r : Request) :
    p.Closes (r :: queue) selected outcome (⟨r, none⟩ :: rounds) where
  fresh before round after c hsplit hc := by
    rcases List.cons_eq_append_iff.1 hsplit with ⟨rfl, h'⟩ | ⟨before, rfl, h'⟩
    · cases h'
      cases hc
    · exact h.fresh before round after c h' hc
  handled := List.cons_prefix_cons.2 ⟨rfl, h.handled⟩
  closed := h.closed

theorem pick (h : p.Closes (queue ++ requests c) (c :: selected) outcome rounds) (hl : c ∈ p.lineup)
    (he : p.eligible c = true) (hn : c ∉ selected) (r : Request) :
    p.Closes (r :: queue) selected outcome (⟨r, some c⟩ :: rounds) where
  fresh before round after d hsplit hd := by
    rcases List.cons_eq_append_iff.1 hsplit with ⟨rfl, h'⟩ | ⟨before, rfl, h'⟩
    · cases h'
      cases hd
      exact ⟨hl, he, hn, List.not_mem_nil⟩
    · obtain ⟨hl', he', hsel, hbefore⟩ := h.fresh before round after d h' hd
      rw [List.mem_cons, not_or] at hsel
      refine ⟨hl', he', hsel.2, ?_⟩
      rw [added_cons_some, List.mem_cons, not_or]
      exact ⟨hsel.1, hbefore⟩
  handled := by
    rw [added_cons_some, List.flatMap_cons, List.cons_append, ← List.append_assoc]
    exact List.cons_prefix_cons.2 ⟨rfl, h.handled⟩
  closed closed hclosed := by
    rw [added_cons_some, List.reverse_cons, List.append_assoc]
    exact h.closed closed hclosed

end Closes

theorem closing_closes (p : Problem) (queue : List Request) (selected : List Contract) :
    p.Closes queue selected (p.close queue selected) (p.closing queue selected).2 := by
  rw [← closing_fst]
  fun_induction p.closing queue selected with
  | case1 => exact .stop [] _
  | case2 _ f requester _ _ _ ih => exact ih.skip (f, requester)
  | case3 selected f requester queue hcov c hc rest ih =>
    obtain ⟨⟨hl, -⟩, he, -⟩ := mem_candidates.1 (mem_candidates_of_chooseProducer hc)
    exact ih.pick hl he (not_mem_of_not_covered hcov hc) (f, requester)
  | case4 selected f requester queue _ e _ => exact .fail queue selected (f, requester) e

/-! ## Attempts -/

variable {required : FactSet}

/-- Nothing is taken out of the selection of an attempt for the next, and an eligible unit is put
    in that was not in it. -/
structure Grows (p : Problem) (t next : Trial) : Prop where
  kept : t.selected ⊆ next.selected
  gained : ∃ c, c ∈ p.lineup ∧ p.eligible c = true ∧ c ∉ t.selected ∧ c ∈ next.selected

theorem grows_of_chosen {f : Fact} {requester : String} {larger : List Contract} {a b : Attempt}
    (hc : p.chooseProducer f requester selected = .ok c) (hl : p.select c selected = .ok larger) :
    p.Grows ⟨selected, a⟩ ⟨larger, b⟩ := by
  obtain ⟨⟨hlineup, -⟩, he, hn⟩ := mem_candidates.1 (mem_candidates_of_chooseProducer hc)
  have hsub : c :: selected ⊆ larger := closed_subset hl
  exact ⟨(List.cons_subset.1 hsub).2, c, hlineup, he, hn, (List.cons_subset.1 hsub).1⟩

/-- Where an attempt gets stuck, planning fails with no further attempt, or makes the next for a
    larger selection. -/
theorem settle_grows {t : Trial} {f : Fact} {requester : String} {after : List Trial}
    (hstuck : t.attempt.outcome = .ok (.stuck f requester)) :
    ∀ before, (p.settle required selected).trials = before ++ t :: after →
      (after = [] ∧ ∃ e, (p.settle required selected).outcome = .error e) ∨
        ∃ next later, after = next :: later ∧ p.Grows t next := by
  fun_induction p.settle required selected with
  | case1 _ _ _ _ he | case2 _ _ _ _ _ he =>
    intro before h
    obtain ⟨-, rfl, -⟩ := of_singleton_eq_append h
    cases he.symm.trans hstuck
  | case3 | case4 =>
    intro before h
    obtain ⟨-, -, rfl⟩ := of_singleton_eq_append h
    exact .inl ⟨rfl, _, rfl⟩
  | case5 selected attempt trial _ _ _ c hc larger hl course ih =>
    intro before h
    rcases List.cons_eq_append_iff.1 h with ⟨-, h'⟩ | ⟨before, -, h'⟩
    · obtain ⟨rfl, rfl⟩ := List.cons.inj h'
      obtain ⟨later, hlater⟩ := settle_trials p required larger
      exact .inr ⟨_, later, hlater, grows_of_chosen hc hl⟩
    · exact ih before h'

/-- The eligible units that are not selected. -/
def spare (p : Problem) (selected : List Contract) : List Contract :=
  (p.lineup.toList.filter p.eligible).filter (· ∉ selected)

theorem length_spare_lt {t next : Trial} (h : p.Grows t next) :
    (p.spare next.selected).length < (p.spare t.selected).length := by
  obtain ⟨hsub, c, hl, he, hn, hc⟩ := h
  have hspare : p.spare next.selected = (p.spare t.selected).filter (· ∉ next.selected) := by
    rw [spare, spare, List.filter_filter (l := p.lineup.toList.filter p.eligible)]
    refine List.filter_congr fun x _ => ?_
    by_cases hx : x ∈ next.selected
    · simp [hx]
    · simp [hx, mt (@hsub x) hx]
  rw [hspare]
  refine List.length_filter_lt_length_iff_exists.2 ⟨c, ?_, by simpa using hc⟩
  exact List.mem_filter.2 ⟨List.mem_filter.2 ⟨hl, he⟩, decide_eq_true hn⟩

theorem length_trials_le (p : Problem) (required : FactSet) (selected : List Contract) :
    (p.settle required selected).trials.length ≤ (p.spare selected).length + 1 := by
  fun_induction p.settle required selected with
  | case5 selected attempt trial f r _ c hc larger hl course ih =>
    have hlt : (p.spare larger).length < (p.spare selected).length :=
      length_spare_lt (grows_of_chosen (a := attempt) (b := attempt) hc hl)
    show (p.settle required larger).trials.length + 1 ≤ _
    omega
  | _ => simp

end Problem

/-! ## The bounds -/

variable (cat : Catalog) (features : Features) (config : Config) (initial : FactSet) (goal : Goal)

/-- The ordering attempts that planning makes for a goal. -/
def trials : List Trial := ((Problem.new cat features initial).solve goal).trials

/-- What bounds a planning run. -/
structure Bounded : Prop where
  /-- Planning fails where an attempt gets stuck, or goes on with a larger selection. -/
  stuck : ∀ before t after f requester, trials cat features initial goal = before ++ t :: after →
    t.attempt.outcome = .ok (.stuck f requester) →
      (after = [] ∧ ∃ e, plan cat features config initial goal = .error e) ∨
        ∃ next later, after = next :: later ∧ t.selected ⊆ next.selected ∧
          ∃ c ∈ cat, eligible features c = true ∧ c ∉ t.selected ∧ c ∈ next.selected
  attempts : (trials cat features initial goal).length ≤ (cat.toList.filter (eligible features)).length + 1
  /-- Whatever is to be closed: the rounds select what was not selected, and there are no more than
      there are requests in the queue and needs of the units added. -/
  rounds : ∀ queue selected, let p := Problem.new cat features initial
    let rounds := (p.closing queue selected).2
    (p.closing queue selected).1 = p.close queue selected ∧
    p.Closes queue selected (p.close queue selected) rounds ∧
    rounds.length ≤ queue.length + ((Problem.added rounds).map (·.needs.toList.length)).sum
  /-- In the search of each attempt, all calls descend and few enter a protection. -/
  calls : ∀ t ∈ trials cat features initial goal,
    let s := (Problem.new cat features initial).selection goal.required t.selected
    let traced := supportTraced s.needs (.ofGraph s.forced) .none
    t.attempt = s.attempt ∧ traced.1 = s.searchLinks s.forced ∧
      (∀ c ∈ traced.2, c.Descends) ∧ traced.2.countP Call.spends ≤ 100000

variable {cat features config initial goal}

theorem plan_of_solve_error {e : Error}
    (h : ((Problem.new cat features initial).solve goal).outcome = .error e) :
    ∃ e, plan cat features config initial goal = .error e := by
  unfold plan
  cases hvalid : validated config cat initial with
  | error e' => exact ⟨e', rfl⟩
  | ok _ => exact ⟨e, by simp only [Problem.planFor, h]; rfl⟩

theorem length_lineup_eligible : ((Problem.new cat features initial).lineup.toList.filter
    (eligible features)).length ≤ (cat.toList.filter (eligible features)).length := by
  have hnodup : (Problem.new cat features initial).lineup.toList.Nodup :=
    List.Nodup.of_map _ (Problem.nodup_names_lineup cat features initial)
  refine (List.subperm_of_subset (hnodup.filter _) fun c hc => ?_).length_le
  obtain ⟨hl, he⟩ := List.mem_filter.1 hc
  exact List.mem_filter.2 ⟨Problem.mem_lineup.1 hl, he⟩

theorem searchLinks_recorded (s : Selection) : let traced := supportTraced s.needs (.ofGraph s.forced) .none
    traced.1 = s.searchLinks s.forced ∧ (∀ c ∈ traced.2, c.Descends) ∧
      traced.2.countP Call.spends ≤ 100000 := by
  obtain ⟨hfound, hdesc, hspent⟩ := supportTraced_traces s.needs (.ofGraph s.forced) .none
  obtain ⟨hcount, hle⟩ := hspent (Nat.zero_le _)
  refine ⟨hfound, hdesc, ?_⟩
  have hbudget : Effort.budget = 100000 := rfl
  omega

variable (cat features config initial goal)

/-- Planning ends: its attempts, the rounds of each closing and the calls of each search are
    bounded. -/
theorem planning_is_bounded : Bounded cat features config initial goal := by
  let p := Problem.new cat features initial
  have made : trials cat features initial goal = [] ∨ ∃ selected,
      p.solve goal = p.settle goal.required selected ∧
        trials cat features initial goal = (p.settle goal.required selected).trials := by
    rcases p.solve_cases goal with ⟨e, -, hsolve⟩ | ⟨selected, -, hsolve⟩
    · exact .inl (congrArg Course.trials hsolve)
    · exact .inr ⟨selected, hsolve, congrArg Course.trials hsolve⟩
  refine ⟨?stuck, ?attempts, ?rounds, ?calls⟩
  case stuck =>
    intro before t after f requester h hstuck
    rcases made with hnone | ⟨selected, hsolve, htrials⟩
    · simp [hnone] at h
    · rw [htrials] at h
      rcases Problem.settle_grows hstuck before h with ⟨hlast, e, he⟩ | ⟨next, later, hafter, hgrows⟩
      · exact .inl ⟨hlast, plan_of_solve_error (hsolve ▸ he)⟩
      · obtain ⟨hsub, c, hl, he, hn, hc⟩ := hgrows
        exact .inr ⟨next, later, hafter, hsub, c, Problem.mem_lineup.1 hl, he, hn, hc⟩
  case attempts =>
    rcases made with hnone | ⟨selected, -, htrials⟩
    · simp [hnone]
    · have hattempts := p.length_trials_le goal.required selected
      have hspare : (p.spare selected).length ≤ (p.lineup.toList.filter p.eligible).length :=
        List.length_filter_le _ _
      have hunits : (p.lineup.toList.filter p.eligible).length ≤
          (cat.toList.filter (eligible features)).length := length_lineup_eligible
      rw [htrials]
      omega
  case rounds =>
    intro queue selected
    have closes := Problem.closing_closes p queue selected
    exact ⟨Problem.closing_fst, closes, closes.length_le⟩
  case calls =>
    intro t ht
    rcases made with hnone | ⟨selected, -, htrials⟩
    · simp [hnone] at ht
    · rw [htrials] at ht
      exact ⟨Problem.attempt_of_trial ht, searchLinks_recorded _⟩

end Trellis.Planner
