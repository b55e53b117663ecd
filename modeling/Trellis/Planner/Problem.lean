/-
  Trellis.Planner.Problem — what a planning run chooses from, and how it chooses producers.

  Units stand in a line-up by order hint and then by name, and every choice between units falls
  on the first in line. A unit is eligible if all its features are on, and reachable if it is
  eligible and its needs are derivable: brought about by eligible units in some order, were
  nothing ever removed.

  A selection is a list of units of the line-up. `close` adds producers to it until every fact
  asked for holds initially or is added by a selected unit (`closed_subset`: it takes none out).
-/
import Trellis.Catalog
import Trellis.Feature

namespace Trellis

/-- A unit's place in line. -/
structure Turn where
  hint : Int
  name : String
  deriving DecidableEq

namespace Turn

instance : Ord Turn := ⟨compareLex (compareOn hint) (compareOn name)⟩

instance : Std.TransOrd Turn :=
  inferInstanceAs (Std.TransCmp (compareLex (compareOn hint) (compareOn name)))

instance : Std.LawfulEqOrd Turn where
  compare_self := Std.ReflOrd.compare_self
  eq_of_compare {a b} h := by
    obtain ⟨hh, hn⟩ := compareLex_eq_eq.1 h
    have hh : a.hint = b.hint := Std.LawfulEqOrd.eq_of_compare hh
    have hn : a.name = b.name := Std.LawfulEqOrd.eq_of_compare hn
    cases a; cases b; cases hh; cases hn; rfl

end Turn

def Contract.turn (c : Contract) : Turn := ⟨c.orderHint, c.name⟩

abbrev Lineup := Sorted Contract.turn

namespace Planner

/-- Whether all features of a unit are on. -/
def eligible (features : Features) (c : Contract) : Bool :=
  (features.firstDisabled c.features.toList).isNone

/-- The units whose needs are met. -/
def met (facts : FactSet) (units : List Contract) : List Contract :=
  units.filter (facts.holdsAll ·.needs)

/-- The units with a need that is not met. -/
def unmet (facts : FactSet) (units : List Contract) : List Contract :=
  units.filter (!facts.holdsAll ·.needs)

theorem length_unmet_lt {facts : FactSet} {units : List Contract} (h : met facts units ≠ []) :
    (unmet facts units).length < units.length := by
  obtain ⟨c, hc⟩ := List.exists_mem_of_ne_nil _ h
  obtain ⟨hu, hm⟩ := List.mem_filter.1 hc
  exact List.length_filter_lt_length_iff_exists.2 ⟨c, hu, by simpa using hm⟩

/-- Applies the additions of units whose needs are met, over and over, each unit once, until
    no unit is left with its needs met. -/
def saturate (facts : FactSet) (waiting : List Contract) : FactSet :=
  if _none : met facts waiting = [] then facts
  else
    saturate (facts.insertAll ((met facts waiting).flatMap (·.adds.toList))) (unmet facts waiting)
termination_by waiting.length
decreasing_by exact length_unmet_lt _none

/-- The facts that hold initially or come about by eligible units, nothing ever removed. -/
def derivableFacts (lineup : Lineup) (features : Features) (initial : FactSet) : FactSet :=
  saturate initial (lineup.toList.filter (eligible features))

/-- The units that add a fact. -/
def adders (lineup : Lineup) (f : Fact) : List Contract := lineup.toList.filter (f ∈ ·.adds)

structure Problem where
  lineup : Lineup
  features : Features
  initial : FactSet
  derivable : FactSet
  derivable_eq : derivable = derivableFacts lineup features initial
  /-- Where the producers of a fact are looked up, in the line-up or in an index beside it. -/
  producers : Fact → List Contract
  producers_eq : producers = adders lineup

namespace Problem

def new (cat : Catalog) (features : Features) (initial : FactSet) : Problem :=
  let lineup := Sorted.ofList cat.toList
  ⟨lineup, features, initial, derivableFacts lineup features initial, rfl, adders lineup, rfl⟩

theorem mem_lineup {cat : Catalog} {features : Features} {initial : FactSet} {c : Contract} :
    c ∈ (new cat features initial).lineup ↔ c ∈ cat := by
  refine Sorted.mem_ofList ?_
  intro a ha b hb h
  exact Sorted.eq_of_key_eq (s := cat) ha hb (congrArg Turn.name h)

/-- What is derivable and who adds what depends on the rest. -/
theorem ext {p q : Problem} (hl : p.lineup = q.lineup) (hf : p.features = q.features)
    (hi : p.initial = q.initial) : p = q := by
  obtain ⟨lineup, features, initial, _, rfl, _, rfl⟩ := p
  obtain ⟨_, _, _, _, rfl, _, rfl⟩ := q
  cases hl
  cases hf
  cases hi
  rfl

variable (p : Problem)

def eligible (c : Contract) : Bool := Planner.eligible p.features c

def firstDisabled (c : Contract) : Option String := p.features.firstDisabled c.features.toList

def reachable (c : Contract) : Bool := p.eligible c && p.derivable.holdsAll c.needs

/-- The eligible producers of a fact apart from `passed`. -/
def candidates (f : Fact) (passed : List Contract) : List Contract :=
  (p.producers f).filter fun c => p.eligible c && c ∉ passed

/-- Why no producer of `f` could be chosen for `requester`. -/
def refusal (f : Fact) (requester : String) : Error :=
  match p.producers f with
  | [] => .unproducible f requester
  | producers =>
    match producers.findSome? fun c => (p.firstDisabled c).map (c.name, ·) with
    | some (unit, feature) => .featureDisabled f unit feature
    | none => .unsatisfiable f requester

/-- The first reachable candidate, or else the first. -/
def chooseProducer (f : Fact) (requester : String) (passed : List Contract) :
    Except Error Contract :=
  let candidates := p.candidates f passed
  match candidates.find? p.reachable with
  | some c => .ok c
  | none =>
    match candidates with
    | c :: _ => .ok c
    | [] => .error (p.refusal f requester)

theorem mem_candidates {p : Problem} {f : Fact} {passed : List Contract} {c : Contract} :
    c ∈ p.candidates f passed ↔ (c ∈ p.lineup ∧ f ∈ c.adds) ∧ p.eligible c ∧ c ∉ passed := by
  simp only [candidates, p.producers_eq, adders, List.mem_filter, Sorted.mem_toList, Bool.and_eq_true,
    decide_eq_true_eq]

theorem mem_candidates_of_chooseProducer {p : Problem} {f : Fact} {r : String}
    {passed : List Contract} {c : Contract} (h : p.chooseProducer f r passed = .ok c) :
    c ∈ p.candidates f passed := by
  rw [chooseProducer] at h
  split at h
  · rename_i found
    cases h
    exact List.mem_of_find?_eq_some found
  · split at h
    · rename_i e
      cases h
      rw [e]
      exact List.mem_cons_self
    · cases h

/-! ## Selections -/

/-- A fact wanted, and on whose behalf. -/
abbrev Request := Fact × String

def requests (c : Contract) : List Request := c.needs.toList.map (·, c.name)

/-- Whether a fact is there to begin with or some selected unit adds it. -/
def covered (selected : List Contract) (f : Fact) : Bool :=
  f ∈ p.initial || selected.any (f ∈ ·.adds)

/-- How many units of the line-up are not selected. -/
def unselected (selected : List Contract) : Nat := p.lineup.toList.countP (· ∉ selected)

theorem unselected_lt {p : Problem} {selected : List Contract} {c : Contract}
    (hc : c ∈ p.lineup) (hn : c ∉ selected) : p.unselected (c :: selected) < p.unselected selected := by
  rw [unselected, unselected]
  have hc : c ∈ p.lineup.toList := hc
  generalize p.lineup.toList = units at hc
  induction units with
  | nil => cases hc
  | cons u us ih =>
    have le (us : List Contract) :
        us.countP (· ∉ c :: selected) ≤ us.countP (· ∉ selected) :=
      List.countP_mono_left fun x _ h => by simp at h ⊢; exact h.2
    rcases List.mem_cons.1 hc with rfl | hc
    · simp only [List.countP_cons]
      have := le us
      simp [hn]
      simpa using Nat.lt_succ_of_le this
    · have := ih hc
      simp only [List.countP_cons]
      have : (if decide (u ∉ c :: selected) = true then 1 else 0)
          ≤ if decide (u ∉ selected) = true then 1 else 0 := by
        by_cases h : u ∈ selected <;> simp [h]
        split <;> simp
      omega

/-- Selects producers, the earliest request first, until all requests and those of the units
    selected on the way are covered. -/
def close (queue : List Request) (selected : List Contract) : Except Error (List Contract) :=
  match queue with
  | [] => .ok selected
  | (f, requester) :: queue =>
    if p.covered selected f then close queue selected
    else match _chosen : p.chooseProducer f requester [] with
      | .ok c => close (queue ++ requests c) (c :: selected)
      | .error e => .error e
termination_by (p.unselected selected, queue.length)
decreasing_by
  · exact Prod.Lex.right _ (by simp)
  · rename_i hcov
    obtain ⟨⟨hc, hf⟩, -⟩ := mem_candidates.1 (mem_candidates_of_chooseProducer _chosen)
    refine Prod.Lex.left _ _ (unselected_lt hc fun hs => hcov ?_)
    simp only [covered, Bool.or_eq_true, List.any_eq_true]
    exact .inr ⟨c, hs, by simpa using hf⟩

theorem closed_subset {p : Problem} {queue : List Request} {selected closed : List Contract}
    (h : p.close queue selected = .ok closed) : selected ⊆ closed := by
  fun_induction p.close queue selected with
  | case1 => cases h; exact List.Subset.refl _
  | case2 _ _ _ _ _ ih => exact ih h
  | case3 _ _ _ _ _ c _ ih => exact List.Subset.trans (List.subset_cons_self c _) (ih h)
  | case4 => cases h

theorem unselected_le {p : Problem} {selected closed : List Contract} (h : selected ⊆ closed) :
    p.unselected closed ≤ p.unselected selected :=
  List.countP_mono_left fun _ _ hx => by simp at hx ⊢; exact fun hs => hx (h hs)

/-- Selects `c`, and producers for what it needs. -/
def select (c : Contract) (selected : List Contract) : Except Error (List Contract) :=
  p.close (requests c) (c :: selected)

end Problem

end Planner

end Trellis
