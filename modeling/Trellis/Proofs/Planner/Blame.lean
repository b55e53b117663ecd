/-
  Trellis.Proofs.Planner.Blame — what an attempt at ordering gets stuck on.

  The search for links names the first need that it found without support. A need is given if
  its fact is there from the start and nobody takes it away: then the start can always be linked
  to it, so whatever fails after that has failed, and has been named, further down. A search that
  keeps within its budget therefore names only needs that are not given (`support_fair`); one that
  runs out of it may fail without a name, and a given need be named on the way back.

  - `Selection.stuck_cause`: so an attempt gets stuck on a fact that the goal or a unit asks for, as
    it says, and that does not hold initially or is removed by a unit of the selection.
-/
import Trellis.Proofs.Planner.Safety

namespace Trellis.Planner

open Trellis.Graph

variable {g : Graph} {s t next : Search} {P : Need → Prop}

/-- Whatever need is named has the property. -/
def Effort.Names (e : Effort) (P : Need → Prop) : Prop := ∀ need, e.unsupported = some need → P need

/-- Within its budget, the search names only needs with the property. -/
def Search.Fair (g : Graph) (P : Need → Prop) (s : Search) : Prop :=
  ∀ p e, p.Over g → e.Names P → (s p e).2.exhausted = false → (s p e).2.Names P

/-- Within its budget, the search names a need if it fails. -/
def Search.Tells (g : Graph) (s : Search) : Prop :=
  ∀ p e, p.Over g → (s p e).1 = none → (s p e).2.exhausted = false →
    (s p e).2.unsupported.isSome = true

/-- A search does not take back that the budget is spent. -/
theorem Search.Keeps.eq_false (h : s.Keeps) {p : Precedence} {e : Effort}
    (hb : (s p e).2.exhausted = false) : e.exhausted = false := by
  cases he : e.exhausted with
  | false => rfl
  | true => exact absurd (h p e he) (by simp [hb])

namespace Search.Fair

theorem charged (h : s.Fair g P) : s.charged.Fair g P := by
  intro p e hp he hb
  unfold Search.charged at hb ⊢
  split at hb
  · rename_i e' hc
    refine h p e' hp ?_ hb
    unfold Effort.charge at hc
    split at hc
    · cases hc
    · cases hc
      exact he
  · cases hb

theorem ordering (h : s.Fair g P) {a b : Nat} (ha : a < g.size) (hb : b < g.size) :
    (s.ordering a b).Fair g P := by
  intro p e hp he hexh
  unfold Search.ordering at hexh ⊢
  split at hexh
  · rename_i hr
    rw [if_pos hr]
    exact he
  · rename_i hr
    rw [if_neg hr]
    exact h _ e (hp.add ha hb hr) he hexh

theorem orElse (h : s.Fair g P) (k : t.Fair g P) (kt : t.Keeps) : (s.orElse t).Fair g P := by
  intro p e hp he hb
  have first := h p e hp he
  unfold Search.orElse at hb ⊢
  split at hb
  · rename_i found e' hr
    rw [hr] at first
    exact first hb
  · rename_i e' hr
    rw [hr] at first
    exact k p e' hp (first (kt.eq_false hb)) hb

/-- Where the first choice tells of its failure, nothing that is tried after it is named. -/
theorem orElse_of_tells (h : s.Fair g P) (hs : s.Tells g) (kt : t.Keeps)
    (keep : ∀ need, t.Preserves (·.unsupported = some need)) : (s.orElse t).Fair g P := by
  intro p e hp he hb
  have first := h p e hp he
  have told := hs p e hp
  unfold Search.orElse at hb ⊢
  split at hb
  · rename_i found e' hr
    rw [hr] at first
    exact first hb
  · rename_i e' hr
    rw [hr] at first told
    have hb' := kt.eq_false hb
    obtain ⟨need, hneed⟩ := Option.isSome_iff_exists.1 (told rfl hb')
    intro named hnamed
    have kept := keep need p e' hneed
    rw [kept, Option.some.injEq] at hnamed
    exact hnamed ▸ first hb' need hneed

end Search.Fair

namespace Search.Tells

theorem charged (h : s.Tells g) : s.charged.Tells g := by
  intro p e hp hnone hb
  unfold Search.charged at hnone hb ⊢
  cases hc : e.charge with
  | none => simp [hc] at hb
  | some e' =>
    simp only [hc] at hnone hb ⊢
    exact h p e' hp hnone hb

/-- Along an edge that is there already. -/
theorem ordering (h : s.Tells g) {a b : Nat} (he : ⟨a, b⟩ ∈ g.edges) : (s.ordering a b).Tells g := by
  intro p e hp hnone hb
  obtain ⟨ha, hb'⟩ := g.inside _ he
  have hr : p.reaches b a ≠ true := by
    intro hr
    exact hp.acyclic a b (mem_edges_addAll.2 (.inl he)) ((hp.reaches_iff hb').1 hr)
  unfold Search.ordering at hnone hb ⊢
  rw [if_neg hr] at hnone hb ⊢
  exact h _ e (hp.add ha hb' hr) hnone hb

end Search.Tells

/-! ## The search for links -/

theorem protect_fair (h : next.Fair g P) (k : next.Keeps) {consumer supplier : Nat}
    (hc : consumer < g.size) (hs : supplier < g.size) {threats : List Nat}
    (ht : ∀ r ∈ threats, r < g.size) : (protect consumer supplier next threats).Fair g P := by
  induction threats with
  | nil => exact h
  | cons r threats ih =>
    obtain ⟨hr, ht⟩ := List.forall_mem_cons.1 ht
    have rest := (ih ht).charged
    have keep := (protect_keeps k consumer supplier threats).charged
    intro p e hp he hb
    simp only [protect] at hb ⊢
    split at hb
    · rename_i hset
      rw [if_pos hset]
      exact ih ht p e hp he hb
    · rename_i hset
      rw [if_neg hset]
      exact (rest.ordering hc hr).orElse (rest.ordering hr hs) (keep.ordering r supplier) p e hp he hb

section Links

variable (h : next.Fair g P) (k : next.Keeps) {need : Need} (hin : need.Inside g.size)

include h k hin

theorem link_fair (hP : P need) {suppliers : List Nat} (hs : ∀ x ∈ suppliers, x < g.size) :
    (link need next suppliers).Fair g P := by
  induction suppliers with
  | nil =>
    intro p e hp he _ named hnamed
    cases hu : e.unsupported with
    | none =>
      simp only [link, Effort.blame, hu, Option.none_or, Option.some.injEq] at hnamed
      exact hnamed ▸ hP
    | some first =>
      simp only [link, Effort.blame, hu, Option.some_or, Option.some.injEq] at hnamed
      exact hnamed ▸ he first hu
  | cons x suppliers ih =>
    obtain ⟨hx, hs⟩ := List.forall_mem_cons.1 hs
    have linked := (protect_fair h k hin.consumer hx hin.removers).charged.ordering hx hin.consumer
    exact linked.orElse (ih hs) (link_keeps k need suppliers)

/-- A need that is given is never named: its link to the start can only fail further down. -/
theorem link_fair_of_given (tells : next.Tells g) (keep : ∀ n, next.Preserves (·.unsupported = some n))
    (hnone : need.removers = []) {start : Nat} (hstart : ⟨start, need.consumer⟩ ∈ g.edges)
    (suppliers : List Nat) : (link need next (start :: suppliers)).Fair g P := by
  have hx := (g.inside _ hstart).1
  have linked := (protect_fair h k hin.consumer hx hin.removers).charged.ordering hx hin.consumer
  refine linked.orElse_of_tells ?_ (link_keeps k need suppliers) fun n => ?_
  · rw [hnone]
    exact tells.charged.ordering hstart
  · exact link_preserves (closed_unsupported n) (keep n) need suppliers

end Links

/-- The fact is there from the start, which comes before the consumer, and nobody takes it away. -/
structure Need.Given (g : Graph) (need : Need) : Prop where
  unthreatened : need.removers = []
  first : ∃ start suppliers, need.suppliers = start :: suppliers ∧ ⟨start, need.consumer⟩ ∈ g.edges

theorem support_tells (needs : List Need) : (support needs).Tells g := fun _ _ _ hnone _ =>
  support_blames hnone

theorem support_fair {needs : List Need} (hin : ∀ need ∈ needs, need.Inside g.size)
    (hP : ∀ need ∈ needs, need.Given g ∨ P need) : (support needs).Fair g P := by
  induction needs with
  | nil => exact fun _ _ _ he _ => he
  | cons need needs ih =>
    obtain ⟨hneed, hin⟩ := List.forall_mem_cons.1 hin
    obtain ⟨hcase, hP⟩ := List.forall_mem_cons.1 hP
    have next := ih hin hP
    rw [support]
    rcases hcase with ⟨hnone, start, suppliers, hs, hstart⟩ | hP
    · rw [hs]
      exact link_fair_of_given next (support_keeps needs) hneed (support_tells needs)
        (fun n => support_preserves (closed_unsupported n) needs) hnone hstart suppliers
    · exact link_fair next (support_keeps needs) hneed hP hneed.suppliers

/-! ## Attempts -/

/-- The fact does not hold initially, or one of the units takes it away. -/
def Contested (initial : FactSet) (units : List Contract) (f : Fact) : Prop :=
  f ∉ initial ∨ ∃ d ∈ units, f ∈ d.removes

/-- The fact is part of the goal, or one of the units needs it. -/
def Asked (required : FactSet) (units : List Contract) (f : Fact) : Prop :=
  f ∈ required ∨ ∃ d ∈ units, f ∈ d.needs

/-- The fact is part of the goal, on whose behalf it is asked for, or the unit of that name needs it. -/
def AskedBy (required : FactSet) (units : List Contract) (f : Fact) (requester : String) : Prop :=
  (requester = goalName ∧ f ∈ required) ∨ ∃ d ∈ units, d.name = requester ∧ f ∈ d.needs

theorem AskedBy.asked {required : FactSet} {units : List Contract} {f : Fact} {requester : String}
    (h : AskedBy required units f requester) : Asked required units f := by
  rcases h with ⟨-, hf⟩ | ⟨d, hd, -, hf⟩
  · exact .inl hf
  · exact .inr ⟨d, hd, hf⟩

namespace Selection

variable {s : Selection} {f : Fact} {requester : String}

theorem askedBy_of_mem_needs {need : Need} (h : need ∈ s.needs) :
    AskedBy s.required s.units need.fact (s.requester need.consumer) := by
  rcases mem_needs.1 h with ⟨i, c, f, hi, hf, rfl⟩ | ⟨f, hf, rfl⟩
  · refine .inr ⟨c, List.mem_of_getElem? hi, ?_, hf⟩
    simp [need, requester, hi]
  · refine .inl ⟨?_, hf⟩
    simp [need, requester, getElem?_endNode]

theorem start_edge {consumer : Nat} (h : consumer < s.units.length ∨ consumer = s.endNode) :
    ⟨s.startNode, consumer⟩ ∈ s.forced.edges := by
  refine mem_forced.2 (.inl (mem_frame.2 ?_))
  rcases h with h | rfl
  · exact .inr ⟨consumer, h, .inl rfl⟩
  · exact .inl rfl

theorem given_or_contested {need : Need} (h : need ∈ s.needs) :
    need.Given s.forced ∨ Contested s.initial s.units need.fact := by
  have either {consumer : Nat} (hc : consumer < s.units.length ∨ consumer = s.endNode) (f : Fact) :
      (s.need consumer f).Given s.forced ∨ Contested s.initial s.units f := by
    by_cases hinit : f ∈ s.initial
    · by_cases hrem : ∃ d ∈ s.units, f ∈ d.removes
      · exact .inr (.inr hrem)
      · have hs : s.suppliers consumer f =
            s.startNode :: (s.nodesWhere (f ∈ ·.adds)).filter (· ≠ consumer) := by
          rw [suppliers, if_pos hinit]
          rfl
        refine .inl ⟨List.eq_nil_iff_forall_not_mem.2 fun r hr => hrem ?_, _, _, hs, start_edge hc⟩
        obtain ⟨d, hd, hf⟩ := mem_removers.1 hr
        exact ⟨d, List.mem_of_getElem? hd, hf⟩
    · exact .inr (.inl hinit)
  rcases mem_needs.1 h with ⟨i, c, f, hi, -, rfl⟩ | ⟨f, -, rfl⟩
  · exact either (.inl (lt_length_of_getElem? hi)) f
  · exact either (.inr rfl) f

/-- An attempt that keeps within its budget gets stuck on a fact that is asked for, on behalf of
    whom it says, and that does not hold initially or is taken away. -/
theorem stuck_cause (hb : s.attempt.exhausted = false)
    (h : s.attempt.outcome = .ok (.stuck f requester)) :
    AskedBy s.required s.units f requester ∧ Contested s.initial s.units f := by
  rcases attempt_cases s with ⟨cycle, -, e⟩ | ⟨hacyclic, ⟨_, e, hs, ha⟩ | ⟨_, _, _, -, -, -, e⟩⟩
  · rw [e] at h
    cases h
  · have hnone : (s.searchLinks s.forced).1 = none := by rw [hs]
    obtain ⟨need, hnamed⟩ := Option.isSome_iff_exists.1 (support_blames hnone)
    have fair : (support s.needs).Fair s.forced fun need =>
        need ∈ s.needs ∧ Contested s.initial s.units need.fact := by
      refine support_fair needs_inside fun need hneed => ?_
      exact (given_or_contested hneed).imp_right fun hc => ⟨hneed, hc⟩
    have within : (s.searchLinks s.forced).2.exhausted = false := by
      rw [ha] at hb
      rw [hs]
      exact hb
    obtain ⟨hneed, hcontested⟩ := fair _ _ (Precedence.over_ofGraph hacyclic)
      (fun _ hn => by cases hn) within need hnamed
    rw [attempt_of_unsupported (Graph.findCycle_eq_none.2 hacyclic) hnone hnamed] at h
    cases h
    exact ⟨askedBy_of_mem_needs hneed, hcontested⟩
  · rw [e] at h
    cases h

end Selection

end Trellis.Planner
