/-
  Trellis.Proofs.Planner.Registration — registration builds a value of the set of units taken in.

  A registration that is accepted places one entry, and nothing else is looked at; so what
  is registered, and neither when nor after what, decides the crew:
  - `registerAll_ok`: passes of valid contracts and distinct new names are all taken, and the
    crew then holds them and who was there before.
  - `plans_ignore_registration_order`: two orders of registration give rosters that validate alike
    and plan alike, down to the errors. The order decides what is filed when; but each index comes
    to say what the crew says (`Roster.registerEach_mirrors`), and this is the same crew.
-/
import Trellis.Proofs.Planner.Indexes

namespace Trellis

/-! ## Crews -/

namespace Crew

variable {τ : Type} [MarkerFamily τ] {crew : Crew τ}

theorem registerAll_ok {ps : List (Pass τ)} (hv : ∀ p ∈ ps, p.contract.Valid)
    (hd : (ps.map Pass.name).Nodup) (hn : ∀ p ∈ ps, ∀ q ∈ crew, q.name ≠ p.name) :
    ∃ crew', crew.registerAll ps = .ok crew' ∧ ∀ q, q ∈ crew' ↔ q ∈ ps ∨ q ∈ crew := by
  induction ps generalizing crew with
  | nil => exact ⟨crew, rfl, by simp⟩
  | cons p ps ih =>
    rw [List.map_cons, List.nodup_cons] at hd
    have apart : ∀ q ∈ ps, q.name ≠ p.name := fun q hq e => hd.1 (e ▸ List.mem_map_of_mem hq)
    have free : ∀ q ∈ ps, ∀ r ∈ crew.insert p, r.name ≠ q.name := by
      intro q hq r hr
      rcases Sorted.mem_insert.1 hr with rfl | ⟨hr, -⟩
      · exact (apart q hq).symm
      · exact hn q (List.mem_cons_of_mem _ hq) r hr
    obtain ⟨crew', hall, hmem⟩ := ih (fun q hq => hv q (List.mem_cons_of_mem _ hq)) hd.2 free
    have hreg := register_ok (hv p List.mem_cons_self) (hn p List.mem_cons_self)
    refine ⟨crew', bind_eq_ok.2 ⟨_, hreg, hall⟩, fun q => ?_⟩
    rw [hmem, Sorted.mem_insert, List.mem_cons]
    constructor
    · rintro (hq | rfl | ⟨hq, -⟩)
      · exact .inl (.inr hq)
      · exact .inl (.inl rfl)
      · exact .inr hq
    · rintro ((rfl | hq) | hq)
      · exact .inr (.inl rfl)
      · exact .inl hq
      · exact .inr (.inr ⟨hq, hn p List.mem_cons_self q hq⟩)

/-- What is registered decides the crew, in whatever order it comes. -/
theorem registerAll_perm {ps qs : List (Pass τ)} (hperm : ps.Perm qs)
    (hv : ∀ p ∈ ps, p.contract.Valid) (hd : (ps.map Pass.name).Nodup) :
    ∃ crew : Crew τ, registerAll ∅ ps = .ok crew ∧ registerAll ∅ qs = .ok crew ∧
      ∀ p, p ∈ crew ↔ p ∈ ps := by
  have none (p : Pass τ) : ∀ q ∈ (∅ : Crew τ), q.name ≠ p.name := fun q hq =>
    absurd hq (Sorted.not_mem_empty q)
  obtain ⟨c, hc, mem_c⟩ := registerAll_ok hv hd fun p _ => none p
  obtain ⟨d, hdq, mem_d⟩ := registerAll_ok (fun p hp => hv p (hperm.mem_iff.2 hp))
    ((hperm.map Pass.name).nodup_iff.1 hd) fun p _ => none p
  have same : c = d := Sorted.ext_mem fun p => by rw [mem_c, mem_d, hperm.mem_iff]
  refine ⟨c, hc, same ▸ hdq, fun p => ?_⟩
  rw [mem_c]
  exact or_iff_left (Sorted.not_mem_empty p)

end Crew

namespace Planner

variable {τ : Type} [MarkerFamily τ]

/-- Passes of valid contracts (a contract that fails its check makes no unit) and distinct names,
    registered one by one in two orders: both times all are taken, and from then on validation and
    planning answer alike, whatever they are asked, be it that they go by the indexes that were
    kept on the way or by the contracts. -/
theorem plans_ignore_registration_order {ps qs : List (Pass τ)} (hperm : ps.Perm qs)
    (hnames : (ps.map Pass.name).Nodup) (hvalid : ∀ p ∈ ps, p.contract.Valid) :
    let c := Roster.empty.registerEach ps
    let d := Roster.empty.registerEach qs
    Crew.registerAll ∅ ps = .ok c.crew ∧ Crew.registerAll ∅ qs = .ok d.crew ∧
      (∀ p, p ∈ c.crew ↔ p ∈ ps) ∧ (∀ p, p ∈ d.crew ↔ p ∈ ps) ∧
      (∃ (hc : c.Mirrors) (hd : d.Mirrors),
        (∀ initial, c.validate initial = d.validate initial) ∧
        ∀ features config initial goal,
          c.plan hc features config initial goal = d.plan hd features config initial goal) ∧
      (∀ initial, c.crew.catalog.validate initial = d.crew.catalog.validate initial) ∧
      ∀ features config initial goal, plan c.crew.catalog features config initial goal =
        plan d.crew.catalog features config initial goal := by
  intro c d
  obtain ⟨crew, hps, hqs, hmem⟩ := Crew.registerAll_perm hperm hvalid hnames
  have hc : c.crew = crew := (Roster.crew_registerEach _ ps).trans (Crew.offerAll_of_ok hps)
  have hd : d.crew = crew := (Roster.crew_registerEach _ qs).trans (Crew.offerAll_of_ok hqs)
  have mc : c.Mirrors := Roster.registerEach_mirrors ps
  have md : d.Mirrors := Roster.registerEach_mirrors qs
  have valid (initial : FactSet) : c.crew.catalog.validate initial = d.crew.catalog.validate initial := by
    rw [hc, hd]
  have plans (features : Features) (config : Config) (initial : FactSet) (goal : Goal) :
      plan c.crew.catalog features config initial goal =
        plan d.crew.catalog features config initial goal := by
    rw [hc, hd]
  refine ⟨hc ▸ hps, hd ▸ hqs, hc ▸ hmem, hd ▸ hmem, ⟨mc, md, fun initial => ?_, ?_⟩, valid, plans⟩
  · rw [mc.validate_eq, md.validate_eq, valid]
  · intro features config initial goal
    rw [mc.plan_eq, md.plan_eq, plans]

/-- Whichever is registered first, `count` is planned to run before `lower`. -/
theorem plans_ignore_registration_order_lowering : ∃ q,
    (∃ h, (Roster.empty.registerEach [Pass.lowering, .counting]).plan h ∅ .default
      (Sorted.ofList [raw]) .maximal = .ok q) ∧
    (∃ h, (Roster.empty.registerEach [Pass.counting, .lowering]).plan h ∅ .default
      (Sorted.ofList [raw]) .maximal = .ok q) ∧
    q.units = ["count", "lower"] := by
  have hperm : [Pass.lowering, .counting].Perm [.counting, .lowering] := .swap ..
  have hnames : ([Pass.lowering, .counting].map Pass.name).Nodup := by decide
  have hvalid : ∀ p ∈ [Pass.lowering, .counting], p.contract.Valid := by
    intro p hp
    rw [← Contract.check_eq_ok (d := p.contract) |>.trans (and_iff_right rfl)]
    rcases List.mem_cons.1 hp with rfl | hp
    · cbv
    · cases List.mem_singleton.1 hp
      cbv
  obtain ⟨-, -, -, -, ⟨hc, hd, -, plans⟩, -⟩ :=
    plans_ignore_registration_order hperm hnames hvalid
  obtain ⟨q, planned, units⟩ : ∃ q, (Roster.empty.registerEach [Pass.lowering, .counting]).plan hc ∅
      .default (Sorted.ofList [raw]) .maximal = .ok q ∧ q.units = ["count", "lower"] := by
    rw [hc.plan_eq]
    exact ⟨_, by cbv, rfl⟩
  exact ⟨q, ⟨hc, planned⟩, ⟨hd, plans .. ▸ planned⟩, units⟩

end Planner

end Trellis
