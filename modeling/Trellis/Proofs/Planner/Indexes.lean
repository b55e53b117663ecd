/-
  Trellis.Proofs.Planner.Indexes — indexes kept call by call say what the crew says.

  The indexes of a catalog are read off its contracts. A roster keeps them beside the crew: three
  maps from keys to sets of names, each changed by hand for every pass that is taken on, and
  trusted from then on in place of the contracts. What ties a map to the crew is `Indexes`, which
  one filing keeps as long as the name is new (`Indexes.insert`); so a call that is refused has to
  be refused before anything is filed. From there:
  - `Roster.registerEach_coherent`: the maps index the crew after any calls, refused ones among
    them.
  - `Roster.Mirrors.plan_eq`: with the index of producers to go by, planning answers as it does with
    the contracts.
  - `Crew.find?_offerAll`: under each name stands the first pass that could be registered.
  - `indexes_cohere`: all of it at once, for the maps and for the catalog's own readings.
-/
import Trellis.Proofs.Execution.Refinement
import Trellis.Roster

namespace Trellis

open Std (TransOrd LawfulEqOrd)

/-! ## Names on file -/

namespace Files

variable {κ : Type} [Ord κ] [DecidableEq κ] {m : Files κ} {k k' : κ} {n name : String}
variable [TransOrd κ] [LawfulEqOrd κ]

theorem mem_under_file : n ∈ (file name m k).under k' ↔ n ∈ m.under k' ∨ n = name ∧ k' = k := by
  rw [under, file, OrdMap.get?_set]
  split
  · rename_i h
    rw [Option.getD_some, OrdSet.mem_insert, ← h]
    simp [or_comm]
  · rename_i h
    rw [← under]
    simp [Ne.symm h]

theorem mem_under_fileAll {ks : List κ} :
    n ∈ (fileAll m name ks).under k ↔ n ∈ m.under k ∨ n = name ∧ k ∈ ks := by
  induction ks generalizing m with
  | nil => simp [fileAll]
  | cons k₀ ks ih =>
    rw [fileAll, List.foldl_cons, ← fileAll, ih, mem_under_file, List.mem_cons]
    tauto

omit [TransOrd κ] [LawfulEqOrd κ] in
theorem under_of_not_mem_keys (h : k ∉ m.keys) : m.under k = ∅ := by
  have absent : m.find? k = none :=
    Sorted.find?_eq_none.2 fun e he eq => h (List.mem_map.2 ⟨e, he, eq⟩)
  rw [under, OrdMap.get?, absent]
  rfl

theorem mem_keys_file : k' ∈ (file name m k).keys ↔ k' = k ∨ k' ∈ m.keys := by
  simp only [keys, List.mem_map, Sorted.mem_toList, file, OrdMap.set, Sorted.mem_insert]
  constructor
  · rintro ⟨e, rfl | ⟨he, -⟩, rfl⟩
    · exact .inl rfl
    · exact .inr ⟨e, he, rfl⟩
  · rintro (rfl | ⟨e, he, rfl⟩)
    · exact ⟨_, .inl rfl, rfl⟩
    · by_cases h : e.1 = k
      · exact ⟨_, .inl rfl, h.symm⟩
      · exact ⟨e, .inr ⟨he, h⟩, rfl⟩

/-- No key is there for nothing. -/
def Filled (m : Files κ) : Prop := ∀ k ∈ m.keys, ∃ n, n ∈ m.under k

theorem Filled.fileAll (h : Filled m) (ks : List κ) : Filled (fileAll m name ks) := by
  induction ks generalizing m with
  | nil => exact h
  | cons k₀ ks ih =>
    refine ih fun k hk => ?_
    rcases mem_keys_file.1 hk with rfl | hk
    · exact ⟨name, mem_under_file.2 (.inr ⟨rfl, rfl⟩)⟩
    · obtain ⟨n, hn⟩ := h k hk
      exact ⟨n, mem_under_file.2 (.inl hn)⟩

omit [TransOrd κ] [LawfulEqOrd κ] in
theorem Filled.mem_keys (h : Filled m) : k ∈ m.keys ↔ ∃ n, n ∈ m.under k := by
  refine ⟨h k, fun ⟨n, hn⟩ => ?_⟩
  by_contra absent
  rw [under_of_not_mem_keys absent] at hn
  exact Sorted.not_mem_empty n hn

end Files

/-! ## What an index has to say -/

namespace Catalog

variable {cat cat' : Catalog} {c : Contract}

/-- The names of the units that `p` picks, in order. -/
def index (cat : Catalog) (p : Contract → Bool) : List String :=
  (cat.toList.filter p).map Contract.name

theorem hasKey_eq_false {name : String} : cat.hasKey name = false ↔ ∀ d ∈ cat, d.name ≠ name := by
  rw [Sorted.hasKey, Option.isSome_eq_false_iff, Option.isNone_iff_eq_none, Sorted.find?_eq_none]

/-- A registration is accepted exactly when the contract is valid and its name is new. -/
theorem register_eq_ok :
    register cat c = .ok cat' ↔ c.Valid ∧ (∀ d ∈ cat, d.name ≠ c.name) ∧ cat' = cat.insert c := by
  constructor
  · intro h
    obtain ⟨d, hcheck, placed⟩ := bind_eq_ok.1 h
    obtain ⟨rfl, hv⟩ := Contract.check_eq_ok.1 hcheck
    cases taken : cat.hasKey d.name with
    | true => simp [taken, bind, Except.bind, throw, throwThe, MonadExceptOf.throw] at placed
    | false =>
      simp [taken, pure, Except.pure] at placed
      exact ⟨hv, hasKey_eq_false.1 taken, placed.symm⟩
  · rintro ⟨hv, hn, rfl⟩
    rw [register, Contract.check_eq_ok.2 ⟨rfl, hv⟩]
    simp [hasKey_eq_false.2 hn, bind, Except.bind, pure, Except.pure]

end Catalog

theorem Contract.toBool_check {c : Contract} : c.check.toBool = true ↔ c.Valid := by
  constructor
  · intro h
    cases hc : c.check with
    | error e => rw [hc] at h; cases h
    | ok d => exact (check_eq_ok.1 hc).2
  · intro h
    rw [check_eq_ok.2 ⟨rfl, h⟩]
    rfl

/-- A list in ascending order, and so without duplicates, of exactly what `q` asks for. -/
structure Lists {κ : Type} [Ord κ] (xs : List κ) (q : κ → Prop) : Prop where
  ascending : xs.Pairwise fun a b => compare a b = .lt
  nodup : xs.Nodup
  mem_iff : ∀ x, x ∈ xs ↔ q x

namespace Lists

variable {κ : Type} [Ord κ] [TransOrd κ] {xs ys : List κ} {q : κ → Prop}

theorem of_ascending (h : xs.Pairwise fun a b => compare a b = .lt) (hq : ∀ x, x ∈ xs ↔ q x) :
    Lists xs q :=
  ⟨h, h.imp Sorted.ne_of_compare_lt, hq⟩

/-- There is one such list. -/
theorem unique (hx : Lists xs q) (hy : Lists ys q) : xs = ys := by
  have same : (⟨xs, hx.ascending⟩ : OrdSet κ) = ⟨ys, hy.ascending⟩ :=
    Sorted.ext_mem fun x => (hx.mem_iff x).trans (hy.mem_iff x).symm
  exact congrArg Sorted.toList same

end Lists

variable {τ : Type} [MarkerFamily τ]

namespace Crew

variable {crew : Crew τ}

theorem mem_catalog {c : Contract} : c ∈ crew.catalog ↔ ∃ p ∈ crew, p.contract = c := List.mem_map

theorem register_ok {p : Pass τ} (hv : p.contract.Valid) (hn : ∀ q ∈ crew, q.name ≠ p.name) :
    crew.register p = .ok (crew.insert p) := by
  have new : ∀ d ∈ crew.catalog, d.name ≠ p.contract.name := by
    intro d hd
    obtain ⟨q, hq, rfl⟩ := mem_catalog.1 hd
    exact hn q hq
  rw [register, Catalog.register_eq_ok.2 ⟨hv, new, rfl⟩]
  rfl

/-- The units that `p` picks are listed by name, as the crew stands. -/
theorem lists_index (crew : Crew τ) (p : Contract → Prop) [DecidablePred p] :
    Lists (crew.catalog.index fun c => p c) fun n => ∃ q ∈ crew, q.name = n ∧ p q.contract := by
  refine .of_ascending (List.pairwise_map.2 (crew.catalog.ascending.filter _)) fun n => ?_
  simp only [Catalog.index, List.mem_map, List.mem_filter, Sorted.mem_toList, mem_catalog,
    decide_eq_true_eq]
  constructor
  · rintro ⟨c, ⟨⟨q, hq, rfl⟩, hp⟩, rfl⟩
    exact ⟨q, hq, rfl, hp⟩
  · rintro ⟨q, hq, rfl, hp⟩
    exact ⟨q.contract, ⟨⟨q, hq, rfl⟩, hp⟩, rfl⟩

theorem lists_granularities (crew : Crew τ) :
    Lists crew.catalog.granularities fun k => ∃ q ∈ crew, q.contract.granularity = k := by
  have ascending : Kind.all.Pairwise fun a b => compare a b = .lt := by decide
  refine .of_ascending (ascending.filter _) fun k => ?_
  simp only [Catalog.granularities, List.mem_filter, Kind.mem_all, true_and, List.any_eq_true,
    decide_eq_true_eq, Sorted.mem_toList, mem_catalog]
  constructor
  · rintro ⟨c, ⟨q, hq, rfl⟩, hk⟩
    exact ⟨q, hq, hk⟩
  · rintro ⟨q, hq, hk⟩
    exact ⟨q.contract, ⟨q, hq, rfl⟩, hk⟩

/-! ## Calls that may be refused -/

theorem hasKey_catalog (crew : Crew τ) (name : String) :
    crew.catalog.hasKey name = crew.hasKey name := by
  simp only [Sorted.hasKey, Sorted.find?, catalog, List.find?_map, Option.isSome_map]
  rfl

/-- Accepted are the valid contracts of new names, and nothing else changes the crew. -/
theorem register_eq_ok {crew' : Crew τ} {p : Pass τ} :
    crew.register p = .ok crew' ↔
      p.contract.Valid ∧ crew.find? p.name = none ∧ crew' = crew.insert p := by
  rw [Sorted.find?_eq_none]
  constructor
  · intro h
    obtain ⟨cat, hcat, hcrew⟩ := bind_eq_ok.1 h
    obtain ⟨hv, hn, -⟩ := Catalog.register_eq_ok.1 hcat
    cases hcrew
    exact ⟨hv, fun q hq => hn q.contract (mem_catalog.2 ⟨q, hq, rfl⟩), rfl⟩
  · rintro ⟨hv, hn, rfl⟩
    exact register_ok hv hn

theorem register_taken {p : Pass τ} (hv : p.contract.Valid) (taken : crew.find? p.name ≠ none) :
    crew.register p = .error (.duplicate p.name) := by
  have key : crew.catalog.hasKey p.contract.name = true := by
    rw [hasKey_catalog]
    exact Option.isSome_iff_ne_none.2 taken
  rw [register, Catalog.register, Contract.check_eq_ok.2 ⟨rfl, hv⟩]
  simp [key, Pass.name, bind, Except.bind, throw, throwThe, MonadExceptOf.throw]

/-- The crew after a call, which a refused one leaves as it is. -/
def offer (crew : Crew τ) (p : Pass τ) : Crew τ :=
  match crew.register p with
  | .ok crew' => crew'
  | .error _ => crew

def offerAll (crew : Crew τ) (ps : List (Pass τ)) : Crew τ := ps.foldl offer crew

theorem offer_of_ok {p : Pass τ} (hv : p.contract.Valid) (hn : crew.find? p.name = none) :
    crew.offer p = crew.insert p := by
  rw [offer, register_eq_ok.2 ⟨hv, hn, rfl⟩]

theorem offer_of_refused {p : Pass τ} (h : ¬(p.contract.Valid ∧ crew.find? p.name = none)) :
    crew.offer p = crew := by
  rw [offer]
  split
  · rename_i crew' hcrew
    obtain ⟨hv, hn, -⟩ := register_eq_ok.1 hcrew
    exact absurd ⟨hv, hn⟩ h
  · rfl

theorem find?_offer (p : Pass τ) (name : String) :
    (crew.offer p).find? name = (crew.find? name).or
      (if p.contract.check.toBool ∧ p.name = name then some p else none) := by
  have valid := Contract.toBool_check (c := p.contract)
  by_cases h : p.contract.Valid ∧ crew.find? p.name = none
  · rw [offer_of_ok h.1 h.2, Sorted.find?_insert]
    by_cases e : p.name = name
    · rw [if_pos e, if_pos ⟨valid.2 h.1, e⟩, ← e, h.2, Option.none_or]
    · rw [if_neg e, if_neg fun both => e both.2, Option.or_none]
  · rw [offer_of_refused h]
    by_cases both : p.contract.check.toBool ∧ p.name = name
    · obtain ⟨q, hq⟩ := Option.ne_none_iff_exists'.1 fun free => h ⟨valid.1 both.1, both.2 ▸ free⟩
      rw [hq, Option.some_or]
    · rw [if_neg both, Option.or_none]

/-- In force under a name is the first pass of that name that could be registered at all. -/
theorem find?_offerAll (ps : List (Pass τ)) (name : String) :
    (crew.offerAll ps).find? name = (crew.find? name).or
      (ps.find? fun p => p.contract.check.toBool ∧ p.name = name) := by
  induction ps generalizing crew with
  | nil => rw [List.find?_nil, Option.or_none, offerAll, List.foldl_nil]
  | cons p ps ih =>
    rw [offerAll, List.foldl_cons, ← offerAll, ih, find?_offer, Option.or_assoc, List.find?_cons]
    congr 1
    by_cases both : p.contract.check.toBool ∧ p.name = name
    · rw [if_pos both, decide_eq_true both, Option.some_or]
    · rw [if_neg both, decide_eq_false both, Option.none_or]

/-- Where no call is refused, the crew is the one that was asked for. -/
theorem offerAll_of_ok {crew crew' : Crew τ} {ps : List (Pass τ)}
    (h : crew.registerAll ps = .ok crew') : crew.offerAll ps = crew' := by
  induction ps generalizing crew with
  | nil =>
    cases h
    rfl
  | cons p ps ih =>
    obtain ⟨next, hp, hps⟩ := bind_eq_ok.1 h
    have first : crew.offer p = next := by rw [offer, hp]
    rw [offerAll, List.foldl_cons, first]
    exact ih hps

end Crew

/-! ## Indexes kept by hand -/

/-- What the map files under a key are the names of the passes that `keysOf` puts there. -/
def Indexes {κ : Type} [Ord κ] [DecidableEq κ] (keysOf : Contract → List κ) (m : Files κ)
    (crew : Crew τ) : Prop :=
  ∀ k n, n ∈ m.under k ↔ ∃ q ∈ crew, q.name = n ∧ k ∈ keysOf q.contract

namespace Indexes

variable {κ : Type} [Ord κ] [DecidableEq κ] [TransOrd κ] [LawfulEqOrd κ]
variable {keysOf : Contract → List κ} {m : Files κ} {crew : Crew τ}

/-- To take a pass on is to file its name. Were the name taken, the pass it displaces would leave
    its own entries behind. -/
theorem insert (h : Indexes keysOf m crew) {p : Pass τ} (free : crew.find? p.name = none) :
    Indexes keysOf (m.fileAll p.name (keysOf p.contract)) (crew.insert p) := by
  intro k n
  rw [Files.mem_under_fileAll, h k n]
  constructor
  · rintro (⟨q, hq, rfl, hk⟩ | ⟨rfl, hk⟩)
    · exact ⟨q, Sorted.mem_insert.2 (.inr ⟨hq, Sorted.find?_eq_none.1 free q hq⟩), rfl, hk⟩
    · exact ⟨p, Sorted.mem_insert.2 (.inl rfl), rfl, hk⟩
  · rintro ⟨q, hq, rfl, hk⟩
    rcases Sorted.mem_insert.1 hq with rfl | ⟨hq, -⟩
    · exact .inr ⟨rfl, hk⟩
    · exact .inl ⟨q, hq, rfl, hk⟩

omit [TransOrd κ] [LawfulEqOrd κ] in
protected theorem empty : Indexes keysOf (∅ : Files κ) (∅ : Crew τ) := by
  intro k n
  constructor
  · intro hn
    exact absurd hn (Sorted.not_mem_empty n)
  · rintro ⟨q, hq, -⟩
    exact absurd hq (Sorted.not_mem_empty q)

omit [TransOrd κ] [LawfulEqOrd κ] in
/-- The entry under a key reads like the catalog's own index. -/
theorem under_eq (h : Indexes keysOf m crew) (k : κ) :
    (m.under k).toList = crew.catalog.index fun c => k ∈ keysOf c :=
  Lists.unique (.of_ascending (m.under k).ascending (h k)) (crew.lists_index (k ∈ keysOf ·))

end Indexes

namespace Roster

variable {r : Roster τ} {p : Pass τ}

/-- A roster answers as its crew would. -/
theorem register_eq (r : Roster τ) (p : Pass τ) :
    r.register p = match r.crew.register p with
      | .ok _ => (.ok (), r.take p)
      | .error e => (.error e, r) := by
  rw [register, Crew.register, Catalog.register]
  cases hcheck : p.contract.check with
  | error e => rfl
  | ok c =>
    simp only [← Crew.hasKey_catalog]
    cases htaken : r.crew.catalog.hasKey c.name with
    | false => simp [htaken, bind, Except.bind, pure, Except.pure]
    | true => simp [htaken, bind, Except.bind, throw, throwThe, MonadExceptOf.throw]

theorem register_eq_ok (r : Roster τ) (p : Pass τ) :
    (r.register p).1 = .ok () ↔ p.contract.Valid ∧ r.crew.find? p.name = none := by
  rw [register_eq]
  constructor
  · intro h
    cases hreg : r.crew.register p with
    | error e => rw [hreg] at h; cases h
    | ok crew' =>
      obtain ⟨hv, hn, -⟩ := Crew.register_eq_ok.1 hreg
      exact ⟨hv, hn⟩
  · rintro ⟨hv, hn⟩
    rw [Crew.register_eq_ok.2 ⟨hv, hn, rfl⟩]

/-- A call that is refused leaves the roster as it is. -/
theorem register_ne_ok (r : Roster τ) (p : Pass τ) (h : (r.register p).1 ≠ .ok ()) :
    (r.register p).2 = r := by
  rw [register_eq] at h ⊢
  cases hreg : r.crew.register p with
  | error e => rfl
  | ok crew' => rw [hreg] at h; exact absurd rfl h

theorem crew_register (r : Roster τ) (p : Pass τ) : (r.register p).2.crew = r.crew.offer p := by
  rw [register_eq, Crew.offer]
  cases hreg : r.crew.register p with
  | error e => rfl
  | ok crew' => exact (Crew.register_eq_ok.1 hreg).2.2.symm

theorem crew_registerEach (r : Roster τ) (ps : List (Pass τ)) :
    (r.registerEach ps).crew = r.crew.offerAll ps := by
  induction ps generalizing r with
  | nil => rfl
  | cons p ps ih =>
    rw [registerEach, List.foldl_cons, ← registerEach, ih, crew_register]
    rfl

/-- Every map indexes the crew. -/
structure Coherent (r : Roster τ) : Prop where
  producers : Indexes (fun c => c.adds.toList) r.producers r.crew
  consumers : Indexes (fun c => c.needs.toList) r.consumers r.crew
  runners : Indexes (fun c => [c.granularity]) r.runners r.crew
  filled : r.runners.Filled

theorem empty_coherent : (empty : Roster τ).Coherent :=
  ⟨.empty, .empty, .empty, fun _ hk => nomatch hk⟩

theorem Coherent.register (h : r.Coherent) (p : Pass τ) : (r.register p).2.Coherent := by
  rw [register_eq]
  cases hreg : r.crew.register p with
  | error e => exact h
  | ok crew' =>
    obtain ⟨-, free, -⟩ := Crew.register_eq_ok.1 hreg
    exact ⟨h.producers.insert free, h.consumers.insert free, h.runners.insert free,
      h.filled.fileAll _⟩

theorem registerEach_coherent (h : r.Coherent) (ps : List (Pass τ)) :
    (r.registerEach ps).Coherent := by
  induction ps generalizing r with
  | nil => exact h
  | cons p ps ih => exact ih (h.register p)

theorem Coherent.runners_keys (h : r.Coherent) :
    r.runners.keys = r.crew.catalog.granularities := by
  have ascending : r.runners.keys.Pairwise fun a b => compare a b = .lt :=
    List.pairwise_map.2 r.runners.ascending
  refine Lists.unique (.of_ascending ascending fun k => ?_) r.crew.lists_granularities
  rw [h.filled.mem_keys]
  constructor
  · rintro ⟨n, hn⟩
    obtain ⟨q, hq, -, hk⟩ := (h.runners k n).1 hn
    exact ⟨q, hq, (List.mem_singleton.1 hk).symm⟩
  · rintro ⟨q, hq, hk⟩
    exact ⟨q.name, (h.runners k q.name).2 ⟨q, hq, rfl, List.mem_singleton.2 hk.symm⟩⟩

theorem Coherent.mirrors (h : r.Coherent) : r.Mirrors where
  producers f := h.producers.under_eq f
  consumers f := h.consumers.under_eq f
  runners k := by
    rw [atGranularity, h.runners.under_eq k, Catalog.atGranularity, Catalog.index]
    simp only [List.mem_singleton, eq_comm]
  granularities := h.runners_keys

theorem registerEach_mirrors (ps : List (Pass τ)) : ((empty : Roster τ).registerEach ps).Mirrors :=
  (registerEach_coherent empty_coherent ps).mirrors

/-! ## Trusting the indexes -/

theorem Mirrors.validate_eq (h : r.Mirrors) (initial : FactSet) :
    r.validate initial = r.crew.catalog.validate initial := by
  rw [validate, Catalog.validate, funext h.producers]

/-- What is picked by the index is what the contracts add, so planning has the same to choose
    from. -/
theorem Mirrors.problem_eq (h : r.Mirrors) (features : Features) (initial : FactSet) :
    r.problem h features initial = Planner.Problem.new r.crew.catalog features initial :=
  Planner.Problem.ext rfl rfl rfl

theorem Mirrors.plan_eq (h : r.Mirrors) (features : Features) (config : Planner.Config)
    (initial : FactSet) (goal : Goal) :
    r.plan h features config initial goal = Trellis.plan r.crew.catalog features config initial goal := by
  rw [plan, h.validate_eq, h.problem_eq]
  rfl

end Roster

/-- Any calls, in any order, some of them refused. Each index lists, in the order of the names and
    without duplicates, exactly the units of the crew that add the fact, need it or run at the kind,
    and the kinds listed are those of the units; kept by hand or read off the contracts, the
    indexes are the same. In force under a name is the first pass of that name with a valid
    contract. A further call is accepted exactly for a valid contract and a new name; refused, it
    leaves the whole roster as it is. -/
theorem indexes_cohere (calls : List (Pass τ)) :
    let roster := Roster.empty.registerEach calls
    let crew := roster.crew
    crew = Crew.offerAll ∅ calls ∧ roster.Mirrors ∧
      (∀ f, Lists (crew.catalog.producersOf f) fun n =>
        ∃ p ∈ crew, p.name = n ∧ f ∈ p.contract.adds) ∧
      (∀ f, Lists (crew.catalog.consumersOf f) fun n =>
        ∃ p ∈ crew, p.name = n ∧ f ∈ p.contract.needs) ∧
      (∀ k, Lists (crew.catalog.atGranularity k) fun n =>
        ∃ p ∈ crew, p.name = n ∧ p.contract.granularity = k) ∧
      (Lists crew.catalog.granularities fun k => ∃ p ∈ crew, p.contract.granularity = k) ∧
      (∀ name, crew.find? name =
        calls.find? fun p => p.contract.check.toBool ∧ p.name = name) ∧
      ∀ p, ((roster.register p).1 = .ok () ↔ p.contract.Valid ∧ crew.find? p.name = none) ∧
        (p.contract.Valid → crew.find? p.name ≠ none →
          (roster.register p).1 = .error (.duplicate p.name)) ∧
        ((roster.register p).1 ≠ .ok () → (roster.register p).2 = roster) := by
  intro roster crew
  have offered : crew = Crew.offerAll ∅ calls := Roster.crew_registerEach _ calls
  have mirrors := Roster.registerEach_mirrors calls
  have inForce (name : String) : crew.find? name =
      calls.find? fun p => p.contract.check.toBool ∧ p.name = name := by
    rw [offered, Crew.find?_offerAll]
    exact Option.none_or
  refine ⟨offered, mirrors, fun f => crew.lists_index (f ∈ ·.adds),
    fun f => crew.lists_index (f ∈ ·.needs), fun k => crew.lists_index (·.granularity = k),
    crew.lists_granularities, inForce, fun p => ⟨roster.register_eq_ok p, fun hv taken => ?_,
    roster.register_ne_ok p⟩⟩
  rw [roster.register_eq, Crew.register_taken hv taken]

end Trellis
