/-
  Trellis.Proofs.Tree.Retracing — the chain to a kind is a shortest one, and the one that walking
  back finds.

  A search need not keep routes: it may note for each kind it sees the adapter it came by, stop at
  the kind that is wanted, and then walk back from there to the program (`Seeks`, `Retraces`). At
  every moment such a scan has seen the kinds to which there are routes, and walking back from one
  of them goes along its route (`Scan.Follows`); so the walk ends, and with the same answer.

  Proved:
  - whatever set of adapters it is searched for in, a kind has a chain exactly if adapters lead
    there, and then a shortest one that passes no kind twice; else the kind is reported
    (`shortest_chains`);
  - the scan ends, and walking back over it ends with that chain or that report (`seeks_chain`,
    `Retraces.unique`).
-/
import Mathlib.Logic.Relation
import Trellis.Proofs.Tree.Routes
import Trellis.Proofs.Planner.Concerns
import Trellis.Proofs.Store

namespace Trellis.AdapterSet

variable {as : AdapterSet} {queue found : List Route} {r : Route} {source k wanted : Kind}
  {a : Adapter} {chain : List Adapter}

/-! ## Kinds that adapters lead to -/

/-- There is an adapter from the one kind to the other. -/
def Joins (as : AdapterSet) (source target : Kind) : Prop := (⟨source, target⟩ : Adapter) ∈ as

theorem exists_leads_iff :
    (∃ path, as.Leads source path k) ↔ Relation.ReflTransGen as.Joins source k := by
  constructor
  · rintro ⟨path, h⟩
    induction path generalizing source with
    | nil => exact h ▸ .refl
    | cons a path ih =>
      obtain ⟨ha, rfl, hpath⟩ := h
      exact .head ha (ih hpath)
  · intro h
    induction h with
    | refl => exact ⟨[], rfl⟩
    | tail hreach hjoin ih =>
      obtain ⟨path, hpath⟩ := ih
      exact ⟨path ++ [_], Leads.concat (a := ⟨_, _⟩) hpath hjoin⟩

/-- The chain leads from the program to the kind, passes no kind twice, and no path there has fewer
    adapters. -/
structure Shortest (as : AdapterSet) (chain : List Adapter) (k : Kind) : Prop where
  leads : as.Leads .program chain k
  once : (passes chain).Nodup
  least : ∀ path, as.Leads .program path k → chain.length ≤ path.length

theorem shortest_of_chain (h : as.chain k = .ok chain) : as.Shortest chain k where
  leads := leads_of_mem_routes (chain_eq_ok.1 h)
  once := (as.simple_routes.passed _ (chain_eq_ok.1 h)).1
  least path hpath := by
    obtain ⟨chain', hchain', -, hlen⟩ := chain_of_leads hpath
    cases h.symm.trans hchain'
    exact hlen

theorem exists_chain_iff : (∃ chain, as.chain k = .ok chain) ↔ ∃ path, as.Leads .program path k := by
  constructor
  · rintro ⟨chain, h⟩
    exact ⟨chain, (shortest_of_chain h).leads⟩
  · rintro ⟨path, h⟩
    obtain ⟨chain, hchain, -⟩ := chain_of_leads h
    exact ⟨chain, hchain⟩

theorem chain_eq_missing (h : ¬ ∃ chain, as.chain k = .ok chain) :
    as.chain k = .error (.missingAdapter k) := by
  cases hchain : as.chain k with
  | ok chain => exact absurd ⟨chain, hchain⟩ h
  | error e => rw [chain_error hchain]

/-! ## Seeking a kind, and walking back from it -/

/-- A search under way: the kinds still to go on from, those seen, and the adapter each of these
    was first come to by. -/
structure Scan where
  queue : List Kind
  seen : OrdSet Kind
  previous : OrdMap Kind Adapter

namespace Scan

def start : Scan := ⟨[.program], Sorted.ofList [.program], ∅⟩

/-- An adapter from the kind at hand to one not seen puts that one in the queue. -/
def look (current : Kind) (s : Scan) (a : Adapter) : Scan :=
  if a.source = current ∧ a.target ∉ s.seen then
    ⟨s.queue ++ [a.target], s.seen.insert a.target, s.previous.set a.target a⟩
  else s

end Scan

/-- Going on from one kind after the other ends with the second scan, at the kind that is wanted
    if it comes up. -/
inductive Seeks (as : AdapterSet) (wanted : Kind) : Scan → Scan → Prop
  | exhausted {s : Scan} : s.queue = [] → Seeks as wanted s s
  | arrived {s : Scan} : s.queue.head? = some wanted → Seeks as wanted s s
  | onward {s s' : Scan} {current : Kind} {rest : List Kind} : s.queue = current :: rest →
      current ≠ wanted →
      Seeks as wanted (as.toList.foldl (Scan.look current) { s with queue := rest }) s' →
      Seeks as wanted s s'

/-- Walking back from a kind to the program ends with the chain, or where no adapter was noted. -/
inductive Retraces (previous : OrdMap Kind Adapter) (wanted : Kind) :
    Kind → Except Error (List Adapter) → Prop
  | home : Retraces previous wanted .program (.ok [])
  | lost {k : Kind} : k ≠ .program → previous.get? k = none →
      Retraces previous wanted k (.error (.missingAdapter wanted))
  | back {k : Kind} {a : Adapter} {result : Except Error (List Adapter)} : k ≠ .program →
      previous.get? k = some a → Retraces previous wanted a.source result →
      Retraces previous wanted k (result.map (· ++ [a]))

theorem Seeks.unique {s s₁ s₂ : Scan} (h₁ : as.Seeks wanted s s₁) (h₂ : as.Seeks wanted s s₂) :
    s₁ = s₂ := by
  induction h₁ with
  | exhausted hq =>
    cases h₂ with
    | exhausted => rfl
    | arrived => rfl
    | onward hq' => simp [hq] at hq'
  | arrived hq =>
    cases h₂ with
    | exhausted => rfl
    | arrived => rfl
    | onward hq' hne =>
      rw [hq'] at hq
      exact absurd (Option.some.inj hq) hne
  | onward hq hne _ ih =>
    cases h₂ with
    | exhausted hq' => simp [hq] at hq'
    | arrived hq' =>
      rw [hq] at hq'
      exact absurd (Option.some.inj hq') hne
    | onward hq' _ h =>
      cases hq.symm.trans hq'
      exact ih h

theorem Retraces.unique {previous : OrdMap Kind Adapter} {result₁ result₂ : Except Error (List Adapter)}
    (h₁ : Retraces previous wanted k result₁) (h₂ : Retraces previous wanted k result₂) :
    result₁ = result₂ := by
  induction h₁ generalizing result₂ with
  | home =>
    cases h₂ with
    | home => rfl
    | lost hne => exact absurd rfl hne
    | back hne => exact absurd rfl hne
  | lost hne hnone =>
    cases h₂ with
    | home => exact absurd rfl hne
    | lost => rfl
    | back _ hsome => cases hnone.symm.trans hsome
  | back hne hsome _ ih =>
    cases h₂ with
    | home => exact absurd rfl hne
    | lost _ hnone => cases hnone.symm.trans hsome
    | back _ hsome' h =>
      cases hsome.symm.trans hsome'
      rw [ih h]

/-- Noting an adapter for a kind that has none leaves the ways back that there are. -/
theorem Retraces.set {previous : OrdMap Kind Adapter} {t : Kind}
    (h : Retraces previous wanted k (.ok chain)) (ht : previous.get? t = none) (a : Adapter) :
    Retraces (previous.set t a) wanted k (.ok chain) := by
  generalize hresult : (.ok chain : Except Error (List Adapter)) = result at h
  induction h generalizing chain with
  | home => exact .home
  | lost => cases hresult
  | @back k b result hne hsome _ ih =>
    cases result with
    | error e => cases hresult
    | ok way =>
      have hk : t ≠ k := by
        rintro rfl
        cases ht.symm.trans hsome
      exact .back hne (by rw [OrdMap.get?_set, if_neg hk, hsome]) (ih rfl)

/-! ## The scan follows the search for routes -/

/-- The scan has seen the kinds to which there are routes, and walking back goes along these. -/
structure Scan.Follows (s : Scan) (queue found : List Route) : Prop where
  queued : s.queue = queue.map Route.kind
  seen : ∀ k, k ∈ s.seen ↔ k ∈ found.map Route.kind
  traced : ∀ r ∈ found, ∀ wanted, Retraces s.previous wanted r.kind (.ok r.chain)
  blank : ∀ k ∉ s.seen, s.previous.get? k = none
  start : Kind.program ∈ s.seen

namespace Scan.Follows

variable {s : Scan}

theorem of_start : Scan.Follows .start [⟨.program, []⟩] [⟨.program, []⟩] where
  queued := rfl
  seen k := by
    rw [Scan.start, OrdSet.mem_ofList]
    exact Iff.rfl
  traced r hr wanted := by
    rw [List.mem_singleton.1 hr]
    exact .home
  blank k _ := rfl
  start := OrdSet.mem_ofList.2 List.mem_cons_self

theorem mem_seen_iff (h : s.Follows queue found) (k : Kind) :
    k ∉ s.seen ↔ found.all (·.kind ≠ k) = true := by
  rw [h.seen]
  simp

/-- Coming to a kind not seen before is finding a route to it. -/
theorem arrive (h : s.Follows queue found) (hr : r ∈ found) (hsource : a.source = r.kind)
    (hnew : a.target ∉ s.seen) :
    Scan.Follows ⟨s.queue ++ [a.target], s.seen.insert a.target, s.previous.set a.target a⟩
      (queue ++ [⟨a.target, r.chain ++ [a]⟩]) (found ++ [⟨a.target, r.chain ++ [a]⟩]) where
  queued := by simp [h.queued]
  seen k := by
    rw [OrdSet.mem_insert, h.seen, List.map_append, List.mem_append, Or.comm]
    simp
  traced e he wanted := by
    have hkept : ∀ e ∈ found, Retraces (s.previous.set a.target a) wanted e.kind (.ok e.chain) :=
      fun e he => (h.traced e he wanted).set (h.blank _ hnew) a
    rcases List.mem_append.1 he with he | he
    · exact hkept e he
    · rw [List.mem_singleton.1 he]
      have hne : a.target ≠ .program := fun heq => hnew (heq ▸ h.start)
      have hnoted : (s.previous.set a.target a).get? a.target = some a := by
        rw [OrdMap.get?_set, if_pos rfl]
      have hsofar : Retraces (s.previous.set a.target a) wanted a.source (.ok r.chain) :=
        hsource ▸ hkept r hr
      exact .back hne hnoted hsofar
  blank k hk := by
    rw [OrdSet.mem_insert, not_or] at hk
    rw [OrdMap.get?_set, if_neg (Ne.symm hk.1)]
    exact h.blank k hk.2
  start := OrdSet.mem_insert.2 (.inr h.start)

/-- Looking at one adapter after the other finds what looking at all of them at once does: those
    that lead on from one kind lead to different ones. -/
theorem look (h : s.Follows queue found) (hr : r ∈ found) {l : List Adapter} (hl : l.Nodup) :
    let new := (l.filter fun a => a.source = r.kind && found.all (·.kind ≠ a.target)).map fun a =>
      (⟨a.target, r.chain ++ [a]⟩ : Route)
    (l.foldl (Scan.look r.kind) s).Follows (queue ++ new) (found ++ new) := by
  induction l generalizing s queue found with
  | nil => simpa using h
  | cons a l ih =>
    obtain ⟨ha, hl⟩ := List.nodup_cons.1 hl
    rw [List.foldl_cons, Scan.look]
    by_cases hlook : a.source = r.kind ∧ a.target ∉ s.seen
    · have hrest : ∀ b ∈ l,
          (b.source = r.kind &&
              (found ++ [(⟨a.target, r.chain ++ [a]⟩ : Route)]).all (·.kind ≠ b.target)) =
            (b.source = r.kind && found.all (·.kind ≠ b.target)) := by
        intro b hb
        by_cases hsource : b.source = r.kind
        · have htarget : a.target ≠ b.target := fun htarget =>
            ha (eq_of_ends (hlook.1.trans hsource.symm) htarget ▸ hb)
          simp [htarget]
        · simp [hsource]
      have hfollows := ih (h.arrive hr hlook.1 hlook.2) (List.mem_append_left _ hr) hl
      rw [List.filter_congr hrest] at hfollows
      rw [if_pos hlook, List.filter_cons_of_pos, List.map_cons]
      · simpa using hfollows
      · rw [← (h.mem_seen_iff _).1 hlook.2]
        simp [hlook.1]
    · rw [if_neg hlook, List.filter_cons_of_neg]
      · exact ih h hr hl
      · rw [Bool.and_eq_true, decide_eq_true_eq, ← h.mem_seen_iff]
        exact hlook

theorem retraces_found (h : s.Follows queue found) (hr : r ∈ found) (hroute : r ∈ as.routes) :
    Retraces s.previous r.kind r.kind (as.chain r.kind) := by
  rw [chain_eq_ok.2 hroute]
  exact h.traced r hr _

/-- Walking back from a kind that has no route is lost at once: the kind was never seen. -/
theorem retraces_missing (h : s.Follows queue found) (hroutes : found = as.routes)
    (hk : k ∉ found.map Route.kind) : Retraces s.previous k k (as.chain k) := by
  have hnone : ¬ ∃ chain, as.chain k = .ok chain := by
    rintro ⟨chain, hchain⟩
    exact hk (List.mem_map.2 ⟨_, hroutes ▸ chain_eq_ok.1 hchain, rfl⟩)
  have hseen : k ∉ s.seen := fun hseen => hk ((h.seen k).1 hseen)
  rw [chain_eq_missing hnone]
  exact .lost (fun heq => hseen (heq ▸ h.start)) (h.blank k hseen)

/-- The scan ends, and walking back over it goes along the route to the kind, if there is one. -/
theorem seeks (h : s.Follows queue found) (hlayered : as.Layered queue found)
    (hroutes : as.explore queue found = as.routes) (k : Kind) :
    ∃ s', as.Seeks k s s' ∧ Retraces s'.previous k k (as.chain k) := by
  fun_induction as.explore queue found generalizing s with
  | case1 found =>
    refine ⟨s, .exhausted h.queued, ?_⟩
    by_cases hk : k ∈ found.map Route.kind
    · obtain ⟨r, hr, rfl⟩ := List.mem_map.1 hk
      exact h.retraces_found hr (hroutes ▸ hr)
    · exact h.retraces_missing hroutes hk
  | case2 r queue found new =>
    rename_i ih
    have hr : r ∈ found := hlayered.queued List.mem_cons_self
    by_cases hk : r.kind = k
    · -- The scan stops here, where the search for routes goes on; what it found is kept.
      have hroute : r ∈ as.routes := by
        rw [← hroutes]
        exact hlayered.extend.explore.1 (List.mem_append_left _ hr)
      cases hk
      exact ⟨s, .arrived (by rw [h.queued]; rfl), h.retraces_found hr hroute⟩
    · have hrest : Scan.Follows { s with queue := queue.map Route.kind } queue found :=
        ⟨rfl, h.seen, h.traced, h.blank, h.start⟩
      obtain ⟨s', hseeks, hback⟩ := ih (hrest.look hr (OrdSet.nodup as)) hlayered.extend hroutes
      exact ⟨s', .onward h.queued hk hseeks, hback⟩

end Scan.Follows

/-- Seeking a kind from the program ends, and walking back from it ends with what the kind has for
    a chain. -/
theorem seeks_chain (as : AdapterSet) (k : Kind) :
    ∃ s, as.Seeks k .start s ∧ Retraces s.previous k k (as.chain k) :=
  Scan.Follows.of_start.seeks as.layered_start rfl k

/-! ## Chains are shortest paths -/

/-- Whatever adapters were inserted, a kind has a chain exactly if they lead to it from the program.
    The chain is then a path there that passes no kind twice, with no path shorter; otherwise the
    kind is reported missing. It is what every scan for the kind, walked back, comes to. -/
theorem shortest_chains (inserted : List Adapter) (k : Kind) :
    let as : AdapterSet := Sorted.ofList inserted
    let reached := Relation.ReflTransGen (fun a b => (⟨a, b⟩ : Adapter) ∈ inserted) .program k
    ((∃ chain, as.chain k = .ok chain) ↔ reached) ∧
      (¬ reached → as.chain k = .error (.missingAdapter k)) ∧
      as.chain .program = .ok [] ∧
      (∀ chain, as.chain k = .ok chain → as.Shortest chain k) ∧
      (∃ s, as.Seeks k .start s) ∧
      ∀ s, as.Seeks k .start s →
        ∀ result, Retraces s.previous k k result ↔ result = as.chain k := by
  intro as reached
  have hjoins : as.Joins = fun a b => (⟨a, b⟩ : Adapter) ∈ inserted := by
    funext a b
    exact propext OrdSet.mem_ofList
  have hiff : (∃ chain, as.chain k = .ok chain) ↔ reached := by
    rw [exists_chain_iff, exists_leads_iff, hjoins]
  obtain ⟨s, hseeks, hback⟩ := seeks_chain as k
  refine ⟨hiff, fun hout => chain_eq_missing fun hchain => hout (hiff.1 hchain),
    chain_eq_ok.2 start_mem_routes, fun chain => shortest_of_chain, ⟨s, hseeks⟩, ?_⟩
  intro s' hseeks' result
  cases hseeks.unique hseeks'
  constructor
  · exact fun h => h.unique hback
  · rintro rfl
    exact hback

/-- The way over the package is as good as found when the shorter one comes up. -/
example :
    AdapterSet.chain (Sorted.ofList [⟨.program, .package⟩, ⟨.package, .type⟩, ⟨.type, .program⟩,
      ⟨.program, .type⟩, ⟨.type, .type⟩]) .type = .ok [⟨.program, .type⟩] := by cbv

end Trellis.AdapterSet
