/-
  Trellis.Proofs.Planner.Safety — an order that agrees with the links works.

  If every need is supported in a graph that contains the forced edges, then in any order the
  graph allows each unit finds what it needs, and the goal holds in the end (`feasible_unitsAt`,
  `required_unitsAt`): the supplier of a need has run by then, and whoever removes the fact ran
  before the supplier or is still to come.

  - `order_is_safe`: this is so of whatever the search for links finds, which is acyclic; so the
    search either says which need it could not support, or the order made of it is accepted.
-/
import Mathlib
import Trellis.Proofs.Graph.Linearization
import Trellis.Proofs.Places
import Trellis.Proofs.Planner.Constraints
import Trellis.Proofs.Planner.Replay

namespace Trellis.Planner.Selection

open Trellis.Graph

variable {s : Selection} {g : Graph} {nodes : List Nat}

/-- A graph that keeps the forced edges and supports every need. -/
structure Serves (g : Graph) (s : Selection) : Prop where
  size : g.size = s.units.length + 2
  forced : ∀ e ∈ s.forced.edges, e ∈ g.edges
  supported : ∀ need ∈ s.needs, Supported g need

theorem unitsAt_append (ns ms : List Nat) : s.unitsAt (ns ++ ms) = s.unitsAt ns ++ s.unitsAt ms :=
  List.filterMap_append

theorem mem_unitsAt {c : Contract} : c ∈ s.unitsAt nodes ↔ ∃ i ∈ nodes, s.units[i]? = some c :=
  List.mem_filterMap

theorem unitsAt_cons {i : Nat} {c : Contract} (hi : s.units[i]? = some c) (ns : List Nat) :
    s.unitsAt (i :: ns) = c :: s.unitsAt ns := by
  simp [unitsAt, hi]

/-- The nodes of all units, of the start and of the end make up all units. -/
theorem perm_unitsAt (h : nodes.Perm (List.range (s.units.length + 2))) :
    (s.unitsAt nodes).Perm s.units := by
  have := h.filterMap (s.units[·]?)
  rwa [filterMap_getElem?_range] at this

/-- Where the order of the units is cut, the order of the nodes can be cut too. -/
theorem split_unitsAt {before after : List Contract} {c : Contract}
    (h : s.unitsAt nodes = before ++ c :: after) :
    ∃ ns i ms, nodes = ns ++ i :: ms ∧ s.units[i]? = some c ∧ s.unitsAt ns = before := by
  obtain ⟨ns, ms, hnm, hns, hms⟩ := List.filterMap_eq_append_iff.1 h
  obtain ⟨skipped, i, ms, rfl, hskip, hi, -⟩ := List.filterMap_eq_cons_iff.1 hms
  refine ⟨ns ++ skipped, i, ms, by rw [hnm, List.append_assoc], hi, ?_⟩
  have hnone : s.unitsAt skipped = [] := List.filterMap_eq_nil_iff.2 hskip
  rw [unitsAt_append, hnone, List.append_nil]
  exact hns

/-- A remover that is apart from a link and comes before the consumer comes before the supplier. -/
theorem eq_or_lt_of_apart (hl : g.Linearizes nodes) {consumer supplier r : Nat}
    (ha : Apart g consumer supplier r) (hr : nodes.idxOf r < nodes.idxOf consumer) :
    r = supplier ∨ nodes.idxOf r < nodes.idxOf supplier := by
  rcases ha with e | e | hp | hp
  · subst e
    omega
  · exact .inl e
  · exact hl.eq_or_lt hp
  · rcases hl.eq_or_lt hp with e | hlt
    · subst e
      omega
    · omega

namespace Serves

theorem frame (hg : Serves g s) {e : Edge} (he : e ∈ s.frame) : e ∈ g.edges :=
  hg.forced e (mem_forced.2 (.inl he))

variable (hg : Serves g s) (hl : g.Linearizes nodes)

include hg hl

theorem start_before {c : Contract} {r : Nat} (hr : s.units[r]? = some c) :
    nodes.idxOf s.startNode < nodes.idxOf r :=
  hl.forward _ (hg.frame (mem_frame.2 (.inr ⟨r, lt_length_of_getElem? hr, .inl rfl⟩)))

theorem before_end {c : Contract} {r : Nat} (hr : s.units[r]? = some c) :
    nodes.idxOf r < nodes.idxOf s.endNode :=
  hl.forward _ (hg.frame (mem_frame.2 (.inr ⟨r, lt_length_of_getElem? hr, .inr rfl⟩)))

/-- What a node needs holds when its turn comes. -/
theorem holds {consumer : Nat} {f : Fact} (hneed : s.need consumer f ∈ s.needs)
    {before after : List Nat} (hn : nodes = before ++ consumer :: after) :
    f ∈ enact s.initial (s.unitsAt before) := by
  obtain ⟨x, hx, hedge, hapart⟩ := hg.supported _ hneed
  have hnodup : (before ++ consumer :: after).Nodup := hn ▸ hl.nodup
  have hxc : nodes.idxOf x < nodes.idxOf consumer := hl.forward _ hedge
  have earlier {r : Nat} (hr : r ∈ before) : nodes.idxOf r < nodes.idxOf consumer := by
    have := (mem_before_iff hnodup).1 hr
    rwa [← hn] at this
  have removed {r : Nat} {d : Contract} (hr : r ∈ before) (hd : s.units[r]? = some d)
      (hf : f ∈ d.removes) : r = x ∨ nodes.idxOf r < nodes.idxOf x :=
    eq_or_lt_of_apart hl (hapart r (mem_removers.2 ⟨d, hd, hf⟩)) (earlier hr)
  rw [mem_enact]
  rcases mem_suppliers.1 hx with ⟨rfl, hf⟩ | ⟨-, c, hc, hf⟩
  · refine .inl ⟨hf, fun d hd hrem => ?_⟩
    obtain ⟨r, hr, hd⟩ := mem_unitsAt.1 hd
    rcases removed hr hd hrem with rfl | hlt
    · rw [getElem?_startNode] at hd
      cases hd
    · have := hg.start_before hl hd
      omega
  · have hxb : x ∈ before := by
      rw [mem_before_iff hnodup, ← hn]
      exact hxc
    obtain ⟨b₁, b₂, rfl⟩ := List.append_of_mem hxb
    refine .inr ⟨s.unitsAt b₁, c, s.unitsAt b₂, ?_, hf, fun d hd hrem => ?_⟩
    · rw [unitsAt_append, unitsAt_cons hc]
    · obtain ⟨r, hr, hd⟩ := mem_unitsAt.1 hd
      rw [List.append_assoc, List.cons_append] at hn hnodup
      have hlt : nodes.idxOf x < nodes.idxOf r := by
        have := lt_of_mem_after hnodup (List.mem_append_left _ hr)
        rwa [← hn] at this
      rcases removed (by simp [hr]) hd hrem with rfl | hlt'
      · omega
      · omega

theorem feasible_unitsAt : Feasible s.initial (s.unitsAt nodes) := by
  intro before c after h f hf
  obtain ⟨ns, i, ms, hn, hi, rfl⟩ := split_unitsAt h
  exact hg.holds hl (mem_needs.2 (.inl ⟨i, c, f, hi, hf, rfl⟩)) hn

theorem required_unitsAt : ∀ f ∈ s.required, f ∈ enact s.initial (s.unitsAt nodes) := by
  intro f hf
  have hend : s.endNode ∈ nodes := hl.mem_iff.2 (by rw [hg.size]; exact Nat.lt_succ_self _)
  obtain ⟨before, after, hn⟩ := List.append_of_mem hend
  have hlast : s.unitsAt (s.endNode :: after) = [] := by
    refine List.filterMap_eq_nil_iff.2 fun r hr => ?_
    cases hc : s.units[r]? with
    | none => rfl
    | some c =>
      have hlt := hg.before_end hl hc
      rcases List.mem_cons.1 hr with rfl | hr
      · omega
      · have := lt_of_mem_after (hn ▸ hl.nodup) hr
        rw [← hn] at this
        omega
  have := hg.holds hl (mem_needs.2 (.inr ⟨f, hf, rfl⟩)) hn
  rwa [hn, unitsAt_append, hlast, List.append_nil]

theorem judge_unitsAt :
    s.judge (s.unitsAt nodes) = .done (s.unitsAt nodes) (enact s.initial (s.unitsAt nodes)) := by
  rw [judge, replay_eq_ok.2 ⟨hg.feasible_unitsAt hl, rfl⟩]
  dsimp only
  rw [FactSet.firstMissing_eq_none.2 (hg.required_unitsAt hl)]

end Serves

/-- The graph of the forced edges and those the search has added. -/
def constraints (s : Selection) (p : Precedence) : Graph := s.forced.addAll p.added

theorem searchLinks_sound {p : Precedence} (h : s.forced.Acyclic)
    (hp : (s.searchLinks s.forced).1 = some p) :
    (s.constraints p).Acyclic ∧ Serves (s.constraints p) s := by
  obtain ⟨hover, -, hsup⟩ := support_sound (g := s.forced) needs_inside _ _ _
    (Precedence.over_ofGraph h) hp
  refine ⟨hover.acyclic, ?_, fun e he => mem_edges_addAll.2 (.inl he), hsup⟩
  rw [constraints, size_addAll, size_forced]

/-- How an attempt ends: with a cycle of forced edges, with a need that no link supports, or
    with an order that works. -/
theorem attempt_cases (s : Selection) :
    (∃ cycle, s.forced.findCycle = some cycle ∧
      s.attempt = ⟨.error (.dependencyCycle ((s.unitsAt cycle).map Contract.name)), false⟩) ∨
    s.forced.Acyclic ∧
      ((∃ (need : Need) (e : Effort), s.searchLinks s.forced = (none, e) ∧
        s.attempt = ⟨.ok (.stuck need.fact (s.requester need.consumer)), e.exhausted⟩) ∨
      ∃ (p : Precedence) (e : Effort) (nodes : List Nat),
        s.searchLinks s.forced = (some p, e) ∧ Serves (s.constraints p) s ∧
        (s.constraints p).linearize = some nodes ∧
        s.attempt = ⟨.ok (.done (s.unitsAt nodes) (enact s.initial (s.unitsAt nodes))), e.exhausted⟩) := by
  unfold attempt
  dsimp only
  split
  · rename_i cycle hcycle
    exact .inl ⟨cycle, hcycle, rfl⟩
  · rename_i hnone
    have hacyclic := findCycle_eq_none.1 hnone
    refine .inr ⟨hacyclic, ?_⟩
    split
    · rename_i p e hsearch
      have hp : (s.searchLinks s.forced).1 = some p := by rw [hsearch]
      obtain ⟨hg, hserves⟩ := searchLinks_sound hacyclic hp
      obtain ⟨nodes, hn⟩ := hg.linearize
      have hjudge := hserves.judge_unitsAt (linearizes_of_linearize hn)
      refine .inr ⟨p, e, nodes, hsearch, hserves, hn, ?_⟩
      unfold constraints at hn
      rw [hn]
      dsimp only
      rw [hjudge]
    · rename_i e hsearch
      have hblamed : (s.searchLinks s.forced).2.unsupported.isSome = true :=
        support_blames (by rw [← searchLinks, hsearch])
      rw [hsearch] at hblamed
      obtain ⟨need, hneed⟩ := Option.isSome_iff_exists.1 hblamed
      refine .inl ⟨need, e, hsearch, ?_⟩
      rw [hneed]

/-- An attempt that finds no links is stuck on the need that was blamed. -/
theorem attempt_of_unsupported {need : Need} (hacyclic : s.forced.findCycle = none)
    (hnone : (s.searchLinks s.forced).1 = none)
    (hblamed : (s.searchLinks s.forced).2.unsupported = some need) :
    s.attempt.outcome = .ok (.stuck need.fact (s.requester need.consumer)) := by
  have hsearch : s.searchLinks s.forced = (none, (s.searchLinks s.forced).2) := by rw [← hnone]
  rw [attempt]
  simp only [hacyclic]
  rw [hsearch]
  simp only [hblamed]

/-- Whatever the search for links finds is acyclic, keeps the forced edges and makes every order
    that agrees with it work. So the order taken is accepted, a search that fails names a need
    it could not support, and no attempt ends in an inconsistency. -/
theorem order_is_safe (s : Selection) (h : s.forced.findCycle = none) :
    (∀ p, (s.searchLinks s.forced).1 = some p →
      (s.constraints p).Acyclic ∧
      (∀ e ∈ s.forced.edges, e ∈ (s.constraints p).edges) ∧
      (∀ nodes, (s.constraints p).Linearizes nodes →
        (s.unitsAt nodes).Perm s.units ∧ Feasible s.initial (s.unitsAt nodes) ∧
        ∀ f ∈ s.required, f ∈ enact s.initial (s.unitsAt nodes)) ∧
      ∃ nodes, (s.constraints p).linearize = some nodes ∧
        s.judge (s.unitsAt nodes) = .done (s.unitsAt nodes) (enact s.initial (s.unitsAt nodes))) ∧
    ((s.searchLinks s.forced).1 = none → (s.searchLinks s.forced).2.unsupported.isSome = true) ∧
    ∀ why, s.attempt.outcome ≠ .error (.inconsistent why) := by
  have hacyclic := findCycle_eq_none.1 h
  refine ⟨?_, support_blames, ?_⟩
  · intro p hp
    obtain ⟨hg, hserves⟩ := searchLinks_sound hacyclic hp
    refine ⟨hg, hserves.forced, fun nodes hl => ⟨?_, ?_, ?_⟩, ?_⟩
    · exact perm_unitsAt (hserves.size ▸ hl.complete)
    · exact hserves.feasible_unitsAt hl
    · exact hserves.required_unitsAt hl
    · obtain ⟨nodes, hn⟩ := hg.linearize
      exact ⟨nodes, hn, hserves.judge_unitsAt (linearizes_of_linearize hn)⟩
  · intro why
    rcases attempt_cases s with ⟨cycle, -, e⟩ | ⟨-, ⟨need, e', -, e⟩ | ⟨p, e', nodes, -, -, -, e⟩⟩
    all_goals rw [e]; simp

end Trellis.Planner.Selection

namespace Trellis.Planner

/-! ## An instance

`lower` removes what `count` needs, so `count` has to run before it, against the line-up. -/

def raw : Fact := .tag ⟨"raw", .method⟩

def lowered : Fact := .tag ⟨"lowered", .method⟩

def counted : Fact := .tag ⟨"counted", .method⟩

def lower : Contract where
  name := "lower"
  description := ""
  granularity := .type
  needs := ∅
  adds := Sorted.ofList [lowered]
  removes := Sorted.ofList [raw]
  features := ∅
  uses := ∅
  exclusive := true
  orderHint := 0

def count : Contract where
  name := "count"
  description := ""
  granularity := .package
  needs := Sorted.ofList [raw]
  adds := Sorted.ofList [counted]
  removes := ∅
  features := ∅
  uses := ∅
  exclusive := false
  orderHint := 1

/-- Adds again the fact that `lower` removes. -/
def restore : Contract where
  name := "restore"
  description := ""
  granularity := .method
  needs := ∅
  adds := Sorted.ofList [raw]
  removes := ∅
  features := ∅
  uses := ∅
  exclusive := false
  orderHint := 0

/-- The same, where a feature allows it. -/
def gatedRestore : Contract := { restore with features := Sorted.ofList ["restoring"] }

def lowerAndCount : Selection := ⟨[lower, count], Sorted.ofList [raw], Sorted.ofList [counted, lowered]⟩

theorem order_is_safe_lowerAndCount :
    lowerAndCount.forced.findCycle = none ∧
    ∃ p, (lowerAndCount.searchLinks lowerAndCount.forced).1 = some p ∧
      ∀ nodes, (lowerAndCount.constraints p).Linearizes nodes →
        Feasible lowerAndCount.initial (lowerAndCount.unitsAt nodes) := by
  have h : lowerAndCount.forced.findCycle = none := by cbv
  have found : (lowerAndCount.searchLinks lowerAndCount.forced).1.isSome = true := by cbv
  obtain ⟨p, hp⟩ := Option.isSome_iff_exists.1 found
  obtain ⟨-, -, works, -⟩ := (lowerAndCount.order_is_safe h).1 p hp
  exact ⟨h, p, hp, fun nodes hl => (works nodes hl).2.1⟩

end Trellis.Planner
