/-
  Trellis.Proofs.Arena.Navigation — going up and down the records, and to the targets of a step.

  Walks downwards follow lists of children and walks upwards follow parents. While the numbers last
  both come to their end, and they tell the same (`navigation_agrees`); adapters lead to nodes that
  share nothing and, the standard ones, leave nothing out (`targets_cover`).

  One node more than there are numbers, and neither is so: after a lap of the counter the walk from
  the root and the expansion to types go round for ever, and the walk upwards with them
  (`walks_after_lap`, `targets_after_lap`).
-/
import Trellis.Proofs.Arena.Calls
import Trellis.Proofs.Tree.Coverage

open Trellis.Tree (Call root)

namespace Trellis.Arena

variable {name : String} {cs : List Call}

/-- After any calls on a new arena, whether they succeeded or failed, while the numbers last: a live
    node is within another exactly if the walk from that one meets it; of the nodes of a kind whose
    subtrees it lies in the walk upwards finds the innermost, and nothing only where there are none;
    and from whatever number they start, the walks come to an end. -/
theorem navigation_agrees (name : String) (cs : List Call)
    (few : ((Tree.new name).calls cs).1.length < idCount) :
    ∃ issued a, (new name).calls cs = some (issued, a) ∧
      (∀ n m, a.contains n = true → a.contains m = true → ∃ found, a.descendants m = some found ∧
        a.isWithin n m = some (decide (n ∈ found))) ∧
      (∀ n k, a.contains n = true →
        (∀ x, a.ancestorOfKind n k = some (some x) ↔ a.Innermost n k x) ∧
        (a.ancestorOfKind n k = some none ↔
          ∀ y, a.kind? y = some k → ∃ found, a.descendants y = some found ∧ n ∉ found)) ∧
      ∀ n, (a.descendants n).isSome ∧ (∀ m, (a.isWithin n m).isSome) ∧
        ∀ k, (a.ancestorOfKind n k).isSome := by
  obtain ⟨h, hcalls⟩ := calls_new few
  refine ⟨_, _, hcalls, fun n m hn _ => ⟨_, h.arena_descendants m, ?_⟩, fun n k hn => ⟨fun x => ?_, ?_⟩,
    fun n => ⟨?_, fun m => ?_, fun k => ?_⟩⟩
  · rw [h.arena_isWithin, Option.some.injEq, Bool.eq_iff_iff, decide_eq_true_eq]
    exact h.isWithin_iff_mem_descendants (h.contains_arena n ▸ hn)
  · rw [h.arena_ancestorOfKind, Option.some.injEq, h.innermost_arena]
    exact h.ancestorOfKind_eq_some (h.contains_arena n ▸ hn)
  · rw [h.arena_ancestorOfKind, Option.some.injEq,
      h.ancestorOfKind_eq_none (h.contains_arena n ▸ hn)]
    simp only [h.kind?_arena, h.arena_descendants, Option.some.injEq, exists_eq_left']
  · rw [h.arena_descendants]
    rfl
  · rw [h.arena_isWithin]
    rfl
  · rw [h.arena_ancestorOfKind]
    rfl

/-- Of `grafting` the copy of type 2 is left, type 4 with method 5. -/
theorem navigation_agrees_grafting : ((Tree.new "app").calls grafting).1 = [1, 2, 3, 4, 5] ∧
    ∃ issued a, (new "app").calls grafting = some (issued, a) ∧ a.descendants 4 = some [4, 5] ∧
      a.isWithin 5 4 = some true ∧ a.Innermost 5 .type 4 ∧ (a.descendants 2).isSome := by
  have hissued : ((Tree.new "app").calls grafting).1 = [1, 2, 3, 4, 5] := by cbv
  have few : ((Tree.new "app").calls grafting).1.length < idCount := by
    rw [hissued]
    decide
  obtain ⟨h, hcalls⟩ := calls_new few
  have hbelow : ((Tree.new "app").calls grafting).2.arena.descendants 4 = some [4, 5] := by
    rw [h.arena_descendants]
    cbv
  have htype : ((Tree.new "app").calls grafting).2.arena.ancestorOfKind 5 .type = some (some 4) := by
    rw [h.arena_ancestorOfKind]
    cbv
  have hfour : ((Tree.new "app").calls grafting).2.arena.contains 4 = true := by
    rw [h.contains_arena]
    cbv
  have hfive : ((Tree.new "app").calls grafting).2.arena.contains 5 = true := by
    rw [h.contains_arena]
    cbv
  obtain ⟨_, a, hsame, hwithin, hkinds, hends⟩ := navigation_agrees "app" grafting few
  cases hcalls.symm.trans hsame
  obtain ⟨found, hfound, hin⟩ := hwithin 5 4 hfive hfour
  cases hbelow.symm.trans hfound
  exact ⟨hissued, _, _, hcalls, hbelow, hin, ((hkinds 5 .type hfive).1 4).1 htype, (hends 2).1⟩

/-! ## Walks that do not end

Where the package is its own parent and its own child, each turn of a walk leads back to where it
started. -/

theorem descendants_lapped : lapped.descendants root = none := by
  refine loop_eq_none (I := fun s => s.1 = [root]) rfl fun s hs => ?_
  obtain ⟨stack, found⟩ := s
  subst hs
  exact ⟨_, rfl, rfl⟩

theorem climb_lapped {wanted : NodeId → Bool} (hroot : wanted root = false) :
    loop (lapped.climbTurn wanted) (some root) = none := by
  refine loop_eq_none (I := (· = some root)) rfl fun s hs => ?_
  subst hs
  exact ⟨some root, if_neg (Bool.eq_false_iff.1 hroot), rfl⟩

theorem locate_lapped {k : Kind} (source : Kind) (hk : Kind.package ≠ k) :
    Adapter.locate ⟨source, k⟩ lapped root = none := by
  have hroot : lapped.kind? root ≠ some k := fun h => hk (Option.some.inj h)
  refine loop_eq_none (I := fun s => s.1 = [root]) rfl fun s hs => ?_
  obtain ⟨stack, found⟩ := s
  subst hs
  exact ⟨([root], found), if_neg hroot, rfl⟩

/-- After a lap of the counter the only live node is its own parent and its own child, and no walk from
    it comes to an end. -/
theorem walks_after_lap : ∃ issued a, (new "app").calls lap = some (issued, a) ∧
    a.contains root = true ∧ a.parent? root = some root ∧ a.descendants root = none ∧
    a.isWithin root 1 = none ∧ a.ancestorOfKind root .program = none := by
  refine ⟨_, _, calls_lap "app", rfl, rfl, descendants_lapped, ?_, climb_lapped rfl⟩
  rw [isWithin, climb_lapped rfl, Option.map_none]

/-! ## Targets -/

/-- After any calls on a new arena, while the numbers last: wherever adapters lead to a granularity, a
    step of it runs on nodes of that kind, in pre-order and each once, none of which lies within
    another; and with the standard adapters each node of an enclosed kind lies within exactly one of
    them. -/
theorem targets_cover (name : String) (cs : List Call) (k : Kind)
    (few : ((Tree.new name).calls cs).1.length < idCount) :
    ∃ issued a, (new name).calls cs = some (issued, a) ∧
      (∀ (as : AdapterSet) path, as.Leads .program path k → ∃ targets all,
        as.locateRoot a k = some (.ok targets) ∧ a.nodesOfKind k = some all ∧ targets.Sublist all ∧
        targets.Nodup ∧
        targets.Pairwise fun n m => a.isWithin n m = some false ∧ a.isWithin m n = some false) ∧
      ∃ targets, AdapterSet.standard.locateRoot a k = some (.ok targets) ∧
        ∀ n s, a.kind? n = some s → k.encloses s = true →
          ∃! m, m ∈ targets ∧ a.isWithin n m = some true := by
  obtain ⟨h, hcalls⟩ := calls_new few
  refine ⟨_, _, hcalls, fun as path hpath => ?_, ?_⟩
  · obtain ⟨targets, hexpand, htargets⟩ := h.targets_expandRoot hpath
    have hnodup : targets.Nodup := List.Nodup.sublist htargets.listed h.distinct
    refine ⟨targets, _, (h.arena_locateRoot _ k).trans (congrArg some hexpand), h.arena_descendantsOfKind root k,
      h.sublist_nodesOfKind htargets, hnodup, ?_⟩
    simp only [h.arena_isWithin, Option.some.injEq]
    exact h.disjoint_targets htargets
  · obtain ⟨targets, hexpand, hcover⟩ := h.standard_covers k
    refine ⟨targets, (h.arena_locateRoot _ k).trans (congrArg some hexpand), ?_⟩
    simp only [h.kind?_arena, h.arena_isWithin, Option.some.injEq]
    exact hcover

/-- Adapters that pass over packages and methods, and lead back to the program. -/
def shortcuts : AdapterSet :=
  Sorted.ofList [⟨.program, .type⟩, ⟨.type, .statement⟩, ⟨.statement, .program⟩, ⟨.statement, .statement⟩]

/-- Type 2 holds type 3 and method 4, type 3 holds method 5; statement 7 stands in 6, under 4, and
    statement 8 under 5. -/
def nestedCalls : List Call :=
  [.add 0 .package "core", .add 1 .type "A", .add 2 .type "B", .add 2 .method "f", .add 3 .method "g",
    .add 4 .statement "s", .add 6 .statement "t", .add 5 .statement "u"]

theorem targets_cover_shortcuts : ((Tree.new "app").calls nestedCalls).1.length = 8 ∧
    shortcuts.Leads .program [⟨.program, .type⟩, ⟨.type, .statement⟩] .statement ∧
    ∃ issued a, (new "app").calls nestedCalls = some (issued, a) ∧
      shortcuts.locateRoot a .statement = some (.ok [8, 6]) ∧ a.isWithin 8 6 = some false ∧
      AdapterSet.standard.locateRoot a .type = some (.ok [2]) ∧ a.kind? 7 = some .statement ∧
      ∃! m, m ∈ [2] ∧ a.isWithin 7 m = some true := by
  have hlength : ((Tree.new "app").calls nestedCalls).1.length = 8 := by cbv
  have few : ((Tree.new "app").calls nestedCalls).1.length < idCount := by
    rw [hlength]
    decide
  have hleads : shortcuts.Leads .program [⟨.program, .type⟩, ⟨.type, .statement⟩] .statement := by
    simp [AdapterSet.Leads, shortcuts, OrdSet.mem_ofList]
  obtain ⟨h, hcalls⟩ := calls_new few
  have hexpand : shortcuts.locateRoot ((Tree.new "app").calls nestedCalls).2.arena .statement =
      some (.ok [8, 6]) := by
    rw [h.arena_locateRoot]
    cbv
  have htypes : AdapterSet.standard.locateRoot ((Tree.new "app").calls nestedCalls).2.arena .type =
      some (.ok [2]) := by
    rw [h.arena_locateRoot]
    cbv
  have hseven : ((Tree.new "app").calls nestedCalls).2.arena.kind? 7 = some .statement := by
    rw [h.kind?_arena]
    cbv
  obtain ⟨_, a, hstatements, hall, -⟩ := targets_cover "app" nestedCalls .statement few
  obtain ⟨_, _, htypesCalls, -, tops, htops, hcover⟩ := targets_cover "app" nestedCalls .type few
  cases hcalls.symm.trans hstatements
  cases hcalls.symm.trans htypesCalls
  obtain ⟨targets, _, htargets, -, -, -, hpair⟩ := hall shortcuts _ hleads
  cases hexpand.symm.trans htargets
  cases htypes.symm.trans htops
  refine ⟨hlength, hleads, _, _, hcalls, hexpand, ?_, htypes, hseven, hcover 7 .statement hseven rfl⟩
  exact ((List.pairwise_cons.1 hpair).1 6 List.mem_cons_self).1

/-- After a lap of the counter a step on types has no targets: looking for them does not end. -/
theorem targets_after_lap : ∃ issued a, (new "app").calls lap = some (issued, a) ∧
    AdapterSet.standard.locateRoot a .type = none := by
  have hchain : AdapterSet.standard.chain .type = .ok [⟨.program, .package⟩, ⟨.package, .type⟩] := by cbv
  have hpackages : Adapter.locate ⟨.program, .package⟩ lapped root = some [root] := by
    have hturn : lapped.outermostTurn .package ([root], []) = .inr ([], [root]) := rfl
    exact (loop_turn hturn).trans (loop_answer rfl)
  refine ⟨_, _, calls_lap "app", ?_⟩
  rw [AdapterSet.locateRoot, hchain]
  simp [AdapterSet.follow, hpackages, locate_lapped]

end Trellis.Arena
