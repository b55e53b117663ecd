/-
  Trellis.Proofs.Arena.Calls — what holds of the records after any calls.

  Calls are made with any numbers, of live nodes, of dead ones and of none at all. While the numbers
  last they do to the records what they do to the nested tree (`arena_calls`), and each of them comes
  to its end. So parents and child lists, kept in step by hand, agree (`calls_cohere`).

  The numbers do not last for ever. When all have been used the counter stands at 0 again, and the
  next node takes the place of the root: it is its own parent and its own child (`calls_lap`).
-/
import Trellis.Proofs.Arena.Walks
import Trellis.Proofs.Tree.Coverage
import Trellis.Proofs.Tree.Undo

open Trellis.Tree (Call root)

namespace Trellis

namespace Arena

/-- The numbers that a call hands out, and the arena after it. -/
noncomputable def call (a : Arena) : Call → Option (List NodeId × Arena)
  | .add parent kind name =>
    match a.add parent kind name with
    | (.ok n, a) => some ([n], a)
    | (.error _, a) => some ([], a)
  | .remove n => do
    let (_, a) ← a.remove n
    return ([], a)
  | .clone source parent => do
    match ← a.clone source parent with
    | (.ok pairs, a) => return (pairs.map Prod.snd, a)
    | (.error _, a) => return ([], a)
  | .rename n name => some ([], (a.rename n name).2)

/-- The numbers handed out by several calls, in order, and the arena after them. -/
noncomputable def calls (a : Arena) : List Call → Option (List NodeId × Arena)
  | [] => some ([], a)
  | c :: cs => do
    let (issued, a) ← a.call c
    let (later, a) ← calls a cs
    return (issued ++ later, a)

/-- Parents, child lists and kinds as they should be. -/
structure Coherent (a : Arena) : Prop where
  root_live : a.contains root = true
  /-- The root is the only node without a parent. -/
  orphan : ∀ n, a.contains n = true → (a.parent? n = none ↔ n = root)
  /-- It is the only program. -/
  program : ∀ n, a.kind? n = some .program ↔ n = root
  /-- A parent is live and lists its child exactly once. -/
  listed : ∀ n m, a.parent? n = some m → a.contains m = true ∧ (a.children m).count n = 1
  /-- Whoever is listed is live and names the node as its parent. -/
  named : ∀ m n, n ∈ a.children m → a.contains n = true ∧ a.parent? n = some m
  nested : ∀ n m, a.parent? n = some m →
    ∃ child parent, a.kind? n = some child ∧ a.kind? m = some parent ∧ parent.canContain child = true
  acyclic : ∀ n, ¬ Relation.TransGen (fun child parent => a.parent? child = some parent) n n
  /-- The walk from the root meets every live node, and none twice. -/
  complete : ∃ found, a.descendants root = some found ∧ found.Nodup ∧
    ∀ n, n ∈ found ↔ a.contains n = true
  /-- Every walk is in pre-order: a node, then what its children lead to, one after the other. -/
  preorder : ∀ n, a.contains n = true → ∃ below, (a.children n).mapM a.descendants = some below ∧
    a.descendants n = some (n :: below.flatten)
  encloses : ∀ x found, a.descendants x = some found → ∀ d ∈ found,
    ∃ upper lower, a.kind? x = some upper ∧ a.kind? d = some lower ∧ upper.encloses lower = true

/-- Of the nodes of kind `k` that have `n` in their subtree, `x` is the one that lies in the subtrees of
    all. -/
structure Innermost (a : Arena) (n : NodeId) (k : Kind) (x : NodeId) : Prop where
  kind : a.kind? x = some k
  above : ∃ found, a.descendants x = some found ∧ n ∈ found
  innermost : ∀ y, a.kind? y = some k → ∀ found, a.descendants y = some found → n ∈ found → x ∈ found

theorem calls_append (a : Arena) (cs ds : List Call) : a.calls (cs ++ ds) = do
    let (issued, a) ← a.calls cs
    let (later, a) ← a.calls ds
    return (issued ++ later, a) := by
  induction cs generalizing a with
  | nil =>
    simp only [List.nil_append, calls, Option.bind_eq_bind, Option.bind_some]
    cases a.calls ds with
    | none => rfl
    | some r => rfl
  | cons c cs ih =>
    rw [List.cons_append, calls, calls]
    cases hc : a.call c with
    | none => rfl
    | some r =>
      simp only [Option.bind_eq_bind, Option.bind_some, ih]
      cases r.2.calls cs with
      | none => rfl
      | some r' =>
        simp only [Option.bind_some, Option.pure_def]
        cases r'.2.calls ds with
        | none => rfl
        | some r'' => simp only [Option.bind_some, List.append_assoc]

end Arena

namespace Tree.WellFormed

variable {t : Tree} (h : t.WellFormed)

include h

/-! ## Calls on the records of a tree -/

theorem arena_call {c : Call} (few : (t.call c).2.next ≤ idCount) :
    t.arena.call c = some ((t.call c).1, (t.call c).2.arena) := by
  cases c with
  | add parent kind name =>
    have hafter : (t.call (.add parent kind name)).2 = t.after (t.add parent kind name) := by
      rw [Tree.call]
      cases t.add parent kind name with
      | ok added => rfl
      | error e => rfl
    rw [Arena.call, h.arena_add (hafter ▸ few), Tree.call]
    cases t.add parent kind name with
    | ok added => rfl
    | error e => rfl
  | remove n =>
    rw [Arena.call, Tree.call, h.arena_remove]
    cases t.remove n with
    | ok removed => rfl
    | error e => rfl
  | clone source parent =>
    have hafter : (t.call (.clone source parent)).2 = t.after (t.clone source parent) := by
      rw [Tree.call]
      cases t.clone source parent with
      | ok cloned => rfl
      | error e => rfl
    rw [Arena.call, h.arena_clone (hafter ▸ few), Tree.call]
    cases t.clone source parent with
    | ok cloned => rfl
    | error e => rfl
  | rename n name =>
    rw [Arena.call, Tree.call, h.arena_rename]
    cases t.rename n name with
    | ok u => rfl
    | error e => rfl

/-- While the numbers last, calls do to the records what they do to the tree. -/
theorem arena_calls {cs : List Call} (few : (t.calls cs).2.next ≤ idCount) :
    t.arena.calls cs = some ((t.calls cs).1, (t.calls cs).2.arena) := by
  induction cs generalizing t with
  | nil => rfl
  | cons c cs ih =>
    obtain ⟨hu, -, -⟩ := h.call c
    obtain ⟨-, -, hnext⟩ := hu.calls cs
    have few : ((t.call c).2.calls cs).2.next ≤ idCount := few
    have few' : (t.call c).2.next ≤ idCount := (hnext ▸ Nat.le_add_right _ _).trans few
    rw [Arena.calls, h.arena_call few']
    simp only [Option.bind_eq_bind, Option.bind_some, ih hu few]
    rfl

/-! ## What is read -/

theorem mapM_descendants (ns : List NodeId) :
    ns.mapM t.arena.descendants = some (ns.map t.descendants) := by
  rw [funext h.arena_descendants]
  exact List.mapM_pure

theorem coherent_arena : t.arena.Coherent where
  root_live := (h.contains_arena root).trans h.coherent.root_live
  orphan n hn := by
    rw [h.contains_arena] at hn
    rw [h.parent?_arena]
    exact h.coherent.orphan n hn
  program n := by
    rw [h.kind?_arena]
    exact h.coherent.program n
  listed n m hn := by
    rw [h.parent?_arena] at hn
    rw [h.contains_arena, h.children_arena]
    exact h.coherent.listed n m hn
  named m n hn := by
    rw [h.children_arena] at hn
    rw [h.contains_arena, h.parent?_arena]
    exact h.coherent.named m n hn
  nested n m hn := by
    rw [h.parent?_arena] at hn
    rw [h.kind?_arena, h.kind?_arena]
    exact h.coherent.nested n m hn
  acyclic := by
    rw [funext h.parent?_arena]
    exact h.coherent.acyclic
  complete := by
    refine ⟨_, h.arena_descendants root, h.coherent.complete.1, fun n => ?_⟩
    rw [h.contains_arena]
    exact h.coherent.complete.2 n
  preorder n hn := by
    rw [h.contains_arena] at hn
    rw [h.children_arena, h.arena_descendants, h.coherent.preorder n hn]
    exact ⟨_, h.mapM_descendants _, rfl⟩
  encloses x found hfound d hd := by
    rw [h.arena_descendants, Option.some.injEq] at hfound
    rw [h.kind?_arena, h.kind?_arena]
    exact h.coherent.encloses x d (hfound ▸ hd)

theorem innermost_arena {n x : NodeId} {k : Kind} : t.arena.Innermost n k x ↔ t.Innermost n k x := by
  constructor
  · rintro ⟨hkind, ⟨found, hfound, hn⟩, hinner⟩
    rw [h.arena_descendants, Option.some.injEq] at hfound
    refine ⟨h.kind?_arena x ▸ hkind, hfound ▸ hn, fun y hy hin => ?_⟩
    exact hinner y ((h.kind?_arena y).trans hy) _ (h.arena_descendants y) hin
  · rintro ⟨hkind, habove, hinner⟩
    refine ⟨(h.kind?_arena x).trans hkind, ⟨_, h.arena_descendants x, habove⟩, fun y hy found hfound hin => ?_⟩
    rw [h.arena_descendants, Option.some.injEq] at hfound
    rw [← hfound] at hin ⊢
    exact hinner y (h.kind?_arena y ▸ hy) hin

end Tree.WellFormed

/-! ## Calls on a new arena

Nodes are counted on the nested tree, whose numbers have no end. -/

namespace Arena

variable {name : String} {cs : List Call}

/-- The numbers last for as many nodes as there are numbers beside the root's. -/
theorem calls_new (few : ((Tree.new name).calls cs).1.length < idCount) :
    ((Tree.new name).calls cs).2.WellFormed ∧
      (new name).calls cs = some (((Tree.new name).calls cs).1, ((Tree.new name).calls cs).2.arena) := by
  have h := Tree.wellFormed_new name
  obtain ⟨hu, -, hnext⟩ := h.calls cs
  refine ⟨hu, h.arena_calls (hnext ▸ ?_)⟩
  exact (Nat.add_comm _ _).trans_le (Nat.succ_le_of_lt few)

/-- Any calls on a new arena, whether they succeed or fail, come to their end while the numbers last.
    Then parents, child lists and kinds are as they should be, no number has been handed out twice,
    the root's included, and every live node has one of those numbers. -/
theorem calls_cohere (name : String) (cs : List Call)
    (few : ((Tree.new name).calls cs).1.length < idCount) :
    ∃ issued a, (new name).calls cs = some (issued, a) ∧ a.Coherent ∧ (root :: issued).Nodup ∧
      ∀ n, a.contains n = true → n ∈ root :: issued := by
  obtain ⟨hu, hcalls⟩ := calls_new few
  obtain ⟨-, hissued, hnext⟩ := (Tree.wellFormed_new name).calls cs
  have hall : root :: ((Tree.new name).calls cs).1 =
      List.range' 0 (((Tree.new name).calls cs).1.length + 1) := by
    rw [List.range'_succ]
    exact congrArg (root :: ·) hissued
  refine ⟨_, _, hcalls, hu.coherent_arena, hall ▸ List.nodup_range', fun n hn => ?_⟩
  have hlt := hu.lt_next_of_contains (hu.contains_arena n ▸ hn)
  rw [hnext, Nat.add_comm] at hlt
  rw [hall, List.mem_range'_1, Nat.zero_add]
  exact ⟨Nat.zero_le _, hlt⟩

/-- Nodes are added, copied with what is below them, renamed and removed; adding below the node
    removed, copying a node into itself and removing the root fail. -/
def grafting : List Call :=
  [.add 0 .package "core", .add 1 .type "A", .add 2 .method "f", .clone 2 1, .rename 4 "B", .clone 2 3,
    .remove 2, .add 2 .method "g", .remove 0, .clone 4 4]

theorem calls_cohere_grafting : ((Tree.new "app").calls grafting).1 = [1, 2, 3, 4, 5] ∧
    ∃ issued a, (new "app").calls grafting = some (issued, a) ∧ a.Coherent ∧ (root :: issued).Nodup ∧
      ∀ n, a.contains n = true → n ∈ root :: issued := by
  have hissued : ((Tree.new "app").calls grafting).1 = [1, 2, 3, 4, 5] := by cbv
  exact ⟨hissued, calls_cohere "app" grafting (by rw [hissued]; decide)⟩

/-! ## The counter comes round

A node that is added and removed again leaves everything as it was but for the counter. Done once for
each number but the root's, it brings the counter back to the number of the root. -/

/-- Adds a package and removes it, as often as `m` says, when the next number is `n`. -/
def turns (n : NodeId) : Nat → List Call
  | 0 => []
  | m + 1 => .add root .package "p" :: .remove n :: turns (n + 1) m

theorem calls_turns (name : String) (n : NodeId) (hn : 0 < n) (m : Nat) :
    (⟨(Tree.new name).whole, n⟩ : Tree).calls (turns n m) =
      (List.range' n m, ⟨(Tree.new name).whole, n + m⟩) := by
  induction m generalizing n with
  | zero => rfl
  | succ m ih =>
    have h : (⟨(Tree.new name).whole, n⟩ : Tree).WellFormed :=
      { Tree.wellFormed_new name with
        fresh := fun _ hm => (List.mem_singleton.1 hm).symm ▸ hn }
    have hadd : (⟨(Tree.new name).whole, n⟩ : Tree).add root .package "p" =
        .ok (n, ⟨Forest.attach root (.node n .package "p" .empty .empty) (Tree.new name).whole, n + 1⟩) :=
      rfl
    have hremove := (h.remove_add hadd).2
    simp only [turns, Tree.calls, Tree.call, hadd, hremove, ih (n + 1) (Nat.succ_pos n)]
    rw [List.range'_succ, Nat.add_right_comm]
    rfl

/-- One turn for each number but the root's, and then a package that stays. -/
def lap : List Call := turns 1 (idCount - 1) ++ [.add root .package "p"]

/-- What `lap` leaves: the package has taken the place of the root under its number, and is its own
    parent and its own child. -/
def lapped : Arena := ⟨OrdMap.set ∅ root ⟨root, .package, "p", some root, [root]⟩, 1⟩

theorem call_lapped (name : String) :
    (⟨(new name).nodes, 0⟩ : Arena).call (.add root .package "p") = some ([root], lapped) := by
  have hadd : (⟨(new name).nodes, 0⟩ : Arena).add root .package "p" = (.ok root, lapped) := by
    have hplaced : (⟨(new name).nodes, 1⟩ : Arena).insert ⟨root, .package, "p", some root, []⟩ =
        ⟨OrdMap.set ∅ root ⟨root, .package, "p", some root, []⟩, 1⟩ := by
      refine ext (fun n => ?_) rfl
      rw [get?_insert, get?, get?, OrdMap.get?_set, new, OrdMap.get?_set]
      split <;> rfl
    show (Except.ok root, ((⟨(new name).nodes, 1⟩ : Arena).insert ⟨root, .package, "p", some root, []⟩).adjust
      root fun node => { node with children := node.children ++ [root] }) = _
    rw [hplaced]
    rfl
  rw [call, hadd]

theorem calls_lap (name : String) :
    (new name).calls lap = some (List.range' 1 (idCount - 1) ++ [root], lapped) := by
  have hturns : (Tree.new name).calls (turns 1 (idCount - 1)) = _ :=
    calls_turns name 1 Nat.one_pos (idCount - 1)
  have few : ((Tree.new name).calls (turns 1 (idCount - 1))).2.next ≤ idCount :=
    hturns ▸ Nat.le_refl _
  have harena := (Tree.wellFormed_new name).arena_calls few
  have hzero : (⟨(Tree.new name).whole, 1 + (idCount - 1)⟩ : Tree).arena = ⟨(new name).nodes, 0⟩ :=
    congrArg (Arena.mk (new name).nodes) (Nat.mod_self idCount)
  rw [hturns, Tree.arena_new, hzero] at harena
  rw [lap, calls_append, harena]
  simp only [Option.bind_eq_bind, Option.bind_some, calls, call_lapped]
  rfl

end Arena

end Trellis
