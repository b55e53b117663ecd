/-
  Trellis.Proofs.Tree.Coherence — what holds of a tree after any calls of its interface.

  Calls are made with any numbers, of live nodes, of dead ones and of none at all; a call that
  fails hands out nothing and leaves the tree alone. Each call keeps the tree well-formed and
  hands out the numbers from the counter on (`WellFormed.calls`), so that none is given twice.

  - `WellFormed.coherent`: parents and child lists of a well-formed tree agree, the walk from
    the root meets every live node once, and subtrees have enclosed kinds.
-/
import Mathlib.Logic.Relation
import Trellis.Proofs.Tree.Kinship

namespace Trellis.Tree

open Forest

/-- Parents, child lists and kinds as they should be, said of what can be read of a tree. -/
structure Coherent (t : Tree) : Prop where
  root_live : t.contains root = true
  /-- The root is the only node without a parent. -/
  orphan : ∀ n, t.contains n = true → (t.parent? n = none ↔ n = root)
  /-- It is the only program. -/
  program : ∀ n, t.kind? n = some .program ↔ n = root
  /-- A parent is live and lists its child exactly once. -/
  listed : ∀ n m, t.parent? n = some m → t.contains m = true ∧ (t.children m).count n = 1
  /-- Whoever is listed is live and names the node as its parent. -/
  named : ∀ m n, n ∈ t.children m → t.contains n = true ∧ t.parent? n = some m
  nested : ∀ n m, t.parent? n = some m →
    ∃ child parent, t.kind? n = some child ∧ t.kind? m = some parent ∧ parent.canContain child = true
  acyclic : ∀ n, ¬ Relation.TransGen (fun child parent => t.parent? child = some parent) n n
  /-- The walk from the root meets every live node, and none twice. -/
  complete : (t.descendants root).Nodup ∧ ∀ n, n ∈ t.descendants root ↔ t.contains n = true
  /-- Every walk is in pre-order: a node, then what its children lead to, one after the other. -/
  preorder : ∀ n, t.contains n = true → t.descendants n = n :: (t.children n).flatMap t.descendants
  encloses : ∀ a d, d ∈ t.descendants a →
    ∃ upper lower, t.kind? a = some upper ∧ t.kind? d = some lower ∧ upper.encloses lower = true

variable {t : Tree} {n m a d : NodeId} {p q : Place}

namespace WellFormed

variable (h : t.WellFormed)

include h

theorem contains_iff : t.contains n = true ↔ ∃ p ∈ t.places, p.id = n := by
  constructor
  · intro hn
    obtain ⟨node, hnode⟩ := Option.isSome_iff_exists.1 hn
    obtain ⟨⟨p, hp, hid, -⟩, -⟩ := h.get?_kin hnode
    exact ⟨p, hp, hid⟩
  · intro hn
    obtain ⟨p, hp, rfl⟩ := hn
    exact h.contains_of_mem hp

theorem contains_iff_mem_ids : t.contains n = true ↔ n ∈ t.ids := by
  rw [h.contains_iff, mem_ids_iff]

theorem lt_next_of_contains (hn : t.contains n = true) : n < t.next :=
  h.fresh n (h.contains_iff_mem_ids.1 hn)

/-- Only above the root there is nothing. -/
theorem above_eq_nil_iff (hp : p ∈ t.places) : p.above = [] ↔ p.id = root := by
  obtain ⟨mid, hline⟩ := h.line_eq hp
  cases mid with
  | nil =>
    rw [Place.line, List.nil_append, List.cons.injEq, Prod.mk.injEq] at hline
    exact ⟨fun _ => hline.1.1, fun _ => hline.2⟩
  | cons x mid =>
    rw [Place.line, List.cons_append, List.cons.injEq] at hline
    constructor
    · intro e
      rw [e] at hline
      exact absurd hline.2.symm (by simp)
    · intro e
      obtain ⟨name, below, hw⟩ := h.rooted
      have htop : (⟨root, .program, []⟩ : Place) ∈ t.places := by
        rw [places, hw, layout]
        exact List.mem_cons_self
      rw [h.eq_of_id_eq hp htop e]

theorem kind_eq_program_iff (hp : p ∈ t.places) : p.kind = .program ↔ p.id = root := by
  rw [← h.above_eq_nil_iff hp]
  constructor
  · intro hk
    have hchain := h.chained hp
    cases habove : p.above with
    | nil => rfl
    | cons x above =>
      -- Nothing can contain a program.
      rw [Place.line, habove] at hchain
      have hcan := (List.isChain_cons_cons.1 hchain).1
      rw [hk] at hcan
      cases hx : x.2 <;> rw [hx] at hcan <;> cases hcan
  · intro habove
    obtain ⟨mid, hline⟩ := h.line_eq hp
    rw [Place.line, habove] at hline
    cases mid with
    | nil => exact congrArg Prod.snd (List.cons.inj hline).1
    | cons x mid => simp at hline

/-- Towards the parents lines get shorter. -/
theorem shorter_of_transGen
    (hn : Relation.TransGen (fun child parent => t.parent? child = some parent) n m) :
    ∃ p ∈ t.places, ∃ q ∈ t.places, p.id = n ∧ q.id = m ∧ q.above.length < p.above.length := by
  have step {n m : NodeId} (hn : t.parent? n = some m) :
      ∃ p ∈ t.places, ∃ q ∈ t.places, p.id = n ∧ q.id = m ∧ q.above.length < p.above.length := by
    obtain ⟨p, hp, rfl, hparent⟩ := h.parent?_eq_some.1 hn
    obtain ⟨q, hq, rfl, habove⟩ := exists_parent_place hp hparent
    exact ⟨p, hp, q, hq, rfl, rfl, by rw [habove, Place.line]; simp⟩
  induction hn with
  | single hn => exact step hn
  | tail _ hm ih =>
    obtain ⟨p, hp, q, hq, hpn, hqm, hlt⟩ := ih
    obtain ⟨q', hq', r, hr, hq'm, hrm, hlt'⟩ := step hm
    rw [h.eq_of_id_eq hq' hq (hq'm.trans hqm.symm)] at hlt'
    exact ⟨p, hp, r, hr, hpn, hrm, Nat.lt_trans hlt' hlt⟩

/-- Whatever lies in the subtree of a node is of a kind that the node's kind encloses. -/
theorem encloses_of_within (hq : q ∈ t.places) (hp : p ∈ t.places) (hw : q.Within p.id) :
    p.kind.encloses q.kind = true := by
  obtain ⟨pre, hline⟩ := h.line_eq_append hq hp hw
  cases pre with
  | nil =>
    have e : q.kind = p.kind := congrArg Prod.snd (List.cons.inj hline).1
    rw [e]
    exact Kind.encloses_self _
  | cons x pre =>
    rw [Place.line, List.cons_append, List.cons.injEq] at hline
    exact (h.chained hq).encloses (p.id, p.kind) (by rw [hline.2]; simp [Place.line])

theorem coherent : t.Coherent where
  root_live := by
    obtain ⟨p, hp, hid, -⟩ := h.topmost_program.2 rfl
    exact h.contains_iff.2 ⟨p, hp, hid⟩
  orphan n hn := by
    obtain ⟨p, hp, rfl⟩ := h.contains_iff.1 hn
    rw [h.parent?_of_mem hp, ← h.above_eq_nil_iff hp, Place.parent?, Option.map_eq_none_iff,
      List.head?_eq_none_iff]
  program n := by
    rw [h.kind?_eq_some]
    constructor
    · intro hn
      obtain ⟨p, hp, rfl, hk⟩ := hn
      exact (h.kind_eq_program_iff hp).1 hk
    · intro hn
      obtain ⟨p, hp, hid, hk, -⟩ := h.topmost_program.2 hn
      exact ⟨p, hp, hid, hk⟩
  listed n m hn := by
    refine ⟨?_, List.count_eq_one_of_mem (h.nodup_children m) (h.mem_children.2 hn)⟩
    obtain ⟨p, hp, -, hparent⟩ := h.parent?_eq_some.1 hn
    obtain ⟨q, hq, hid, -⟩ := exists_parent_place hp hparent
    exact h.contains_iff.2 ⟨q, hq, hid⟩
  named m n hn := by
    have hparent := h.mem_children.1 hn
    obtain ⟨p, hp, hid, -⟩ := h.parent?_eq_some.1 hparent
    exact ⟨h.contains_iff.2 ⟨p, hp, hid⟩, hparent⟩
  nested n m hn := by
    obtain ⟨p, hp, rfl, hparent⟩ := h.parent?_eq_some.1 hn
    obtain ⟨q, hq, rfl, habove⟩ := exists_parent_place hp hparent
    have hchain := h.chained hp
    rw [Place.line, habove, Place.line] at hchain
    exact ⟨p.kind, q.kind, h.kind?_of_mem hp, h.kind?_of_mem hq,
      (List.isChain_cons_cons.1 hchain).1⟩
  acyclic n hn := by
    obtain ⟨p, hp, q, hq, hpn, hqn, hlt⟩ := h.shorter_of_transGen hn
    rw [h.eq_of_id_eq hp hq (hpn.trans hqn.symm)] at hlt
    exact Nat.lt_irrefl _ hlt
  complete := by
    refine ⟨h.nodup_descendants root, fun n => ?_⟩
    rw [h.mem_descendants, h.contains_iff]
    constructor
    · intro hn
      obtain ⟨p, hp, hid, -⟩ := hn
      exact ⟨p, hp, hid⟩
    · intro hn
      obtain ⟨p, hp, hid⟩ := hn
      exact ⟨p, hp, hid, h.within_root hp⟩
  preorder n hn := h.descendants_eq hn
  encloses a d hd := by
    obtain ⟨q, hq, rfl, hw⟩ := h.mem_descendants.1 hd
    obtain ⟨p, hp, rfl, -⟩ := line_of_within hq hw
    exact ⟨p.kind, q.kind, h.kind?_of_mem hp, h.kind?_of_mem hq, h.encloses_of_within hq hp hw⟩

end WellFormed

/-! ## Calls -/

/-- A call that may edit a tree. -/
inductive Call where
  | add (parent : NodeId) (kind : Kind) (name : String)
  | remove (n : NodeId)
  | clone (source parent : NodeId)
  | rename (n : NodeId) (name : String)
  deriving DecidableEq

/-- The numbers that a call hands out, and the tree after it. -/
def call (t : Tree) : Call → List NodeId × Tree
  | .add parent kind name =>
    match t.add parent kind name with
    | .ok (n, u) => ([n], u)
    | .error _ => ([], t)
  | .remove n =>
    match t.remove n with
    | .ok (_, u) => ([], u)
    | .error _ => ([], t)
  | .clone source parent =>
    match t.clone source parent with
    | .ok (pairs, u) => (pairs.map Prod.snd, u)
    | .error _ => ([], t)
  | .rename n name =>
    match t.rename n name with
    | .ok u => ([], u)
    | .error _ => ([], t)

/-- The numbers handed out by several calls, in order, and the tree after them. -/
def calls (t : Tree) : List Call → List NodeId × Tree
  | [] => ([], t)
  | c :: cs =>
    let (issued, u) := t.call c
    let (later, v) := u.calls cs
    (issued ++ later, v)

theorem WellFormed.call (h : t.WellFormed) (c : Call) :
    (t.call c).2.WellFormed ∧ (t.call c).1 = List.range' t.next (t.call c).1.length ∧
      (t.call c).2.next = t.next + (t.call c).1.length := by
  unfold Tree.call
  cases c with
  | add parent kind name =>
    dsimp only
    split
    · rename_i n u he
      obtain ⟨p, -, hg⟩ := h.grows_add he
      exact ⟨hg.wellFormed, hg.new_eq, hg.next⟩
    · exact ⟨h, rfl, rfl⟩
  | remove n =>
    dsimp only
    split
    · rename_i gone u he
      obtain ⟨-, hg⟩ := h.shrinks_remove he
      exact ⟨hg.wellFormed, rfl, hg.next⟩
    · exact ⟨h, rfl, rfl⟩
  | clone source parent =>
    dsimp only
    split
    · rename_i pairs u he
      obtain ⟨p, -, hg⟩ := h.grows_clone he
      exact ⟨hg.wellFormed, hg.new_eq, hg.next⟩
    · exact ⟨h, rfl, rfl⟩
  | rename n name =>
    dsimp only
    split
    · rename_i u he
      exact ⟨h.rename he, rfl, (places_rename he).2⟩
    · exact ⟨h, rfl, rfl⟩

/-- Calls hand out consecutive numbers, from the counter on. -/
theorem WellFormed.calls (h : t.WellFormed) (cs : List Call) :
    (t.calls cs).2.WellFormed ∧ (t.calls cs).1 = List.range' t.next (t.calls cs).1.length ∧
      (t.calls cs).2.next = t.next + (t.calls cs).1.length := by
  induction cs generalizing t with
  | nil => exact ⟨h, rfl, rfl⟩
  | cons c cs ih =>
    obtain ⟨hu, hissued, hnext⟩ := h.call c
    obtain ⟨hv, hlater, hend⟩ := ih hu
    refine ⟨hv, ?_, ?_⟩
    · rw [hnext] at hlater
      show (t.call c).1 ++ ((t.call c).2.calls cs).1 = _
      rw [Tree.calls, List.length_append, ← List.range'_append_1, ← hissued, ← hlater]
    · show ((t.call c).2.calls cs).2.next = _
      rw [Tree.calls, List.length_append, hend, hnext, Nat.add_assoc]

end Trellis.Tree
