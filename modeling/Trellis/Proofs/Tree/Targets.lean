/-
  Trellis.Proofs.Tree.Targets — the nodes a step runs on.

  A node is topmost of its kind if no node above it is of that kind. With the standard adapters
  a granularity expands to exactly the topmost nodes of its kind (`mem_expandRoot_standard`),
  because each adapter is direct: whatever can contain its target is of its source or of its
  target kind, and a target never encloses a source.

  Whatever a granularity encloses lies below one of them (`exists_target`).
-/
import Mathlib
import Trellis.Expansion
import Trellis.Proofs.Places
import Trellis.Proofs.Tree.WellFormed

namespace Trellis

namespace Kind

variable {a b c : Kind}

theorem encloses_of_encloses_of_canContain (h : a.encloses b = true) (hb : b.canContain c = true) :
    a.encloses c = true := by
  revert h hb; cases a <;> cases b <;> cases c <;> decide

/-- What encloses a kind other than itself encloses whatever can contain that kind. -/
theorem encloses_of_canContain_of_ne (h : a.encloses c = true) (hne : c ≠ a)
    (hb : b.canContain c = true) : a.encloses b = true := by
  revert h hne hb; cases a <;> cases b <;> cases c <;> decide

theorem encloses_program (h : a.encloses program = true) : a = program := by
  revert h; cases a <;> decide

end Kind

open Forest

/-! ## Lines -/

theorem Forest.Chained.encloses {x : NodeId × Kind} {above : List (NodeId × Kind)}
    (h : Chained (x :: above)) : ∀ y ∈ above, y.2.encloses x.2 = true := by
  induction above generalizing x with
  | nil => simp
  | cons z above ih =>
    obtain ⟨hxz, hz⟩ := List.isChain_cons_cons.1 h
    intro y hy
    rcases List.mem_cons.1 hy with rfl | hy
    · exact Kind.encloses_of_canContain hxz (Kind.encloses_self _)
    · exact Kind.encloses_of_encloses_of_canContain (ih hz y hy) hxz

/-- On the way from a kind up to the program there is every kind that encloses it. -/
theorem Forest.Chained.exists_kind {g : Kind} {r : NodeId} (mid : List (NodeId × Kind))
    (h : Chained (mid ++ [(r, Kind.program)]))
    (hg : ∀ x ∈ (mid ++ [(r, Kind.program)]).head?, g.encloses x.2 = true) :
    ∃ y ∈ mid ++ [(r, Kind.program)], y.2 = g := by
  induction mid with
  | nil =>
    exact ⟨(r, Kind.program), List.mem_cons_self, (Kind.encloses_program (hg (r, .program) rfl)).symm⟩
  | cons x mid ih =>
    by_cases hx : x.2 = g
    · exact ⟨x, List.mem_cons_self, hx⟩
    · obtain ⟨hhead, hrest⟩ := List.isChain_cons.1 h
      obtain ⟨y, hy, hyg⟩ := ih hrest fun z hz =>
        Kind.encloses_of_canContain_of_ne (hg x rfl) hx (hhead z hz)
      exact ⟨y, List.mem_cons_of_mem _ hy, hyg⟩

/-! ## Topmost nodes -/

/-- The node is of kind `k`, and none above it is. -/
def Place.Topmost (p : Place) (k : Kind) : Prop := p.kind = k ∧ ∀ x ∈ p.above, x.2 ≠ k

/-- If a line passes a kind, it passes a topmost node of that kind. -/
theorem Tree.exists_topmost {t : Tree} {k : Kind} {p : Place} (hp : p ∈ t.places) (hk : ∃ x ∈ p.line, x.2 = k) :
    ∃ q ∈ t.places, q.Topmost k ∧ ∃ mid, p.line = mid ++ q.line := by
  obtain ⟨pre, x, rest, hline, hx, hno⟩ := exists_last hk
  have hq : (⟨x.1, x.2, rest⟩ : Place) ∈ t.places := by
    have hline : p.line = pre ++ x :: (rest ++ []) := by rw [hline, List.append_nil]
    have := mem_layout_of_line hp hline
    rwa [List.append_nil] at this
  exact ⟨_, hq, ⟨hx, hno⟩, pre, hline⟩

namespace Tree.WellFormed

variable {t : Tree} {n : NodeId} {k : Kind} {p q : Place} (h : t.WellFormed)

include h

/-- A granularity that encloses a kind has a topmost node above every node of that kind. -/
theorem exists_target (hp : p ∈ t.places) (hk : k.encloses p.kind = true) :
    ∃ q ∈ t.places, q.Topmost k ∧ p.Within q.id := by
  obtain ⟨mid, hmid⟩ := h.line_eq hp
  have hchain := h.chained hp
  rw [hmid] at hchain
  obtain ⟨x, hx, hxk⟩ := hchain.exists_kind mid (by
    rw [← hmid]
    intro x hx
    cases hx
    exact hk)
  rw [← hmid] at hx
  obtain ⟨q, hq, htop, mid, hline⟩ := exists_topmost hp ⟨x, hx, hxk⟩
  refine ⟨q, hq, htop, ?_⟩
  rw [Place.Within, hline]
  simp [Place.line]

/-! ## Adapters -/

theorem mem_expand (hp : p ∈ t.places) {a : Adapter} : n ∈ a.expand t p.id ↔
    ∃ q ∈ t.places, q.id = n ∧ q.kind = a.target ∧
      ∃ mid, q.above = mid ++ p.line ∧ ∀ x ∈ mid, x.2 ≠ a.target := by
  rw [Adapter.expand, mem_outermost p.line]
  constructor
  · intro hn
    obtain ⟨q, hq, hn⟩ := hn
    exact ⟨q, ((mem_layout_under h.distinct hp List.not_mem_nil).1 hq).1, hn⟩
  · intro hn
    obtain ⟨q, hq, hid, hk, mid, hmid, hno⟩ := hn
    refine ⟨q, (mem_layout_under h.distinct hp List.not_mem_nil).2 ⟨hq, ?_, ?_⟩, hid, hk, mid, hmid, hno⟩
    · simp [Place.Within, Place.line, hmid]
    · intro e
      have := congrArg Place.above (h.eq_of_id_eq hq hp e)
      rw [hmid, Place.line] at this
      have := congrArg List.length this
      simp at this
      omega

end Tree.WellFormed

/-- Whatever can contain the target is of the source or the target kind, and a target does not
    enclose a source. -/
structure Adapter.Direct (a : Adapter) : Prop where
  contains : ∀ k : Kind, k.canContain a.target = true → k = a.source ∨ k = a.target
  up : a.target.encloses a.source = false
  below : a.target ≠ .program

namespace Tree.WellFormed

variable {t : Tree} {n : NodeId} {k : Kind} {p q : Place} (h : t.WellFormed)

include h

theorem topmost_program : (∃ p ∈ t.places, p.id = n ∧ p.Topmost .program) ↔ n = root := by
  obtain ⟨name, below, hw⟩ := h.rooted
  have hroot : (⟨root, .program, []⟩ : Place) ∈ t.places := by
    rw [places, hw, layout]
    exact List.mem_cons_self
  constructor
  · intro hn
    obtain ⟨p, hp, rfl, -, hno⟩ := hn
    obtain ⟨mid, hmid⟩ := h.line_eq hp
    cases mid with
    | nil => exact congrArg (fun l => (l.head?.map Prod.fst).getD root) hmid
    | cons x mid =>
      simp only [Place.line, List.cons_append, List.cons.injEq] at hmid
      exact absurd rfl (hno (root, .program) (by simp [hmid.2]))
  · intro hn
    exact ⟨_, hroot, hn.symm, rfl, fun _ hx => absurd hx List.not_mem_nil⟩

variable {a : Adapter} (ha : a.Direct)

include ha

/-- The parent of a topmost target is of the source kind. -/
theorem exists_source (hq : q ∈ t.places) (htop : q.Topmost a.target) : ∃ y ∈ q.above, y.2 = a.source := by
  obtain ⟨mid, hmid⟩ := h.line_eq hq
  have hchain := h.chained hq
  cases e : q.above with
  | nil =>
    rw [Place.line, e] at hmid
    have hlen := congrArg List.length hmid
    simp only [List.length_append, List.length_cons, List.length_nil] at hlen
    obtain rfl := List.eq_nil_of_length_eq_zero (show mid.length = 0 by omega)
    simp only [List.nil_append, List.cons.injEq, Prod.mk.injEq] at hmid
    exact absurd (htop.1.symm.trans hmid.1.2) ha.below
  | cons y above =>
    rw [Place.line, e] at hchain
    have hcan := (List.isChain_cons_cons.1 hchain).1
    rw [htop.1] at hcan
    exact ⟨y, List.mem_cons_self, (ha.contains _ hcan).resolve_right (htop.2 y (by simp [e]))⟩

theorem mem_expand_of_topmost (hq : q ∈ t.places) (htop : q.Topmost a.target) :
    ∃ p ∈ t.places, p.Topmost a.source ∧ q.id ∈ a.expand t p.id := by
  have hne : q.kind ≠ a.source := by
    intro e
    have := ha.up
    rw [← htop.1, e, Kind.encloses_self] at this
    cases this
  obtain ⟨y, hy, hsource⟩ := h.exists_source ha hq htop
  obtain ⟨p, hp, hptop, mid, hline⟩ := exists_topmost hq ⟨y, List.mem_cons_of_mem _ hy, hsource⟩
  refine ⟨p, hp, hptop, (h.mem_expand hp).2 ⟨q, hq, rfl, htop.1, ?_⟩⟩
  cases mid with
  | nil =>
    have : q.kind = p.kind := congrArg (fun l => (l.head?.map Prod.snd).getD .program) hline
    exact absurd (this.trans hptop.1) hne
  | cons x mid =>
    simp only [Place.line, List.cons_append, List.cons.injEq] at hline
    refine ⟨mid, hline.2, fun z hz => htop.2 z ?_⟩
    rw [hline.2]
    exact List.mem_append_left _ hz

theorem topmost_of_mem_expand (hp : p ∈ t.places) (htop : p.Topmost a.source)
    (hn : n ∈ a.expand t p.id) : ∃ q ∈ t.places, q.id = n ∧ q.Topmost a.target := by
  obtain ⟨q, hq, hid, hkind, mid, hmid, hno⟩ := (h.mem_expand hp).1 hn
  refine ⟨q, hq, hid, hkind, ?_⟩
  intro x hx e
  rw [hmid, List.mem_append, Place.line, List.mem_cons] at hx
  have hup := ha.up
  rcases hx with hx | rfl | hx
  · exact hno x hx e
  · rw [← e, htop.1, Kind.encloses_self] at hup
    cases hup
  · have := (h.chained hp).encloses x hx
    rw [e, htop.1, hup] at this
    cases this

/-- Following direct adapters from topmost nodes leads to topmost nodes. -/
theorem mem_flatMap_expand {nodes : List NodeId}
    (hnodes : ∀ n, n ∈ nodes ↔ ∃ p ∈ t.places, p.id = n ∧ p.Topmost a.source) :
    n ∈ nodes.flatMap (a.expand t) ↔ ∃ p ∈ t.places, p.id = n ∧ p.Topmost a.target := by
  rw [List.mem_flatMap]
  constructor
  · intro hn
    obtain ⟨m, hm, hn⟩ := hn
    obtain ⟨p, hp, rfl, htop⟩ := (hnodes m).1 hm
    exact h.topmost_of_mem_expand ha hp htop hn
  · intro hn
    obtain ⟨q, hq, rfl, htop⟩ := hn
    obtain ⟨p, hp, hptop, hn⟩ := h.mem_expand_of_topmost ha hq htop
    exact ⟨p.id, (hnodes p.id).2 ⟨p, hp, rfl, hptop⟩, hn⟩

end Tree.WellFormed

/-! ## The standard adapters -/

namespace AdapterSet

theorem direct_standard {a : Adapter} (ha : a ∈ standard) : a.Direct := by
  rw [standard, OrdSet.mem_ofList] at ha
  simp only [List.mem_cons, List.not_mem_nil, or_false] at ha
  rcases ha with rfl | rfl | rfl | rfl | rfl
  all_goals exact ⟨fun k h => by revert h; cases k <;> decide, rfl, by decide⟩

/-- The adapters lead from the one kind to the other, each beginning where the last ended. -/
def Leads (as : AdapterSet) (source : Kind) : List Adapter → Kind → Prop
  | [], k => source = k
  | a :: chain, k => a ∈ as ∧ a.source = source ∧ as.Leads a.target chain k

/-- The way down from the program to a kind. -/
def descent : Kind → List Adapter
  | .program => []
  | .package => [⟨.program, .package⟩]
  | .type => [⟨.program, .package⟩, ⟨.package, .type⟩]
  | .method => [⟨.program, .package⟩, ⟨.package, .type⟩, ⟨.type, .method⟩]
  | .field => [⟨.program, .package⟩, ⟨.package, .type⟩, ⟨.type, .field⟩]
  | .statement =>
    [⟨.program, .package⟩, ⟨.package, .type⟩, ⟨.type, .method⟩, ⟨.method, .statement⟩]

theorem chain_standard (k : Kind) : standard.chain k = .ok (descent k) := by
  cases k <;> cbv

theorem leads_descent (k : Kind) : standard.Leads .program (descent k) k := by
  cases k <;> simp [descent, Leads, standard, OrdSet.mem_ofList]

end AdapterSet

namespace Tree.WellFormed

variable {t : Tree} {n : NodeId} (h : t.WellFormed)

include h

theorem mem_foldl_expand {chain : List Adapter} {nodes : List NodeId} {source k : Kind}
    (hchain : AdapterSet.standard.Leads source chain k)
    (hnodes : ∀ n, n ∈ nodes ↔ ∃ p ∈ t.places, p.id = n ∧ p.Topmost source) :
    n ∈ chain.foldl (fun nodes a => nodes.flatMap (a.expand t)) nodes ↔
      ∃ p ∈ t.places, p.id = n ∧ p.Topmost k := by
  induction chain generalizing nodes source with
  | nil =>
    cases hchain
    exact hnodes n
  | cons a chain ih =>
    obtain ⟨ha, rfl, hchain⟩ := hchain
    exact ih hchain fun m => h.mem_flatMap_expand (AdapterSet.direct_standard ha) hnodes

/-- A step of some granularity runs on the topmost nodes of that kind. -/
theorem mem_expandRoot_standard (k : Kind) : ∃ targets,
    AdapterSet.standard.expandRoot t k = .ok targets ∧
      ∀ n, n ∈ targets ↔ ∃ p ∈ t.places, p.id = n ∧ p.Topmost k := by
  refine ⟨_, by rw [AdapterSet.expandRoot, AdapterSet.chain_standard]; rfl, fun n => ?_⟩
  refine h.mem_foldl_expand (AdapterSet.leads_descent k) fun m => ?_
  rw [h.topmost_program, List.mem_singleton]

end Tree.WellFormed

end Trellis
