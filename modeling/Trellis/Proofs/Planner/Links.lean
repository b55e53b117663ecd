/-
  Trellis.Proofs.Planner.Links — what the search for links finds, and when it finds something.

  A search is sound if what it finds only adds to the precedences it is given, closes no cycle
  and meets a condition on the graph that comes out (`Search.Sound`). The conditions only ask
  for edges and paths, so what holds for one need still holds after the next was met:
  `support_sound` says that every need has a supplier that no remover can come between.

  A search succeeds under a rank if, begun with precedences that ascend, it finds something
  unless it runs out of budget (`Search.Succeeds`). Whatever order the units may stand in, the
  choices that agree with it are never all cut off: `support_succeeds`.

  A search that fails has found a need without support (`support_blames`).
-/
import Trellis.Planner.Links
import Trellis.Proofs.Graph.Reachability

namespace Trellis.Planner

open Trellis.Graph

variable {g : Graph} {p : Precedence} {e : Effort} {s t next : Search}

/-! ## Precedences -/

namespace Precedence

/-- Up to date for a graph with the added edges, none of which closed a cycle. -/
structure Over (p : Precedence) (g : Graph) : Prop where
  tracks : p.reach.Tracks (g.addAll p.added)
  acyclic : (g.addAll p.added).Acyclic

theorem over_ofGraph (hg : g.Acyclic) : (ofGraph g).Over g := ⟨tracks_reach g, hg⟩

theorem Over.reaches_iff (h : p.Over g) {a b : Nat} (ha : a < g.size) :
    p.reaches a b = true ↔ (g.addAll p.added).Path a b :=
  h.tracks.reaches_iff (by simpa using ha)

theorem Over.add (h : p.Over g) {a b : Nat} (ha : a < g.size) (hb : b < g.size)
    (hba : p.reaches b a ≠ true) : (p.add a b).Over g := by
  have e : g.addAll (p.add a b).added = (g.addAll p.added).add a b := addAll_cons g ⟨a, b⟩ p.added
  have hs : (g.addAll p.added).size = g.size := size_addAll g p.added
  refine ⟨?_, ?_⟩
  · rw [e]
    exact h.tracks.add (hs ▸ ha) (hs ▸ hb)
  · rw [e]
    exact acyclic_add h.acyclic (hs ▸ ha) (hs ▸ hb) fun hp => hba ((h.reaches_iff hb).2 hp)

theorem edges_mono {q : Precedence} (hsub : p.added ⊆ q.added) :
    ∀ d ∈ (g.addAll p.added).edges, d ∈ (g.addAll q.added).edges := by
  intro d hd
  rcases mem_edges_addAll.1 hd with hd | ⟨hd, hs⟩
  · exact mem_edges_addAll.2 (.inl hd)
  · exact mem_edges_addAll.2 (.inr ⟨hsub hd, hs⟩)

end Precedence

/-! ## What is found -/

/-- No remover at `r` comes between the supplier and the consumer. -/
def Apart (g : Graph) (consumer supplier r : Nat) : Prop :=
  r = consumer ∨ r = supplier ∨ g.Path r supplier ∨ g.Path consumer r

/-- Some supplier precedes the consumer, and no remover comes between. -/
def Supported (g : Graph) (need : Need) : Prop :=
  ∃ s ∈ need.suppliers, ⟨s, need.consumer⟩ ∈ g.edges ∧
    ∀ r ∈ need.removers, Apart g need.consumer s r

theorem Apart.mono {h : Graph} (hsub : ∀ e ∈ g.edges, e ∈ h.edges) {consumer supplier r : Nat}
    (ha : Apart g consumer supplier r) : Apart h consumer supplier r := by
  rcases ha with ha | ha | ha | ha
  · exact .inl ha
  · exact .inr (.inl ha)
  · exact .inr (.inr (.inl (ha.mono hsub)))
  · exact .inr (.inr (.inr (ha.mono hsub)))

theorem apart_of_settled (h : p.Over g) {consumer supplier r : Nat} (hc : consumer < g.size)
    (hr : r < g.size) (hs : p.settled consumer supplier r = true) :
    Apart (g.addAll p.added) consumer supplier r := by
  simp only [Precedence.settled, Bool.or_eq_true, decide_eq_true_eq, h.reaches_iff hr,
    h.reaches_iff hc] at hs
  rcases hs with ((hs | hs) | hs) | hs
  · exact .inl hs
  · exact .inr (.inl hs)
  · exact .inr (.inr (.inl hs))
  · exact .inr (.inr (.inr hs))

/-- Whatever is found adds to the precedences given, and the graph meets the condition. -/
def Search.Sound (g : Graph) (s : Search) (P : Graph → Prop) : Prop :=
  ∀ p e q, p.Over g → (s p e).1 = some q →
    q.Over g ∧ p.added ⊆ q.added ∧ P (g.addAll q.added)

namespace Search.Sound

variable {P Q : Graph → Prop}

theorem weaken (h : s.Sound g P) (hPQ : ∀ h, P h → Q h) : s.Sound g Q := by
  intro p e q hp hq
  obtain ⟨hq, hsub, hP⟩ := h p e q hp hq
  exact ⟨hq, hsub, hPQ _ hP⟩

theorem charged (h : s.Sound g P) : s.charged.Sound g P := by
  intro p e q hp hq
  unfold Search.charged at hq
  split at hq
  · exact h p _ q hp hq
  · cases hq

theorem orElse (h : s.Sound g P) (k : t.Sound g P) : (s.orElse t).Sound g P := by
  intro p e q hp hq
  unfold Search.orElse at hq
  split at hq
  · rename_i found _ hs
    cases hq
    exact h p e _ hp (by rw [hs])
  · exact k p _ q hp hq

theorem ordering (h : s.Sound g P) {a b : Nat} (ha : a < g.size) (hb : b < g.size) :
    (s.ordering a b).Sound g fun h => ⟨a, b⟩ ∈ h.edges ∧ P h := by
  intro p e q hp hq
  unfold Search.ordering at hq
  split at hq
  · cases hq
  · rename_i hr
    obtain ⟨hq, hsub, hP⟩ := h _ e q (hp.add ha hb hr) hq
    have hab : ⟨a, b⟩ ∈ q.added := hsub List.mem_cons_self
    refine ⟨hq, fun d hd => hsub (List.mem_cons_of_mem _ hd), ?_, hP⟩
    exact mem_edges_addAll.2 (.inr ⟨hab, ha, hb⟩)

end Search.Sound

theorem protect_sound {P : Graph → Prop} (h : next.Sound g P) {consumer supplier : Nat}
    (hc : consumer < g.size) (hs : supplier < g.size) {threats : List Nat}
    (ht : ∀ r ∈ threats, r < g.size) :
    (protect consumer supplier next threats).Sound g fun h =>
      (∀ r ∈ threats, Apart h consumer supplier r) ∧ P h := by
  induction threats with
  | nil => exact h.weaken fun _ hP => ⟨fun _ hr => absurd hr List.not_mem_nil, hP⟩
  | cons r threats ih =>
    have hr : r < g.size := ht r List.mem_cons_self
    replace ih := ih fun q hq => ht q (List.mem_cons_of_mem _ hq)
    intro p e q hp hq
    simp only [protect] at hq
    split at hq
    · rename_i hset
      obtain ⟨hq, hsub, hall, hP⟩ := ih p e q hp hq
      have hr := (apart_of_settled hp hc hr hset).mono (Precedence.edges_mono hsub)
      exact ⟨hq, hsub, List.forall_mem_cons.2 ⟨hr, hall⟩, hP⟩
    · -- Either edge settles the threat for good.
      have after {a b : Nat} (ha : a < g.size) (hb : b < g.size)
          (hedge : ∀ h : Graph, ⟨a, b⟩ ∈ h.edges → Apart h consumer supplier r) :
          ((protect consumer supplier next threats).charged.ordering a b).Sound g fun h =>
            (∀ q ∈ r :: threats, Apart h consumer supplier q) ∧ P h := by
        refine (ih.charged.ordering ha hb).weaken fun h hh => ?_
        obtain ⟨he, hall, hP⟩ := hh
        exact ⟨List.forall_mem_cons.2 ⟨hedge h he, hall⟩, hP⟩
      have demoted := after hc hr fun h he => .inr (.inr (.inr (.single he)))
      have promoted := after hr hs fun h he => .inr (.inr (.inl (.single he)))
      exact demoted.orElse promoted p e q hp hq

/-- All nodes of a need are nodes of the graph. -/
structure Need.Inside (need : Need) (size : Nat) : Prop where
  consumer : need.consumer < size
  suppliers : ∀ s ∈ need.suppliers, s < size
  removers : ∀ r ∈ need.removers, r < size

theorem link_sound {P : Graph → Prop} (h : next.Sound g P) {need : Need} (hc : need.consumer < g.size)
    (hr : ∀ r ∈ need.removers, r < g.size) {suppliers : List Nat}
    (hs : ∀ s ∈ suppliers, s < g.size) :
    (link need next suppliers).Sound g fun h =>
      (∃ s ∈ suppliers, ⟨s, need.consumer⟩ ∈ h.edges ∧
        ∀ r ∈ need.removers, Apart h need.consumer s r) ∧ P h := by
  induction suppliers with
  | nil =>
    intro p e q hp hq
    cases hq
  | cons s suppliers ih =>
    have hs' : s < g.size := hs s List.mem_cons_self
    refine Search.Sound.orElse ?_ ?_
    · refine ((protect_sound h hc hs' hr).charged.ordering hs' hc).weaken fun h hh => ?_
      obtain ⟨he, hall, hP⟩ := hh
      exact ⟨⟨s, List.mem_cons_self, he, hall⟩, hP⟩
    · refine (ih fun q hq => hs q (List.mem_cons_of_mem _ hq)).weaken fun h hh => ?_
      obtain ⟨⟨q, hq, hlinked⟩, hP⟩ := hh
      exact ⟨⟨q, List.mem_cons_of_mem _ hq, hlinked⟩, hP⟩

theorem support_sound {needs : List Need} (hn : ∀ need ∈ needs, need.Inside g.size) :
    (support needs).Sound g fun h => ∀ need ∈ needs, Supported h need := by
  induction needs with
  | nil =>
    intro p e q hp hq
    cases hq
    exact ⟨hp, fun _ hd => hd, fun _ h => absurd h List.not_mem_nil⟩
  | cons need needs ih =>
    obtain ⟨hc, hs, hr⟩ := hn need List.mem_cons_self
    replace ih := ih fun n hm => hn n (List.mem_cons_of_mem _ hm)
    exact (link_sound ih hc hr hs).weaken fun h hh => List.forall_mem_cons.2 hh

/-! ## When something is found -/

namespace Precedence

theorem reaches_add (p : Precedence) (a b x y : Nat) :
    (p.add a b).reaches x y = (p.reaches x y || (p.reaches x a && p.reaches b y)) :=
  Reach.reaches_add p.reach a b x y

/-- Whatever precedes has the smaller rank. -/
def Respects (p : Precedence) (rank : Nat → Nat) : Prop :=
  ∀ a b, p.reaches a b = true → a = b ∨ rank a < rank b

variable {rank : Nat → Nat}

theorem respects_ofGraph (h : g.Ascends rank) : (ofGraph g).Respects rank := by
  intro a b hr
  have ha := (tracks_reach g).lt_size hr
  exact h.eq_or_lt (((tracks_reach g).reaches_iff ha).1 hr)

theorem Respects.add (h : p.Respects rank) {a b : Nat} (hab : rank a < rank b) :
    (p.add a b).Respects rank := by
  intro x y hr
  rw [reaches_add, Bool.or_eq_true, Bool.and_eq_true] at hr
  rcases hr with hr | ⟨hxa, hby⟩
  · exact h x y hr
  · rcases h x a hxa with rfl | hxa
    · rcases h b y hby with rfl | hby
      · exact .inr hab
      · exact .inr (by omega)
    · rcases h b y hby with rfl | hby
      · exact .inr (by omega)
      · exact .inr (by omega)

end Precedence

/-- Kept by whatever a search does to its effort. -/
structure Effort.Closed (K : Effort → Prop) : Prop where
  charge : ∀ e, K e → K { e with spent := e.spent + 1 }
  exhaust : ∀ e, K e → K { e with exhausted := true }
  blame : ∀ e need, K e → K (e.blame need)

/-- What holds of the effort before the search holds after it. -/
def Search.Preserves (K : Effort → Prop) (s : Search) : Prop := ∀ p e, K e → K (s p e).2

namespace Search.Preserves

variable {K : Effort → Prop}

theorem charged (hK : Effort.Closed K) (h : s.Preserves K) : s.charged.Preserves K := by
  intro p e he
  unfold Search.charged
  split
  · rename_i e' hc
    refine h p e' ?_
    unfold Effort.charge at hc
    split at hc
    · cases hc
    · cases hc
      exact hK.charge e he
  · exact hK.exhaust e he

theorem orElse (h : s.Preserves K) (k : t.Preserves K) : (s.orElse t).Preserves K := by
  intro p e he
  have hs := h p e he
  unfold Search.orElse
  split
  · rename_i e' hr
    rw [hr] at hs
    exact hs
  · rename_i e' hr
    rw [hr] at hs
    exact k p e' hs

theorem ordering (h : s.Preserves K) (a b : Nat) : (s.ordering a b).Preserves K := by
  intro p e he
  unfold Search.ordering
  split
  · exact he
  · exact h _ e he

end Search.Preserves

section Preserves

variable {K : Effort → Prop} (hK : Effort.Closed K)

include hK

theorem protect_preserves (h : next.Preserves K) (consumer supplier : Nat) (threats : List Nat) :
    (protect consumer supplier next threats).Preserves K := by
  induction threats with
  | nil => exact h
  | cons r threats ih =>
    have rest := ih.charged hK
    intro p e he
    simp only [protect]
    split
    · exact ih p e he
    · exact (rest.ordering consumer r).orElse (rest.ordering r supplier) p e he

theorem link_preserves (h : next.Preserves K) (need : Need) (suppliers : List Nat) :
    (link need next suppliers).Preserves K := by
  induction suppliers with
  | nil => exact fun _ e he => hK.blame e need he
  | cons s suppliers ih =>
    have linked := (protect_preserves hK h need.consumer s need.removers).charged hK
    exact (linked.ordering s need.consumer).orElse ih

theorem support_preserves (needs : List Need) : (support needs).Preserves K := by
  induction needs with
  | nil => exact fun _ _ he => he
  | cons need needs ih => exact link_preserves hK ih need need.suppliers

end Preserves

theorem closed_exhausted : Effort.Closed (·.exhausted = true) :=
  ⟨fun _ h => h, fun _ _ => rfl, fun _ _ h => h⟩

/-- Once a need is blamed it stays blamed. -/
theorem closed_unsupported (need : Need) : Effort.Closed (·.unsupported = some need) :=
  ⟨fun _ h => h, fun _ h => h, fun e _ h => by simp [Effort.blame, show e.unsupported = _ from h]⟩

/-- A search that runs with its budget spent says so in the end. -/
def Search.Keeps (s : Search) : Prop := ∀ p e, e.exhausted = true → (s p e).2.exhausted = true

/-- Begun with precedences that ascend, the search finds something or runs out of budget. -/
def Search.Succeeds (rank : Nat → Nat) (s : Search) : Prop :=
  ∀ p e, p.Respects rank → (s p e).1.isSome = true ∨ (s p e).2.exhausted = true

namespace Search

theorem Keeps.charged (h : s.Keeps) : s.charged.Keeps := Preserves.charged closed_exhausted h

theorem Keeps.ordering (h : s.Keeps) (a b : Nat) : (s.ordering a b).Keeps := Preserves.ordering h a b

variable {rank : Nat → Nat}

theorem Succeeds.charged (h : s.Succeeds rank) : s.charged.Succeeds rank := by
  intro p e hp
  unfold Search.charged
  split
  · exact h p _ hp
  · exact .inr rfl

theorem Succeeds.orElse_left (h : s.Succeeds rank) (k : t.Keeps) : (s.orElse t).Succeeds rank := by
  intro p e hp
  have hs := h p e hp
  unfold Search.orElse
  split
  · exact .inl rfl
  · rename_i e' hr
    rw [hr] at hs
    rcases hs with hs | hs
    · cases hs
    · exact .inr (k p e' hs)

theorem Succeeds.orElse_right (h : t.Succeeds rank) : (s.orElse t).Succeeds rank := by
  intro p e hp
  unfold Search.orElse
  split
  · exact .inl rfl
  · exact h p _ hp

theorem Succeeds.ordering (h : s.Succeeds rank) {a b : Nat} (hab : rank a < rank b) :
    (s.ordering a b).Succeeds rank := by
  intro p e hp
  unfold Search.ordering
  split
  · rename_i hr
    rcases hp b a hr with rfl | hba
    · omega
    · omega
  · exact h _ e (hp.add hab)

end Search

theorem protect_keeps (h : next.Keeps) (consumer supplier : Nat) (threats : List Nat) :
    (protect consumer supplier next threats).Keeps :=
  protect_preserves closed_exhausted h consumer supplier threats

theorem link_keeps (h : next.Keeps) (need : Need) (suppliers : List Nat) :
    (link need next suppliers).Keeps :=
  link_preserves closed_exhausted h need suppliers

theorem support_keeps (needs : List Need) : (support needs).Keeps :=
  support_preserves closed_exhausted needs

section Ranked

variable {rank : Nat → Nat}

/-- Under a rank, no remover at `r` comes between the supplier and the consumer. -/
def Outside (rank : Nat → Nat) (consumer supplier r : Nat) : Prop :=
  r = consumer ∨ r = supplier ∨ rank r < rank supplier ∨ rank consumer < rank r

/-- Under a rank, some supplier precedes the consumer and no remover comes between. -/
def Met (rank : Nat → Nat) (need : Need) : Prop :=
  ∃ s ∈ need.suppliers, rank s < rank need.consumer ∧
    ∀ r ∈ need.removers, Outside rank need.consumer s r

theorem protect_succeeds (h : next.Succeeds rank) (k : next.Keeps) {consumer supplier : Nat}
    {threats : List Nat} (ht : ∀ r ∈ threats, Outside rank consumer supplier r) :
    (protect consumer supplier next threats).Succeeds rank := by
  induction threats with
  | nil => exact h
  | cons r threats ih =>
    replace ih := ih fun q hq => ht q (List.mem_cons_of_mem _ hq)
    have kr := (protect_keeps k consumer supplier threats).charged
    intro p e hp
    simp only [protect]
    split
    · exact ih p e hp
    · rename_i hset
      -- The rank says which of the two edges is safe; if it is the second, the first may do no harm.
      rcases ht r List.mem_cons_self with rfl | rfl | hr | hr
      · simp [Precedence.settled] at hset
      · simp [Precedence.settled] at hset
      · exact (ih.charged.ordering hr).orElse_right p e hp
      · exact (ih.charged.ordering hr).orElse_left (kr.ordering r supplier) p e hp

theorem link_succeeds (h : next.Succeeds rank) (k : next.Keeps) {need : Need} {suppliers : List Nat}
    (hs : ∃ s ∈ suppliers, rank s < rank need.consumer ∧
      ∀ r ∈ need.removers, Outside rank need.consumer s r) :
    (link need next suppliers).Succeeds rank := by
  induction suppliers with
  | nil =>
    obtain ⟨s, hs, -⟩ := hs
    cases hs
  | cons q suppliers ih =>
    obtain ⟨s, hs, hlt, hout⟩ := hs
    rcases List.mem_cons.1 hs with rfl | hs
    · exact ((protect_succeeds h k hout).charged.ordering hlt).orElse_left
        (link_keeps k need suppliers)
    · exact (ih ⟨s, hs, hlt, hout⟩).orElse_right

theorem support_succeeds {needs : List Need} (hn : ∀ need ∈ needs, Met rank need) :
    (support needs).Succeeds rank := by
  induction needs with
  | nil => exact fun _ _ _ => .inl rfl
  | cons need needs ih =>
    replace ih := ih fun n hm => hn n (List.mem_cons_of_mem _ hm)
    exact link_succeeds ih (support_keeps needs) (hn need List.mem_cons_self)

end Ranked

/-! ## When nothing is found -/

theorem link_blames {need : Need} {suppliers : List Nat}
    (h : (link need next suppliers p e).1 = none) :
    (link need next suppliers p e).2.unsupported.isSome = true := by
  induction suppliers generalizing e with
  | nil => cases hu : e.unsupported <;> simp [link, Effort.blame, hu]
  | cons s suppliers ih =>
    rw [link, Search.orElse] at h ⊢
    split at h
    · cases h
    · exact ih h

theorem support_blames {needs : List Need} (h : (support needs p e).1 = none) :
    (support needs p e).2.unsupported.isSome = true := by
  cases needs with
  | nil => cases h
  | cons need needs => exact link_blames h

end Trellis.Planner
