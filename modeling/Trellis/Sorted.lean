/-
  Trellis.Sorted — collections kept in ascending order of a key, one entry a key.

  Every set and every map of the library is one of these: sets are keyed by the element
  itself (`OrdSet`), maps by the first half of a pair (`OrdMap`), and catalogs by the name of
  their entries. The order is part of the value, so two collections with the same entries are
  equal, and whatever is listed, reported or tried "in order" reads `toList`.

  Proved: inserting and erasing keep the order (`insert`, `erase`), what they do to membership
  (`mem_insert`, `mem_erase`) and to look-ups (`find?_insert`, `find?_erase`), and that
  membership determines the collection (`ext_mem`).
-/
namespace Trellis

open Std (TransOrd LawfulEqOrd)

variable {α κ : Type} [Ord κ]

/-- A list in strictly ascending order of `key`. -/
structure Sorted (key : α → κ) where
  toList : List α
  ascending : toList.Pairwise fun a b => compare (key a) (key b) = .lt

namespace Sorted

/-- Places `a` before the first larger key, and in place of an equal one. -/
def place (key : α → κ) (a : α) : List α → List α
  | [] => [a]
  | b :: bs =>
    match compare (key a) (key b) with
    | .lt => a :: b :: bs
    | .eq => a :: bs
    | .gt => b :: place key a bs

theorem ne_of_compare_lt [TransOrd κ] {a b : κ} (h : compare a b = .lt) : a ≠ b := by
  rintro rfl
  rw [Std.ReflOrd.compare_self] at h
  cases h

variable {key : α → κ}

theorem of_mem_place {a x : α} {xs : List α} (h : x ∈ place key a xs) : x = a ∨ x ∈ xs := by
  induction xs with
  | nil => simpa [place] using h
  | cons b bs ih =>
    rw [place] at h
    split at h
    · simpa using h
    · simp at h; rcases h with h | h <;> simp [h]
    · rcases List.mem_cons.1 h with h | h
      · simp [h]
      · rcases ih h with h | h <;> simp [h]

theorem place_ascending [TransOrd κ] [LawfulEqOrd κ] {xs : List α} (a : α)
    (h : xs.Pairwise fun a b => compare (key a) (key b) = .lt) :
    (place key a xs).Pairwise fun a b => compare (key a) (key b) = .lt := by
  induction xs with
  | nil => simp [place]
  | cons b bs ih =>
    obtain ⟨hb, hbs⟩ := List.pairwise_cons.1 h
    rw [place]
    split
    · rename_i hab
      refine List.pairwise_cons.2 ⟨fun x hx => ?_, h⟩
      rcases List.mem_cons.1 hx with rfl | hx
      · exact hab
      · exact Std.TransCmp.lt_trans hab (hb x hx)
    · rename_i hab
      have hab := LawfulEqOrd.eq_of_compare hab
      exact List.pairwise_cons.2 ⟨fun x hx => hab ▸ hb x hx, hbs⟩
    · rename_i hab
      refine List.pairwise_cons.2 ⟨fun x hx => ?_, ih hbs⟩
      rcases of_mem_place hx with rfl | hx
      · exact Std.OrientedCmp.lt_of_gt hab
      · exact hb x hx

protected def empty : Sorted key := ⟨[], .nil⟩

instance : EmptyCollection (Sorted key) := ⟨.empty⟩

instance : Inhabited (Sorted key) := ⟨.empty⟩

instance : Membership α (Sorted key) := ⟨fun s a => a ∈ s.toList⟩

instance [DecidableEq α] (a : α) (s : Sorted key) : Decidable (a ∈ s) :=
  inferInstanceAs (Decidable (a ∈ s.toList))

theorem ext {s t : Sorted key} (h : s.toList = t.toList) : s = t := by
  cases s; cases t; cases h; rfl

instance [DecidableEq α] : DecidableEq (Sorted key) := fun s t =>
  if h : s.toList = t.toList then isTrue (ext h) else isFalse fun e => h (e ▸ rfl)

def size (s : Sorted key) : Nat := s.toList.length

def isEmpty (s : Sorted key) : Bool := s.toList.isEmpty

/-- Adds `a`; an entry with the same key gives way to it. -/
def insert [TransOrd κ] [LawfulEqOrd κ] (s : Sorted key) (a : α) : Sorted key :=
  ⟨place key a s.toList, place_ascending a s.ascending⟩

/-- Adds the entries one after the other, so of two with one key the later stays. -/
def insertAll [TransOrd κ] [LawfulEqOrd κ] (s : Sorted key) (as : List α) : Sorted key :=
  as.foldl insert s

def ofList [TransOrd κ] [LawfulEqOrd κ] (as : List α) : Sorted key := insertAll ∅ as

/-- The entries that satisfy `p`. -/
def filter (s : Sorted key) (p : α → Bool) : Sorted key :=
  ⟨s.toList.filter p, s.ascending.filter p⟩

section Keys

variable [DecidableEq κ]

/-- The entry with key `k`. -/
def find? (s : Sorted key) (k : κ) : Option α := s.toList.find? fun a => key a = k

def hasKey (s : Sorted key) (k : κ) : Bool := (s.find? k).isSome

/-- Drops the entry with key `k`. -/
def erase (s : Sorted key) (k : κ) : Sorted key := s.filter fun a => key a ≠ k

def eraseAll (s : Sorted key) (ks : List κ) : Sorted key := ks.foldl erase s

end Keys

/-! ## Membership -/

theorem mem_toList {s : Sorted key} {a : α} : a ∈ s.toList ↔ a ∈ s := Iff.rfl

theorem not_mem_empty (a : α) : a ∉ (∅ : Sorted key) := List.not_mem_nil

theorem mem_filter {s : Sorted key} {p : α → Bool} {a : α} : a ∈ s.filter p ↔ a ∈ s ∧ p a :=
  List.mem_filter

section Order

variable [TransOrd κ] [LawfulEqOrd κ]

omit [LawfulEqOrd κ] in
/-- One entry a key. -/
theorem eq_of_key_eq {s : Sorted key} {a b : α} (ha : a ∈ s) (hb : b ∈ s) (h : key a = key b) :
    a = b := by
  obtain ⟨xs, hxs⟩ := s
  change a ∈ xs at ha
  change b ∈ xs at hb
  induction xs with
  | nil => cases ha
  | cons c cs ih =>
    obtain ⟨hc, hcs⟩ := List.pairwise_cons.1 hxs
    rcases List.mem_cons.1 ha with ea | ha <;> rcases List.mem_cons.1 hb with eb | hb
    · exact ea.trans eb.symm
    · exact absurd h (ea ▸ ne_of_compare_lt (hc b hb))
    · exact absurd h.symm (eb ▸ ne_of_compare_lt (hc a ha))
    · exact ih hcs ha hb

theorem mem_insert {s : Sorted key} {a x : α} :
    x ∈ s.insert a ↔ x = a ∨ x ∈ s ∧ key x ≠ key a := by
  obtain ⟨xs, hxs⟩ := s
  change x ∈ place key a xs ↔ x = a ∨ x ∈ xs ∧ key x ≠ key a
  induction xs with
  | nil => simp [place]
  | cons b bs ih =>
    obtain ⟨hb, hbs⟩ := List.pairwise_cons.1 hxs
    rw [place]
    split
    · rename_i hab
      have later : ∀ y ∈ b :: bs, key y ≠ key a := by
        intro y hy
        rcases List.mem_cons.1 hy with rfl | hy
        · exact (ne_of_compare_lt hab).symm
        · exact (ne_of_compare_lt (Std.TransCmp.lt_trans hab (hb y hy))).symm
      constructor
      · intro h
        rcases List.mem_cons.1 h with h | h
        · exact .inl h
        · exact .inr ⟨h, later x h⟩
      · rintro (h | h)
        · simp [h]
        · exact List.mem_cons_of_mem _ h.1
    · rename_i hab
      have hab := LawfulEqOrd.eq_of_compare hab
      have later : ∀ y ∈ bs, key y ≠ key a := fun y hy =>
        hab ▸ (ne_of_compare_lt (hb y hy)).symm
      constructor
      · intro h
        rcases List.mem_cons.1 h with h | h
        · exact .inl h
        · exact .inr ⟨List.mem_cons_of_mem _ h, later x h⟩
      · rintro (h | ⟨h, hne⟩)
        · simp [h]
        · rcases List.mem_cons.1 h with rfl | h
          · exact absurd hab.symm hne
          · exact List.mem_cons_of_mem _ h
    · rename_i hab
      rw [List.mem_cons, ih hbs, List.mem_cons]
      constructor
      · rintro (rfl | h | h)
        · exact .inr ⟨.inl rfl, ne_of_compare_lt (Std.OrientedCmp.lt_of_gt hab)⟩
        · exact .inl h
        · exact .inr ⟨.inr h.1, h.2⟩
      · rintro (h | ⟨h | h, hne⟩)
        · exact .inr (.inl h)
        · exact .inl h
        · exact .inr (.inr ⟨h, hne⟩)

omit [LawfulEqOrd κ] in
/-- Two collections with the same entries are equal. -/
theorem ext_mem {s t : Sorted key} (h : ∀ a, a ∈ s ↔ a ∈ t) : s = t := by
  apply ext
  obtain ⟨xs, hxs⟩ := s
  obtain ⟨ys, hys⟩ := t
  change xs = ys
  replace h : ∀ a, a ∈ xs ↔ a ∈ ys := h
  induction xs generalizing ys with
  | nil =>
    cases ys with
    | nil => rfl
    | cons y ys => exact absurd ((h y).2 (by simp)) (by simp)
  | cons x xs ih =>
    cases ys with
    | nil => exact absurd ((h x).1 (by simp)) (by simp)
    | cons y ys =>
      obtain ⟨hx, hxs'⟩ := List.pairwise_cons.1 hxs
      obtain ⟨hy, hys'⟩ := List.pairwise_cons.1 hys
      have absurd_of {a b : α} (h₁ : compare (key a) (key b) = .lt)
          (h₂ : compare (key b) (key a) = .lt) : False := by
        rw [Std.OrientedOrd.eq_swap, h₂] at h₁
        cases h₁
      have hxy : x = y := by
        rcases List.mem_cons.1 ((h x).1 (by simp)) with e | hxy
        · exact e
        · rcases List.mem_cons.1 ((h y).2 (by simp)) with e | hyx
          · exact e.symm
          · exact (absurd_of (hx y hyx) (hy x hxy)).elim
      subst hxy
      congr 1
      refine ih hxs' ys hys' fun a => ⟨fun ha => ?_, fun ha => ?_⟩
      · rcases List.mem_cons.1 ((h a).1 (List.mem_cons_of_mem _ ha)) with rfl | h'
        · exact (absurd_of (hx a ha) (hx a ha)).elim
        · exact h'
      · rcases List.mem_cons.1 ((h a).2 (List.mem_cons_of_mem _ ha)) with rfl | h'
        · exact (absurd_of (hy a ha) (hy a ha)).elim
        · exact h'

theorem mem_insertAll {as : List α} {s : Sorted key} {x : α}
    (hkey : ∀ a b, (a ∈ s ∨ a ∈ as) → (b ∈ s ∨ b ∈ as) → key a = key b → a = b) :
    x ∈ s.insertAll as ↔ x ∈ s ∨ x ∈ as := by
  induction as generalizing s with
  | nil => simp [insertAll]
  | cons a as ih =>
    have hmem (y : α) : y ∈ s.insert a ↔ y = a ∨ y ∈ s := by
      rw [mem_insert]
      constructor
      · exact Or.imp_right And.left
      · intro h
        by_cases he : y = a
        · exact .inl he
        · have hy := h.resolve_left he
          exact .inr ⟨hy, fun hk => he (hkey y a (.inl hy) (.inr List.mem_cons_self) hk)⟩
    have into (y : α) (hy : y ∈ s.insert a ∨ y ∈ as) : y ∈ s ∨ y ∈ a :: as := by
      rw [hmem] at hy
      rcases hy with (rfl | hy) | hy
      · exact .inr List.mem_cons_self
      · exact .inl hy
      · exact .inr (List.mem_cons_of_mem _ hy)
    rw [insertAll, List.foldl_cons, ← insertAll,
      ih fun y z hy hz => hkey y z (into y hy) (into z hz), hmem, List.mem_cons, or_comm (a := x = a),
      or_assoc]

/-- Listing entries of different keys in another order loses none. -/
theorem mem_ofList {as : List α} {x : α} (hkey : ∀ a ∈ as, ∀ b ∈ as, key a = key b → a = b) :
    x ∈ (ofList as : Sorted key) ↔ x ∈ as := by
  rw [ofList, mem_insertAll]
  · exact or_iff_right (not_mem_empty x)
  · intro a b ha hb
    exact hkey a (ha.resolve_left (not_mem_empty a)) b (hb.resolve_left (not_mem_empty b))

section Find

variable [DecidableEq κ]

omit [TransOrd κ] [LawfulEqOrd κ] in
theorem find?_eq_none {s : Sorted key} {k : κ} : s.find? k = none ↔ ∀ a ∈ s, key a ≠ k := by
  rw [find?, List.find?_eq_none]
  simp [mem_toList]

omit [LawfulEqOrd κ] in
theorem find?_eq_some {s : Sorted key} {k : κ} {a : α} : s.find? k = some a ↔ a ∈ s ∧ key a = k := by
  constructor
  · intro h
    exact ⟨List.mem_of_find?_eq_some h, by simpa using List.find?_some h⟩
  · rintro ⟨ha, rfl⟩
    cases h : s.find? (key a) with
    | none => exact absurd rfl (find?_eq_none.1 h a ha)
    | some b =>
      have hb : key b = key a := by simpa using List.find?_some h
      rw [eq_of_key_eq (List.mem_of_find?_eq_some h) ha hb]

theorem find?_insert (s : Sorted key) (a : α) (k : κ) :
    (s.insert a).find? k = if key a = k then some a else s.find? k := by
  split
  · rename_i h
    exact find?_eq_some.2 ⟨mem_insert.2 (.inl rfl), h⟩
  · rename_i h
    cases e : s.find? k with
    | none =>
      refine find?_eq_none.2 fun x hx => ?_
      rcases mem_insert.1 hx with rfl | hx
      · exact h
      · exact find?_eq_none.1 e x hx.1
    | some b =>
      obtain ⟨hb, rfl⟩ := find?_eq_some.1 e
      exact find?_eq_some.2 ⟨mem_insert.2 (.inr ⟨hb, Ne.symm h⟩), rfl⟩

omit [LawfulEqOrd κ] in
theorem find?_erase (s : Sorted key) (k k' : κ) :
    (s.erase k).find? k' = if k = k' then none else s.find? k' := by
  split
  · rename_i h
    refine find?_eq_none.2 fun x hx => ?_
    simpa [h] using (mem_filter.1 hx).2
  · rename_i h
    cases e : s.find? k' with
    | none => exact find?_eq_none.2 fun x hx => find?_eq_none.1 e x (mem_filter.1 hx).1
    | some b =>
      obtain ⟨hb, rfl⟩ := find?_eq_some.1 e
      exact find?_eq_some.2 ⟨mem_filter.2 ⟨hb, by simpa using Ne.symm h⟩, rfl⟩

end Find

end Order

end Sorted

/-! ## Sets and maps -/

/-- A set: each element is its own key. -/
abbrev OrdSet (α : Type) [Ord α] := Sorted (id : α → α)

/-- A map from `κ`: pairs with their first half as the key. -/
abbrev OrdMap (κ β : Type) [Ord κ] := Sorted (Prod.fst : κ × β → κ)

namespace OrdSet

variable [TransOrd κ] [LawfulEqOrd κ]

theorem mem_insert {s : OrdSet κ} {a x : κ} : x ∈ s.insert a ↔ x = a ∨ x ∈ s := by
  rw [Sorted.mem_insert]
  constructor
  · rintro (h | h)
    · exact .inl h
    · exact .inr h.1
  · rintro (h | h)
    · exact .inl h
    · by_cases e : x = a
      · exact .inl e
      · exact .inr ⟨h, e⟩

theorem mem_insertAll {s : OrdSet κ} {as : List κ} {x : κ} :
    x ∈ s.insertAll as ↔ x ∈ as ∨ x ∈ s := by
  induction as generalizing s with
  | nil => simp [Sorted.insertAll]
  | cons a as ih =>
    rw [Sorted.insertAll, List.foldl_cons, ← Sorted.insertAll, ih, mem_insert, List.mem_cons]
    grind

theorem mem_ofList {as : List κ} {x : κ} : x ∈ (Sorted.ofList as : OrdSet κ) ↔ x ∈ as := by
  rw [Sorted.ofList, mem_insertAll]
  exact or_iff_left (Sorted.not_mem_empty x)

omit [LawfulEqOrd κ] in
theorem nodup (s : OrdSet κ) : s.toList.Nodup := s.ascending.imp Sorted.ne_of_compare_lt

omit [TransOrd κ] [LawfulEqOrd κ] in
theorem mem_erase [DecidableEq κ] {s : OrdSet κ} {a x : κ} : x ∈ s.erase a ↔ x ∈ s ∧ x ≠ a := by
  simp [Sorted.erase, Sorted.mem_filter]

omit [TransOrd κ] [LawfulEqOrd κ] in
theorem mem_eraseAll [DecidableEq κ] {s : OrdSet κ} {as : List κ} {x : κ} :
    x ∈ s.eraseAll as ↔ x ∈ s ∧ x ∉ as := by
  induction as generalizing s with
  | nil => simp [Sorted.eraseAll]
  | cons a as ih =>
    rw [Sorted.eraseAll, List.foldl_cons, ← Sorted.eraseAll, ih, mem_erase, List.mem_cons]
    grind

end OrdSet

namespace OrdMap

variable {β : Type} [DecidableEq κ]

/-- The value at `k`. -/
def get? (m : OrdMap κ β) (k : κ) : Option β := (m.find? k).map Prod.snd

variable [TransOrd κ] [LawfulEqOrd κ]

/-- Binds `k` to `v`. -/
def set (m : OrdMap κ β) (k : κ) (v : β) : OrdMap κ β := m.insert (k, v)

/-- Changes the value at `k`, if there is one. -/
def adjust (m : OrdMap κ β) (k : κ) (f : β → β) : OrdMap κ β :=
  match get? m k with
  | some v => set m k (f v)
  | none => m

end OrdMap

end Trellis
