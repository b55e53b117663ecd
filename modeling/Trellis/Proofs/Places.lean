/-
  Trellis.Proofs.Places — what stands where in a list without repetitions.

  In `before ++ a :: after` the places smaller than that of `a` are those of `before`, and the
  larger ones those of `after`. If entries of a list have a property, one of them is the last that
  has it (`exists_last`).
-/
namespace Trellis

variable {α β : Type} [DecidableEq α] {before after l : List α} {a b : α}

theorem idxOf_middle (h : (before ++ a :: after).Nodup) :
    (before ++ a :: after).idxOf a = before.length := by
  have ha : a ∉ before := by
    intro hm
    exact (List.nodup_append.1 h).2.2 a hm a List.mem_cons_self rfl
  rw [List.idxOf_append, if_neg ha]
  simp

theorem mem_before_iff (h : (before ++ a :: after).Nodup) :
    b ∈ before ↔ (before ++ a :: after).idxOf b < (before ++ a :: after).idxOf a := by
  rw [idxOf_middle h, List.idxOf_append]
  constructor
  · intro hb
    rw [if_pos hb]
    exact List.idxOf_lt_length_of_mem hb
  · intro hlt
    refine Classical.byContradiction fun hb => ?_
    rw [if_neg hb] at hlt
    omega

theorem lt_of_mem_after (h : (before ++ a :: after).Nodup) (hb : b ∈ after) :
    (before ++ a :: after).idxOf a < (before ++ a :: after).idxOf b := by
  obtain ⟨-, ha, hdisj⟩ := List.nodup_append.1 h
  have hbefore : b ∉ before := fun hm => hdisj b hm b (List.mem_cons_of_mem _ hb) rfl
  have hne : a ≠ b := by
    intro e
    exact (List.nodup_cons.1 ha).1 (e ▸ hb)
  have hbeq : (a == b) = false := by simpa using hne
  rw [idxOf_middle h, List.idxOf_append, if_neg hbefore, List.idxOf_cons, hbeq]
  simp

omit [DecidableEq α] in
theorem exists_last {P : α → Prop} (h : ∃ x ∈ l, P x) :
    ∃ pre x rest, l = pre ++ x :: rest ∧ P x ∧ ∀ y ∈ rest, ¬ P y := by
  induction l with
  | nil =>
    obtain ⟨x, hx, -⟩ := h
    cases hx
  | cons a l ih =>
    by_cases hl : ∃ x ∈ l, P x
    · obtain ⟨pre, x, rest, rfl, hx, hno⟩ := ih hl
      exact ⟨a :: pre, x, rest, rfl, hx, hno⟩
    · obtain ⟨x, hx, hp⟩ := h
      rcases List.mem_cons.1 hx with rfl | hx
      · exact ⟨[], x, l, rfl, hp, fun y hy hy' => hl ⟨y, hy, hy'⟩⟩
      · exact absurd ⟨x, hx, hp⟩ hl

omit [DecidableEq α] in
/-- Taking the entries of a list at all its places, and at places beyond, gives it back. -/
theorem filterMap_getElem?_range (l : List α) (n : Nat) :
    (List.range (l.length + n)).filterMap (l[·]?) = l := by
  induction l with
  | nil => simp
  | cons a l ih =>
    rw [List.length_cons, Nat.add_right_comm, List.range_succ_eq_map, List.filterMap_cons,
      List.filterMap_map]
    simpa [Function.comp_def] using ih

omit [DecidableEq α] in
theorem eq_take_cons_drop {i : Nat} (h : l[i]? = some a) : l = l.take i ++ a :: l.drop (i + 1) := by
  obtain ⟨hi, rfl⟩ := List.getElem?_eq_some_iff.1 h
  rw [List.getElem_cons_drop, List.take_append_drop]

omit [DecidableEq α] in
theorem eq_of_getElem?_of_nodup {f : α → β} (h : (l.map f).Nodup) {i j : Nat} (hi : l[i]? = some a)
    (hj : l[j]? = some b) (hab : f a = f b) : i = j := by
  have hli := (List.getElem?_eq_some_iff.1 hi).1
  exact (List.getElem?_inj (by simpa using hli) h).1 (by simp [hi, hj, hab])

end Trellis
