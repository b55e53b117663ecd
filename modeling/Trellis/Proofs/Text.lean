/-
  Trellis.Proofs.Text — what cutting text up and trimming it come to.

  The pieces of a text are the only ones that hold no separator and give the text again when they
  are put together with one between each two (`cut_iff`); so texts that are joined by a separator
  have the pieces of the one and then those of the other (`splitAt_append`). The trimmed text is the
  only part that neither begins nor ends with a blank and has nothing but blanks around it
  (`trimmed_trim`, `trim_of_trimmed`).
-/
import Mathlib.Data.List.TakeWhile
import Trellis.Text.Blank

namespace Trellis.Text

variable {sep : Char} {cs text core : List Char} {pieces : List (List Char)}

/-! ## Pieces -/

/-- Joined by the separator the pieces are the text, and none of them holds the separator. -/
structure Cut (sep : Char) (text : List Char) (pieces : List (List Char)) : Prop where
  joined : [sep].intercalate pieces = text
  apart : ∀ piece ∈ pieces, sep ∉ piece
  occupied : pieces ≠ []

theorem splitAt_eq_splitOn (sep : Char) (cs : List Char) : splitAt sep cs = cs.splitOn sep := by
  induction cs with
  | nil => rw [splitAt, List.splitOn_nil]
  | cons c cs ih =>
    rw [splitAt, List.splitOn_cons_eq_if_modifyHead, ih]
    by_cases h : c = sep
    · rw [if_pos h, if_pos (beq_iff_eq.2 h)]
    · rw [if_neg h, if_neg (by simpa using h)]
      cases hcs : cs.splitOn sep with
      | nil => exact absurd hcs (List.splitOn_ne_nil sep cs)
      | cons piece pieces => rfl

theorem not_mem_of_mem_splitAt {piece : List Char} (h : piece ∈ splitAt sep cs) : sep ∉ piece := by
  induction cs generalizing piece with
  | nil =>
    rw [List.mem_singleton.1 h]
    exact List.not_mem_nil
  | cons c cs ih =>
    rw [splitAt] at h
    split at h
    · rcases List.mem_cons.1 h with rfl | h
      · exact List.not_mem_nil
      · exact ih h
    · rename_i hc
      split at h
      · rw [List.mem_singleton.1 h, List.mem_singleton]
        exact Ne.symm hc
      · rename_i first pieces hpieces
        rcases List.mem_cons.1 h with rfl | h
        · rw [List.mem_cons, not_or]
          exact ⟨Ne.symm hc, ih (hpieces ▸ List.mem_cons_self)⟩
        · exact ih (hpieces ▸ List.mem_cons_of_mem _ h)

theorem cut_iff : Cut sep text pieces ↔ pieces = splitAt sep text := by
  constructor
  · intro h
    rw [splitAt_eq_splitOn, ← h.joined, List.splitOn_intercalate sep h.apart h.occupied]
  · rintro rfl
    refine ⟨?_, fun piece => not_mem_of_mem_splitAt, ?_⟩
    · rw [splitAt_eq_splitOn, List.intercalate_splitOn]
    · rw [splitAt_eq_splitOn]
      exact List.splitOn_ne_nil sep text

theorem splitAt_append (sep : Char) (xs ys : List Char) :
    splitAt sep (xs ++ sep :: ys) = splitAt sep xs ++ splitAt sep ys := by
  simp only [splitAt_eq_splitOn, List.splitOn_append_cons_self]

/-! ## Trimming -/

/-- All blank. -/
def Blanks (cs : List Char) : Prop := ∀ c ∈ cs, isBlank c = true

/-- The part has only blanks around it in the text, and has none at its ends. -/
structure Trimmed (text core : List Char) : Prop where
  around : ∃ before after, Blanks before ∧ Blanks after ∧ text = before ++ (core ++ after)
  first : ∀ c ∈ core.head?, isBlank c = false
  last : ∀ c ∈ core.getLast?, isBlank c = false

theorem trimStart_blanks_append {before : List Char} (h : Blanks before) (cs : List Char) :
    trimStart (before ++ cs) = trimStart cs :=
  List.dropWhile_append_of_pos h

theorem trimStart_eq_self (h : ∀ c ∈ cs.head?, isBlank c = false) : trimStart cs = cs := by
  cases cs with
  | nil => rfl
  | cons c cs => exact List.dropWhile_cons_of_neg (by simp [h c rfl])

theorem exists_blanks_trimStart (cs : List Char) :
    ∃ before, Blanks before ∧ cs = before ++ trimStart cs :=
  ⟨cs.takeWhile isBlank, fun _ => List.mem_takeWhile_imp, List.takeWhile_append_dropWhile.symm⟩

theorem head_trimStart (cs : List Char) : ∀ c ∈ (trimStart cs).head?, isBlank c = false := by
  intro c hc
  have h := List.head?_dropWhile_not isBlank cs
  rw [trimStart, Option.mem_def] at hc
  rwa [hc] at h

theorem exists_blanks_trimEnd (cs : List Char) :
    ∃ after, Blanks after ∧ cs = trimEnd cs ++ after := by
  obtain ⟨before, hblanks, hcs⟩ := exists_blanks_trimStart cs.reverse
  refine ⟨before.reverse, fun c hc => hblanks c (List.mem_reverse.1 hc), ?_⟩
  rw [trimEnd, ← List.reverse_append, ← hcs, List.reverse_reverse]

theorem trimmed_trim (text : List Char) : Trimmed text (trim text) := by
  obtain ⟨before, hbefore, htext⟩ := exists_blanks_trimStart text
  obtain ⟨after, hafter, hstart⟩ := exists_blanks_trimEnd (trimStart text)
  refine ⟨⟨before, after, hbefore, hafter, ?_⟩, fun c hc => ?first, fun c hc => ?last⟩
  · rw [trim, ← hstart, ← htext]
  case first =>
    refine head_trimStart text c ?_
    rw [hstart, List.head?_append]
    rw [trim, Option.mem_def] at hc
    rw [hc]
    rfl
  case last =>
    rw [trim, trimEnd, List.getLast?_reverse] at hc
    exact head_trimStart _ c hc

theorem trim_of_trimmed (h : Trimmed text core) : trim text = core := by
  obtain ⟨before, after, hbefore, hafter, rfl⟩ := h.around
  cases core with
  | nil =>
    have hblank : trimStart after = [] := List.dropWhile_eq_nil_iff.2 hafter
    rw [trim, trimStart_blanks_append hbefore, List.nil_append, hblank]
    rfl
  | cons c core =>
    have hfirst : ∀ d ∈ (c :: core ++ after).head?, isBlank d = false := h.first
    have hlast : ∀ d ∈ (c :: core).reverse.head?, isBlank d = false := by
      rw [List.head?_reverse]
      exact h.last
    have hafter' : Blanks after.reverse := fun d hd => hafter d (List.mem_reverse.1 hd)
    rw [trim, trimStart_blanks_append hbefore, trimStart_eq_self hfirst, trimEnd, List.reverse_append,
      trimStart_blanks_append hafter', trimStart_eq_self hlast, List.reverse_reverse]

end Trellis.Text
