/-
  Trellis.Proofs.Features — what a list of feature switches sets.

  An item names a feature and turns it on or off (`Names`), and this is what is read off it
  (`parseItem_eq_some`). Of the items that name a feature the last one decides (`get?_parse`).

  Proved: a list mentions exactly the features that its items name, turns on those whose last
  mention turns them on, and a list put after another overwrites what that one sets
  (`last_mention_wins`).
-/
import Mathlib.Data.List.Induction
import Trellis.Feature
import Trellis.Proofs.Places
import Trellis.Proofs.Store
import Trellis.Proofs.Text

namespace Trellis.Features

open Text (Cut Trimmed)

variable {item : List Char} {name : String} {on : Bool}

/-! ## Items -/

/-- The item names the feature, and turns it on or, with a dash before the name, off. A second dash
    is part of the name. -/
inductive Names (item : List Char) : String → Bool → Prop
  | plain {name : List Char} : Trimmed item name → name ≠ [] → name.head? ≠ some '-' →
      Names item (String.ofList name) true
  | dashed {name : List Char} : Trimmed item ('-' :: name) → Names item (String.ofList name) false

theorem parseItem_eq_some : parseItem item = some (name, on) ↔ Names item name on := by
  constructor
  · intro h
    have htrimmed := Text.trimmed_trim item
    unfold parseItem at h
    split at h
    · cases h
    · rename_i rest hrest
      cases h
      exact .dashed (hrest ▸ htrimmed)
    · rename_i hne hdash
      cases h
      refine .plain htrimmed hne fun hhead => ?_
      obtain ⟨rest, hrest⟩ := List.head?_eq_some_iff.1 hhead
      exact hdash rest hrest
  · rintro (⟨htrimmed, hne, hhead⟩ | ⟨htrimmed⟩)
    · unfold parseItem
      rw [Text.trim_of_trimmed htrimmed]
      split
      · exact absurd rfl hne
      · exact absurd rfl hhead
      · rfl
    · unfold parseItem
      rw [Text.trim_of_trimmed htrimmed]
      rfl

/-! ## The last mention -/

/-- The last of the items that names the feature turns it on or off so. -/
def LastMention (items : List (List Char)) (name : String) (on : Bool) : Prop :=
  ∃ earlier item later, items = earlier ++ item :: later ∧ Names item name on ∧
    ∀ x ∈ later, ∀ on, ¬ Names x name on

variable {items : List (List Char)}

theorem lastMention_concat :
    LastMention (items ++ [item]) name on ↔
      Names item name on ∨ (∀ on, ¬ Names item name on) ∧ LastMention items name on := by
  constructor
  · rintro ⟨earlier, x, later, hitems, hx, hlater⟩
    rcases List.eq_nil_or_concat later with rfl | ⟨later, y, rfl⟩
    · obtain ⟨-, h⟩ := List.append_inj' hitems rfl
      cases h
      exact .inl hx
    · rw [List.concat_eq_append, ← List.cons_append, ← List.append_assoc] at hitems
      obtain ⟨rfl, h⟩ := List.append_inj' hitems rfl
      cases h
      rw [List.concat_eq_append] at hlater
      exact .inr ⟨hlater item (by simp), earlier, x, later, rfl, hx,
        fun z hz => hlater z (List.mem_append_left _ hz)⟩
  · rintro (h | ⟨hnone, earlier, x, later, rfl, hx, hlater⟩)
    · exact ⟨items, item, [], rfl, h, fun x hx => absurd hx List.not_mem_nil⟩
    · refine ⟨earlier, x, later ++ [item], by simp, hx, ?_⟩
      rw [List.forall_mem_append]
      refine ⟨hlater, fun y hy => ?_⟩
      rw [List.mem_singleton.1 hy]
      exact hnone

theorem exists_lastMention :
    (∃ on, LastMention items name on) ↔ ∃ item ∈ items, ∃ on, Names item name on := by
  constructor
  · rintro ⟨on, earlier, item, later, rfl, h, -⟩
    exact ⟨item, by simp, on, h⟩
  · intro h
    obtain ⟨earlier, item, later, rfl, ⟨on, hon⟩, hlater⟩ := exists_last h
    exact ⟨on, earlier, item, later, rfl, hon, fun x hx on hx' => hlater x hx ⟨on, hx'⟩⟩

theorem get?_filterMap_parseItem :
    OrdMap.get? (Sorted.ofList (items.filterMap parseItem) : Features) name = some on ↔
      LastMention items name on := by
  induction items using List.reverseRecOn with
  | nil =>
    constructor
    · intro h
      cases h
    · rintro ⟨earlier, item, later, hitems, -⟩
      simp at hitems
  | append_singleton items item ih =>
    rw [lastMention_concat, List.filterMap_append, Sorted.ofList_append]
    simp only [← parseItem_eq_some]
    cases hitem : parseItem item with
    | none =>
      have hset : [item].filterMap parseItem = [] := by simp [hitem]
      rw [hset]
      simpa [Sorted.insertAll] using ih
    | some e =>
      obtain ⟨n, o⟩ := e
      have hset : [item].filterMap parseItem = [(n, o)] := by simp [hitem]
      have hget := OrdMap.get?_set (Sorted.ofList (items.filterMap parseItem) : Features) n name o
      rw [hset]
      refine (Eq.congr_left hget).trans ?_
      by_cases hn : n = name
      · simp [hn]
      · simp [hn, ih]

/-! ## Lists -/

/-- The first with all that the second sets. -/
def overwrite (fs gs : Features) : Features := gs.toList.foldl (fun fs e => set fs e.1 e.2) fs

theorem get?_parse (text : String) :
    OrdMap.get? (parse text) name = some on ↔ LastMention (Text.splitAt ',' text.toList) name on :=
  get?_filterMap_parseItem

theorem parse_append (a b : String) : parse (a ++ "," ++ b) = overwrite (parse a) (parse b) := by
  have hitems : parseItems (a ++ "," ++ b) = parseItems a ++ parseItems b := by
    simp only [parseItems, String.toList_append, List.append_assoc]
    exact (congrArg _ (Text.splitAt_append ',' a.toList b.toList)).trans List.filterMap_append
  have hover : overwrite (parse a) (parse b) = (parse a).insertAll (parse b).toList := rfl
  refine OrdMap.ext fun name => ?_
  rw [hover, OrdMap.get?, OrdMap.get?, parse, parse, parse, hitems, Sorted.ofList_append,
    Sorted.find?_insertAll_ofList]

/-- The items of a list are cut up at its commas in one way only. It mentions the features that they
    name, and turns on those that the last of them to name it turns on; and put after another list
    it overwrites what that one sets. -/
theorem last_mention_wins (a b : String) :
    ∃ items, Cut ',' a.toList items ∧ (∀ other, Cut ',' a.toList other → other = items) ∧
      (∀ name, (parse a).hasKey name = true ↔ ∃ item ∈ items, ∃ on, Names item name on) ∧
      (∀ name, isEnabled (parse a) name = true ↔ LastMention items name true) ∧
      parse (a ++ "," ++ b) = overwrite (parse a) (parse b) := by
  refine ⟨Text.splitAt ',' a.toList, Text.cut_iff.2 rfl, fun other => Text.cut_iff.1,
    fun name => ?mentioned, fun name => ?enabled, parse_append a b⟩
  case mentioned =>
    rw [← exists_lastMention]
    simp only [← get?_parse]
    rw [← Option.isSome_iff_exists, OrdMap.get?, Option.isSome_map]
    exact Iff.rfl
  case enabled =>
    rw [← get?_parse, isEnabled]
    cases OrdMap.get? (parse a) name with
    | none => simp
    | some on => simp

end Trellis.Features
