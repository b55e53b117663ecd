/-
  Trellis.Proofs.Store — what each write leaves of the tags and of the markers of a node.

  Inserting, removing and dropping change the tags of one node and say so; writing markers
  changes no tags, and writing tags no markers. The lemmas on lists of writes,
  `mem_tags_foldl_tagAll` and `mem_tags_foldl_removeTags`, are what committing and seeding are
  made of.
-/
import Trellis.Session

namespace Trellis

namespace Sorted

variable {α κ : Type} [Ord κ] [DecidableEq κ] [Std.TransOrd κ] {key : α → κ}

/-- One entry a key: the last with a key is the first with it. -/
theorem find?_reverse (s : Sorted key) (k : κ) :
    (s.toList.reverse.find? fun a => key a = k) = s.find? k := by
  cases h : s.find? k with
  | none =>
    have hnone := find?_eq_none.1 h
    rw [List.find?_eq_none]
    intro a ha
    rw [decide_eq_true_eq]
    exact hnone a (List.mem_reverse.1 ha)
  | some a =>
    obtain ⟨ha, rfl⟩ := find?_eq_some.1 h
    cases h' : s.toList.reverse.find? fun b => key b = key a with
    | none =>
      rw [List.find?_eq_none] at h'
      exact absurd (decide_eq_true rfl) (h' a (List.mem_reverse.2 ha))
    | some b =>
      have hkey : key b = key a := by simpa using List.find?_some h'
      rw [eq_of_key_eq (List.mem_reverse.1 (List.mem_of_find?_eq_some h')) ha hkey]

variable [Std.LawfulEqOrd κ]

/-- Of the entries inserted under a key the last one stays. -/
theorem find?_insertAll (s : Sorted key) (as : List α) (k : κ) :
    (s.insertAll as).find? k = (as.reverse.find? fun a => key a = k).or (s.find? k) := by
  induction as generalizing s with
  | nil => rfl
  | cons a as ih =>
    rw [insertAll, List.foldl_cons, ← insertAll, ih, find?_insert, List.reverse_cons,
      List.find?_append, Option.or_assoc, List.find?_singleton]
    by_cases h : key a = k
    · rw [if_pos h, if_pos (decide_eq_true h), Option.some_or]
    · rw [if_neg h, if_neg (by simpa using h), Option.none_or]

/-- What is collected from a list with one entry a key can be looked up in the list. -/
theorem find?_ofList {as : List α} (h : (as.map key).Nodup) (k : κ) :
    (ofList as : Sorted key).find? k = as.find? fun a => key a = k := by
  have hempty : (∅ : Sorted key).find? k = none := rfl
  rw [ofList, find?_insertAll, hempty, Option.or_none]
  induction as with
  | nil => rfl
  | cons a as ih =>
    obtain ⟨hfirst, hrest⟩ := List.nodup_cons.1 h
    rw [List.reverse_cons, List.find?_append, ih hrest, List.find?_singleton, List.find?_cons]
    by_cases e : key a = k
    · subst e
      have hnone : (as.find? fun b => key b = key a) = none := by
        refine List.find?_eq_none.2 fun b hb hkey => hfirst ?_
        rw [← of_decide_eq_true hkey]
        exact List.mem_map_of_mem hb
      simp [hnone]
    · simp [e]

omit [DecidableEq κ] in
theorem ofList_append (as bs : List α) :
    (ofList (as ++ bs) : Sorted key) = (ofList as).insertAll bs :=
  List.foldl_append

/-- Entries may be collected before they are inserted. -/
theorem find?_insertAll_ofList (s : Sorted key) (as : List α) (k : κ) :
    (s.insertAll (ofList as : Sorted key).toList).find? k = (s.insertAll as).find? k := by
  have hempty : (∅ : Sorted key).find? k = none := rfl
  rw [find?_insertAll, find?_reverse, ofList, find?_insertAll, find?_insertAll, hempty, Option.or_none]

end Sorted

namespace OrdMap

variable {κ β : Type} [Ord κ] [DecidableEq κ] [Std.TransOrd κ] [Std.LawfulEqOrd κ] {m : OrdMap κ β}

omit [Std.LawfulEqOrd κ] in
theorem get?_eq_some {k : κ} {v : β} : get? m k = some v ↔ (k, v) ∈ m := by
  rw [get?, Option.map_eq_some_iff]
  constructor
  · rintro ⟨a, ha, rfl⟩
    obtain ⟨hmem, rfl⟩ := Sorted.find?_eq_some.1 ha
    exact hmem
  · exact fun ha => ⟨(k, v), Sorted.find?_eq_some.2 ⟨ha, rfl⟩, rfl⟩

omit [Std.LawfulEqOrd κ] in
theorem ext {m m' : OrdMap κ β} (h : ∀ k, get? m k = get? m' k) : m = m' :=
  Sorted.ext_mem fun (k, v) => by rw [← get?_eq_some, ← get?_eq_some, h]

theorem get?_set (m : OrdMap κ β) (k k' : κ) (v : β) :
    get? (set m k v) k' = if k = k' then some v else get? m k' := by
  rw [get?, set, Sorted.find?_insert]
  split
  · rfl
  · rfl

theorem get?_adjust (m : OrdMap κ β) (k k' : κ) (f : β → β) :
    get? (adjust m k f) k' = if k = k' then (get? m k').map f else get? m k' := by
  rw [adjust]
  split
  · rename_i v hv
    rw [get?_set]
    split
    · rename_i e
      rw [← e, hv, Option.map_some]
    · rfl
  · rename_i hv
    split
    · rename_i e
      rw [← e, hv, Option.map_none]
    · rfl

omit [Std.LawfulEqOrd κ] in
theorem get?_erase (m : OrdMap κ β) (k k' : κ) :
    get? (m.erase k) k' = if k = k' then none else get? m k' := by
  rw [get?, Sorted.find?_erase]
  split
  · rfl
  · rfl

omit [Std.LawfulEqOrd κ] in
theorem get?_eraseAll (m : OrdMap κ β) (ks : List κ) (k : κ) :
    get? (m.eraseAll ks) k = if k ∈ ks then none else get? m k := by
  induction ks generalizing m with
  | nil => rfl
  | cons k' ks ih =>
    rw [Sorted.eraseAll, List.foldl_cons, ← Sorted.eraseAll, ih, get?_erase]
    by_cases hmem : k ∈ ks
    · rw [if_pos hmem, if_pos (List.mem_cons_of_mem _ hmem)]
    · by_cases h : k' = k
      · rw [if_neg hmem, if_pos h, if_pos (by simp [h])]
      · rw [if_neg hmem, if_neg h, if_neg (by simp [hmem, Ne.symm h])]

end OrdMap

namespace Store

variable {τ : Type} [MarkerFamily τ] {s : Store τ} {m n : NodeId} {t u : Tag}

theorem tags_write (s : Store τ) (m n : NodeId) (f : Entry τ → Entry τ) :
    tags (write s m f) n = if m = n then (f (entry s n)).tags else tags s n := by
  unfold tags
  rw [entry, lookup, write, OrdMap.get?_set]
  split
  · rename_i e
    rw [e]
    rfl
  · rfl

theorem tags_amend (s : Store τ) (m n : NodeId) (f : Entry τ → Entry τ) :
    tags (amend s m f) n =
      if m = n then (((lookup s n).map f).getD ⟨∅, ∅⟩).tags else tags s n := by
  rw [tags, entry, lookup, amend, OrdMap.get?_adjust]
  split
  · rfl
  · rfl

/-! ## Tags -/

theorem mem_tags_insertTag : u ∈ tags (insertTag s m t) n ↔ m = n ∧ u = t ∨ u ∈ tags s n := by
  rw [insertTag, tags_write]
  split
  · rename_i e
    rw [OrdSet.mem_insert]
    simp [e, tags]
  · rename_i e
    simp [e]

theorem mem_tags_removeTag : u ∈ tags (removeTag s m t) n ↔ u ∈ tags s n ∧ ¬ (m = n ∧ u = t) := by
  rw [removeTag, tags_amend]
  split
  · rename_i e
    rw [tags, entry]
    cases lookup s n with
    | none => simp [Sorted.not_mem_empty]
    | some entry => simp [e, OrdSet.mem_erase]
  · rename_i e
    simp [e]

theorem mem_tags_drop : u ∈ tags (drop s m) n ↔ u ∈ tags s n ∧ m ≠ n := by
  rw [tags, entry, lookup, drop, OrdMap.get?_erase]
  split
  · rename_i e
    simp [e, Sorted.not_mem_empty]
  · rename_i e
    simp [e, tags, entry, lookup]

/-! ## Markers -/

/-- A write that leaves the tags of the entry as they are leaves those of every node. -/
theorem tags_write_eq {f : Entry τ → Entry τ} (hf : ∀ e, (f e).tags = e.tags) (s : Store τ)
    (m n : NodeId) : tags (write s m f) n = tags s n := by
  rw [tags_write]
  split
  · exact hf _
  · rfl

theorem tags_amend_eq {f : Entry τ → Entry τ} (hf : ∀ e, (f e).tags = e.tags) (s : Store τ)
    (m n : NodeId) : tags (amend s m f) n = tags s n := by
  rw [tags_amend]
  split
  · rw [tags, entry]
    cases lookup s n with
    | none => rfl
    | some e => exact hf e
  · rfl

theorem tags_putMarker (s : Store τ) (m n : NodeId) (x : Marker τ) :
    tags (putMarker s m x).2 n = tags s n := by
  apply tags_write_eq
  intro e
  rfl

theorem tags_takeMarker (s : Store τ) (m n : NodeId) (t : τ) :
    tags (takeMarker s m t).2 n = tags s n := by
  apply tags_amend_eq
  intro e
  rfl

@[simp] theorem tags_applyChanges (s : Store τ) (m n : NodeId) (cs : MarkerChanges τ) :
    tags (applyChanges s m cs) n = tags s n := by
  apply tags_write_eq
  intro e
  rfl

@[simp] theorem tags_clearMarker (s : Store τ) (m n : NodeId) (kind : String) :
    tags (clearMarker s m kind) n = tags s n := by
  apply tags_amend_eq
  intro e
  rfl

theorem markers_write (s : Store τ) (m n : NodeId) (f : Entry τ → Entry τ) :
    markers (write s m f) n = if m = n then (f (entry s n)).markers else markers s n := by
  unfold markers
  rw [entry, lookup, write, OrdMap.get?_set]
  split
  · rename_i e
    rw [e]
    rfl
  · rfl

theorem markers_amend (s : Store τ) (m n : NodeId) (f : Entry τ → Entry τ) :
    markers (amend s m f) n =
      if m = n then (((lookup s n).map f).getD ⟨∅, ∅⟩).markers else markers s n := by
  rw [markers, entry, lookup, amend, OrdMap.get?_adjust]
  split
  · rfl
  · rfl

theorem markers_applyChanges (s : Store τ) (m n : NodeId) (cs : MarkerChanges τ) :
    markers (applyChanges s m cs) n = if m = n then (markers s n).changeAll cs else markers s n :=
  markers_write s m n _

theorem markers_clearMarker (s : Store τ) (m n : NodeId) (kind : String) :
    markers (clearMarker s m kind) n = if m = n then (markers s n).erase kind else markers s n := by
  rw [clearMarker, markers_amend, markers, entry]
  cases lookup s n with
  | none => rfl
  | some e => rfl

@[simp] theorem markers_insertTag (s : Store τ) (m n : NodeId) (t : Tag) :
    markers (insertTag s m t) n = markers s n := by
  rw [insertTag, markers_write]
  split
  · rfl
  · rfl

@[simp] theorem markers_removeTag (s : Store τ) (m n : NodeId) (t : Tag) :
    markers (removeTag s m t) n = markers s n := by
  rw [removeTag, markers_amend, markers, entry]
  cases lookup s n with
  | none => simp
  | some e => simp

/-- Writes none of which changes the markers of a node. -/
theorem markers_foldl {β : Type} {f : Store τ → β → Store τ} {l : List β}
    (hf : ∀ s b, markers (f s b) n = markers s n) (s : Store τ) :
    markers (l.foldl f s) n = markers s n := by
  induction l generalizing s with
  | nil => rfl
  | cons b l ih => rw [List.foldl_cons, ih, hf]

end Store

/-! ## Lists of writes -/

namespace Session

variable {τ : Type} [MarkerFamily τ] {s : Store τ} {n : NodeId} {t u : Tag}

theorem mem_tags_tagAll {nodes : List NodeId} :
    u ∈ Store.tags (tagAll s nodes t) n ↔ n ∈ nodes ∧ u = t ∨ u ∈ Store.tags s n := by
  rw [tagAll]
  induction nodes generalizing s with
  | nil => simp
  | cons m nodes ih =>
    rw [List.foldl_cons, ih, Store.mem_tags_insertTag, List.mem_cons]
    grind

theorem mem_tags_foldl_removeTag {nodes : List NodeId} :
    u ∈ Store.tags (nodes.foldl (fun store n => Store.removeTag store n t) s) n ↔
      u ∈ Store.tags s n ∧ ¬ (n ∈ nodes ∧ u = t) := by
  induction nodes generalizing s with
  | nil => simp
  | cons m nodes ih =>
    rw [List.foldl_cons, ih, Store.mem_tags_removeTag, List.mem_cons]
    grind

/-- Putting several tags on the nodes each belongs to. -/
theorem mem_tags_foldl_tagAll {tags : List Tag} {nodes : Tag → List NodeId} :
    u ∈ Store.tags (tags.foldl (fun store t => tagAll store (nodes t) t) s) n ↔
      u ∈ tags ∧ n ∈ nodes u ∨ u ∈ Store.tags s n := by
  induction tags generalizing s with
  | nil => simp
  | cons t tags ih =>
    rw [List.foldl_cons, ih, mem_tags_tagAll, List.mem_cons]
    grind

/-- Taking several tags off the nodes each belongs to. -/
theorem mem_tags_foldl_removeTags {tags : List Tag} {nodes : Tag → List NodeId} :
    u ∈ Store.tags (tags.foldl (fun store t =>
        (nodes t).foldl (fun store n => Store.removeTag store n t) store) s) n ↔
      u ∈ Store.tags s n ∧ ¬ (u ∈ tags ∧ n ∈ nodes u) := by
  induction tags generalizing s with
  | nil => simp
  | cons t tags ih =>
    rw [List.foldl_cons, ih, mem_tags_foldl_removeTag, List.mem_cons]
    grind

end Session

theorem FactSet.mem_tags {fs : FactSet} {t : Tag} : t ∈ FactSet.tags fs ↔ Fact.tag t ∈ fs := by
  rw [FactSet.tags, List.mem_filterMap]
  constructor
  · intro h
    obtain ⟨f, hf, ht⟩ := h
    cases f with
    | tag u =>
      cases ht
      exact hf
    | marker k => cases ht
  · intro h
    exact ⟨.tag t, h, rfl⟩

theorem FactSet.mem_markers {fs : FactSet} {k : String} :
    k ∈ FactSet.markers fs ↔ Fact.marker k ∈ fs := by
  rw [FactSet.markers, List.mem_filterMap]
  constructor
  · intro h
    obtain ⟨f, hf, hk⟩ := h
    cases f with
    | tag u => cases hk
    | marker k' =>
      cases hk
      exact hf
  · intro h
    exact ⟨.marker k, h, rfl⟩

theorem FactSet.mem_tagsOf {fs : FactSet} {t : Tag} {k : Kind} :
    t ∈ FactSet.tagsOf fs k ↔ t.scope = k ∧ Fact.tag t ∈ fs := by
  rw [FactSet.tagsOf, List.mem_filter, FactSet.mem_tags, decide_eq_true_eq, and_comm]

end Trellis
