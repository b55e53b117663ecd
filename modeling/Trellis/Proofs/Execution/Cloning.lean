/-
  Trellis.Proofs.Execution.Cloning — what an invocation sees of the markers of a copy.

  A cloning takes the markers of each node as the invocation sees them, committed ones under what it
  has staged, makes of each what its type has it (`ClonePolicy.apply`), and stages the result for the
  copy. That is what the invocation then sees there, since nothing else is kept under the number of
  a copy: neither in the store nor in the overlay is anything under a number that has not been given
  out (`Numbered`). Every request keeps it so, those that reach past the rules among them, as long as
  they store on nodes only (`Numbered.answer`).

  - `clones_follow_policy`: so it is for every cloning in the course of an invocation, and for
    another one right after it.
-/
import Trellis.Proofs.Execution.Housekeeping
import Trellis.Proofs.Execution.Staging
import Trellis.Proofs.Tree.Copies

namespace Trellis

open Trellis.Tree

/-- What a policy makes for `copy` of a payload on `source`. -/
def ClonePolicy.apply (source copy : NodeId) : ClonePolicy → Payload → Option Payload
  | .copy, payload => some payload
  | .drop, _ => none
  | .regenerate rule, payload => rule source copy payload

/-- What becomes of a collection, entry by entry, is found under the keys there were. -/
theorem Sorted.find?_ofList_filterMap {α β κ : Type} [Ord κ] [DecidableEq κ] [Std.TransOrd κ]
    [Std.LawfulEqOrd κ] {key : α → κ} {key' : β → κ} {g : α → Option β} (s : Sorted key)
    (hg : ∀ a, ∀ b ∈ g a, key' b = key a) (k : κ) :
    (ofList (s.toList.filterMap g) : Sorted key').find? k = (s.find? k).bind g := by
  have lookup : (ofList (s.toList.filterMap g) : Sorted key').find? k =
      (s.toList.filterMap g).reverse.find? fun b => key' b = k := by
    rw [ofList, find?_insertAll]
    exact Option.or_none
  -- Whatever is found comes from the one entry with the key.
  have source {b : β} (hb : b ∈ (s.toList.filterMap g).reverse) (hk : key' b = k) :
      ∃ a, s.find? k = some a ∧ g a = some b := by
    obtain ⟨a, ha, hab⟩ := List.mem_filterMap.1 (List.mem_reverse.1 hb)
    exact ⟨a, find?_eq_some.2 ⟨ha, (hg a b hab).symm.trans hk⟩, hab⟩
  rw [lookup]
  cases hfind : (s.toList.filterMap g).reverse.find? fun b => key' b = k with
  | some b =>
    obtain ⟨a, ha, hab⟩ := source (List.mem_of_find?_eq_some hfind) (by simpa using List.find?_some hfind)
    rw [ha, Option.bind_some, hab]
  | none =>
    refine (Option.bind_eq_none_iff.2 fun a ha => Option.eq_none_iff_forall_ne_some.2 fun b hab => ?_).symm
    obtain ⟨hmem, rfl⟩ := find?_eq_some.1 ha
    have hb : b ∈ (s.toList.filterMap g).reverse := List.mem_reverse.2 (List.mem_filterMap.2 ⟨a, hmem, hab⟩)
    exact List.find?_eq_none.1 hfind b hb (decide_eq_true (hg a b hab))

variable {τ : Type} [MarkerFamily τ] {α : Type}

namespace Marker

theorem forCopy_eq (source copy : NodeId) (m : Marker τ) : m.forCopy source copy =
    ((MarkerFamily.onClone m.type).apply source copy m.payload).map (⟨m.type, ·⟩) := by
  rw [forCopy]
  cases MarkerFamily.onClone m.type with
  | copy | drop | regenerate => rfl

theorem kind_of_forCopy {source copy : NodeId} {m m' : Marker τ} (h : m' ∈ m.forCopy source copy) :
    m'.kind = m.kind := by
  rw [forCopy_eq] at h
  obtain ⟨payload, -, rfl⟩ := Option.mem_map.1 h
  rfl

end Marker

namespace Markers

/-- Through a type the copy shows what the policy of the type makes of what the source shows. -/
theorem get_forCopy (ms : Markers τ) (source copy : NodeId) (t : τ) : (ms.forCopy source copy).get t =
    (ms.get t).bind ((MarkerFamily.onClone t).apply source copy) := by
  rw [get, forCopy, Sorted.find?_ofList_filterMap ms fun m m' => Marker.kind_of_forCopy, get]
  cases ms.find? (MarkerFamily.kind t) with
  | none => rfl
  | some m =>
    rw [Option.bind_some, Option.bind_some, Marker.forCopy_eq, Option.bind_map]
    by_cases htype : m.type = t
    · subst htype
      simp [Marker.as?, Function.comp_def]
    · simp [Marker.as?, Function.comp_def, htype]

theorem get?_asChanges_eq (ms : Markers τ) (k : String) :
    OrdMap.get? ms.asChanges k = (ms.find? k).map some := by
  rw [asChanges, OrdMap.get?, ← List.filterMap_eq_map,
    Sorted.find?_ofList_filterMap ms fun m c hc => by cases hc; rfl]
  cases ms.find? k with
  | none => rfl
  | some m => rfl

theorem keyed_asChanges (ms : Markers τ) : ms.asChanges.Keyed := by
  intro kind change hchange m hm
  rw [get?_asChanges_eq] at hchange
  obtain ⟨m', hm', rfl⟩ := Option.map_eq_some_iff.1 hchange
  cases hm
  exact (Sorted.find?_eq_some.1 hm').2

end Markers

/-! ## Requests that store on nodes -/

/-- What is stored past the rules of the invocation is stored on a node. -/
def Request.StoresOnNode (inv : Invocation τ) : Request τ → Prop
  | .store n _ => inv.session.tree.contains n = true
  | _ => True

/-- So it is for all requests of the work, in the state that each finds. -/
def Work.StoresOnNodes (site : Site) : Work τ α → Invocation τ → Prop
  | .done _, _ => True
  | .ask r next, inv => r.StoresOnNode inv ∧
      (next (r.answer site inv).1).StoresOnNodes site (r.answer site inv).2

theorem Work.Proper.storesOnNodes {work : Work τ α} (h : work.Proper) (site : Site) (inv : Invocation τ) :
    work.StoresOnNodes site inv := by
  induction work generalizing inv with
  | done a => trivial
  | ask r next ih =>
    refine ⟨?_, ih _ (h.2 _) _⟩
    cases r with
    | store => exact h.1.elim
    | _ => trivial

namespace Invocation

variable {s : Session τ} {target n m copy parent source : NodeId} {inv after : Invocation τ} {site : Site}
  {pairs : List (NodeId × NodeId)} {gone : List NodeId}

/-! ## What a cloning stages -/

theorem changes_copyMarkers_of_ne (inv : Invocation τ) {pair : NodeId × NodeId} (h : pair.2 ≠ n) :
    (inv.copyMarkers pair).changes n = inv.changes n := by
  unfold copyMarkers
  dsimp only
  split
  · rfl
  · rw [changes_stageAll, if_neg h]

theorem markers_copyMarkers_of_ne (inv : Invocation τ) {pair : NodeId × NodeId} (h : pair.2 ≠ n) :
    (inv.copyMarkers pair).markers n = inv.markers n := by
  have hsession : (inv.copyMarkers pair).session = inv.session := (foldl_copyMarkers [pair] inv).1
  rw [markers, markers, changes_copyMarkers_of_ne inv h, hsession]

theorem changes_foldl_of_not_mem (hn : n ∉ pairs.map Prod.snd) (inv : Invocation τ) :
    (pairs.foldl copyMarkers inv).changes n = inv.changes n := by
  induction pairs generalizing inv with
  | nil => rfl
  | cons pair pairs ih =>
    obtain ⟨hne, hn⟩ := not_or.1 (mt List.mem_cons.2 hn)
    rw [List.foldl_cons, ih hn, changes_copyMarkers_of_ne inv (Ne.symm hne)]

/-- For each copy the markers of its source are staged, each as its type has it. -/
theorem changes_foldl_of_mem (inv : Invocation τ) (hnew : ∀ pair ∈ pairs, inv.changes pair.2 = ∅)
    (hsingle : (pairs.map Prod.snd).Nodup) (hsources : ∀ a ∈ pairs, ∀ b ∈ pairs, a.1 ≠ b.2)
    (hpair : (m, copy) ∈ pairs) : (pairs.foldl copyMarkers inv).changes copy =
      ((inv.markers m).forCopy m copy).asChanges := by
  induction pairs generalizing inv with
  | nil => cases hpair
  | cons pair pairs ih =>
    obtain ⟨hfirst, hnew⟩ := List.forall_mem_cons.1 hnew
    obtain ⟨hfresh, hsingle⟩ := List.nodup_cons.1 hsingle
    rw [List.foldl_cons]
    rcases List.mem_cons.1 hpair with rfl | hpair
    · rw [changes_foldl_of_not_mem hfresh, changes_copyMarkers inv hfirst, if_pos rfl]
    · have hne : pair.2 ≠ m := (hsources _ (List.mem_cons_of_mem _ hpair) _ List.mem_cons_self).symm
      rw [ih _ ?new hsingle ?sources hpair, markers_copyMarkers_of_ne inv hne]
      case new =>
        intro b hb
        rw [changes_copyMarkers_of_ne inv fun e => hfresh (e ▸ List.mem_map_of_mem hb), hnew b hb]
      case sources =>
        exact fun a ha b hb => hsources a (List.mem_cons_of_mem _ ha) b (List.mem_cons_of_mem _ hb)

/-! ## Numbers under which markers are kept -/

/-- Markers are kept, in the store and in the overlay, only under numbers that have been given out,
    the target's among them; and what is staged under a kind is of that kind. -/
structure Numbered (target : NodeId) (inv : Invocation τ) : Prop where
  wellFormed : inv.session.tree.WellFormed
  target : target < inv.session.tree.next
  staged : ∀ change ∈ inv.staged.markers, change.1 < inv.session.tree.next
  keyed : ∀ n, (inv.changes n).Keyed
  stored : ∀ entry ∈ inv.session.store, entry.1 < inv.session.tree.next

theorem numbered_start (hs : s.tree.WellFormed) (hstore : s.Housed) (ht : s.tree.contains target = true)
    (notes : List Note) : Numbered target ⟨s, .none, notes⟩ where
  wellFormed := hs
  target := hs.lt_next_of_contains ht
  staged change hc := absurd hc (Sorted.not_mem_empty change)
  keyed _ _ _ hchange := nomatch hchange
  stored entry he := hs.lt_next_of_contains (hstore entry he)

namespace Numbered

variable (h : Numbered target inv)

include h

/-- The tree may be edited, and under the numbers it then has given out more may be kept. -/
theorem keep (hwf : after.session.tree.WellFormed) (hnext : inv.session.tree.next ≤ after.session.tree.next)
    (hstaged : ∀ change ∈ after.staged.markers,
      change ∈ inv.staged.markers ∨ change.1 < after.session.tree.next)
    (hkeyed : ∀ n, after.changes n = inv.changes n ∨ (after.changes n).Keyed)
    (hstored : ∀ entry ∈ after.session.store,
      entry ∈ inv.session.store ∨ entry.1 < after.session.tree.next) : Numbered target after where
  wellFormed := hwf
  target := Nat.lt_of_lt_of_le h.target hnext
  staged change hc := (hstaged change hc).elim
    (fun hc => Nat.lt_of_lt_of_le (h.staged change hc) hnext) id
  keyed n := (hkeyed n).elim (fun e => e ▸ h.keyed n) id
  stored entry he := (hstored entry he).elim
    (fun he => Nat.lt_of_lt_of_le (h.stored entry he) hnext) id

/-- An edit of the tree that stages and stores nothing. -/
theorem edit {tree : Tree} (he : inv.session.tree.Edit tree) (htree : after.session.tree = tree)
    (hstaged : after.staged.markers = inv.staged.markers) (hstore : after.session.store = inv.session.store) :
    Numbered target after := by
  obtain ⟨hwf, hnext⟩ := h.wellFormed.edit he
  subst htree
  refine h.keep hwf hnext (fun c hc => .inl (hstaged ▸ hc)) (fun n => .inl (changes_congr hstaged n)) ?_
  exact fun entry hentry => .inl (hstore ▸ hentry)

theorem stage (ho : inv.session.tree.isWithin n target = true) {kind : String}
    {change : Option (Marker τ)} (hc : ∀ m ∈ change, Marker.kind m = kind) :
    Numbered target (inv.stage n kind change) := by
  refine h.keep h.wellFormed (Nat.le_refl _) (fun c hc => ?_) (fun m => .inr ?_) fun _ he => .inl he
  · refine (mem_markers_stageAll hc).imp_right fun e => ?_
    rw [e]
    exact (h.wellFormed.inside_of_isWithin h.target ho).1
  · intro kind' change' hchange'
    rw [changes_stage] at hchange'
    rcases Option.or_eq_some_iff.1 hchange' with hlast | ⟨-, hold⟩
    · exact Staging.keyed_of_last? (fun e he => by cases List.mem_singleton.1 he; exact hc) hlast
    · exact h.keyed m kind' change' hold

theorem marker_of_next_le (hn : inv.session.tree.next ≤ n) (t : τ) :
    Store.marker inv.session.store n t = none := by
  have absent : Store.lookup inv.session.store n = none :=
    Store.lookup_eq_none.2 fun entry he e => Nat.not_lt.2 hn (e ▸ h.stored entry he)
  rw [Store.marker, Store.markers, Store.entry, absent]
  rfl

/-- What a cloning does to the overlay. -/
theorem changes_clone (he : inv.clone site source parent = .ok (copy, after)) :
    copy = inv.session.tree.next ∧ ∃ pairs,
      inv.session.tree.clone source parent = .ok (pairs, after.session.tree) ∧
      after.session.store = inv.session.store ∧
      (∀ m c, (m, c) ∈ pairs → after.changes c = ((inv.markers m).forCopy m c).asChanges) ∧
      ∀ n, n ∉ pairs.map Prod.snd → after.changes n = inv.changes n := by
  obtain ⟨-, pairs', hedit, hstore, -⟩ := clone_ok he
  obtain ⟨_, -, he⟩ := bind_eq_ok.1 he
  obtain ⟨⟨pairs, tree⟩, hpairs, he⟩ := bind_eq_ok.1 he
  obtain ⟨rfl, -⟩ := Prod.mk.inj (Except.ok.inj ((onTree_ok hpairs).symm.trans hedit))
  cases he
  obtain ⟨hcopies, hsingle, hsources⟩ := h.wellFormed.copies_new hedit
  refine ⟨rfl, pairs, hedit, hstore, fun m c hmc => ?_, fun n hn => changes_foldl_of_not_mem hn _⟩
  refine changes_foldl_of_mem (inv.withTree _) (fun pair hpair => ?_) hsingle hsources hmc
  exact changes_eq_empty fun change hc e => Nat.not_lt.2 (hcopies pair hpair) (e ▸ h.staged change hc)

theorem clone (he : inv.clone site source parent = .ok (copy, after)) : Numbered target after := by
  obtain ⟨-, pairs, hedit, hstore, hcopies, hothers⟩ := h.changes_clone he
  obtain ⟨hwf, hnext⟩ := h.wellFormed.edit (.clone hedit)
  refine h.keep hwf hnext (fun c hc => ?_) (fun n => ?_) fun entry hentry => .inl (hstore ▸ hentry)
  · obtain ⟨p, -, hg⟩ := h.wellFormed.grows_clone hedit
    refine (mem_markers_clone he hedit hc).imp_right fun hin => ?_
    exact hg.wellFormed.fresh _ (hg.news _ hin)
  · by_cases hn : n ∈ pairs.map Prod.snd
    · obtain ⟨⟨m, c⟩, hmc, rfl⟩ := List.mem_map.1 hn
      exact .inr (hcopies m c hmc ▸ Markers.keyed_asChanges _)
    · exact .inl (hothers n hn)

/-- Every request keeps it so, if it stores on nodes only. -/
theorem answer (hsite : site.target = target) {r : Request τ} (hr : r.StoresOnNode inv) :
    Numbered target (r.answer site inv).2 := by
  subst hsite
  cases r with
  | put n m =>
    refine attempt_snd h fun _ after he => ?_
    obtain ⟨_, ho, he⟩ := bind_eq_ok.1 he
    cases he
    exact h.stage (checkOwned_ok ho) fun m' hm => by cases hm; rfl
  | unmark n t =>
    refine attempt_snd h fun _ after he => ?_
    obtain ⟨_, ho, he⟩ := bind_eq_ok.1 he
    cases he
    exact h.stage (checkOwned_ok ho) fun m hm => nomatch hm
  | add parent kind name =>
    refine attempt_snd h fun n after he => ?_
    obtain ⟨-, hedit, hstore, -⟩ := add_ok he
    exact h.edit (.add hedit) rfl (markers_add he) hstore
  | remove n =>
    refine attempt_snd h fun _ after he => ?_
    obtain ⟨-, -, he⟩ := bind_eq_ok.1 he
    obtain ⟨⟨gone, tree⟩, hedit, he⟩ := bind_eq_ok.1 he
    cases he
    obtain ⟨hwf, hnext⟩ := h.wellFormed.edit (.remove (onTree_ok hedit))
    refine h.keep hwf hnext (fun _ hc => .inl (mem_markers_removed hc)) (fun n => ?_) fun _ he => .inl he
    rw [changes_removed]
    split
    · exact .inr fun _ _ hchange => nomatch hchange
    · exact .inl rfl
  | clone source parent => exact attempt_snd h fun _ after he => h.clone he
  | rename n name =>
    refine attempt_snd h fun _ after he => ?_
    obtain ⟨hedit, hstore, hstaged⟩ := rename_ok he
    exact h.edit (.rename hedit) rfl (by rw [hstaged]) hstore
  | graft parent kind name =>
    refine attempt_snd h fun _ after he => ?_
    obtain ⟨⟨n, tree⟩, hedit, he⟩ := bind_eq_ok.1 he
    cases he
    exact h.edit (.add (onTree_ok hedit)) rfl rfl rfl
  | prune n =>
    refine attempt_snd h fun _ after he => ?_
    obtain ⟨⟨gone, tree⟩, hedit, he⟩ := bind_eq_ok.1 he
    cases he
    exact h.edit (.remove (onTree_ok hedit)) rfl rfl rfl
  | store n m =>
    refine h.keep h.wellFormed (Nat.le_refl _) (fun _ hc => .inl hc) (fun _ => .inl rfl) fun entry he => ?_
    rcases Sorted.mem_insert.1 he with rfl | ⟨he, -⟩
    · exact .inr (h.wellFormed.lt_next_of_contains hr)
    · exact .inl he
  | record e => exact ⟨h.wellFormed, h.target, h.staged, h.keyed, h.stored⟩
  | note n => exact ⟨h.wellFormed, h.target, h.staged, h.keyed, h.stored⟩
  | _ => exact h

end Numbered

/-- So does all work, to its end. -/
theorem Numbered.run {work : Work τ α} (h : Numbered target inv) (hsite : site.target = target)
    (hw : work.StoresOnNodes site inv) : Numbered target (work.run site inv).2 := by
  induction work generalizing inv with
  | done a => exact h
  | ask r next ih => exact ih _ (h.answer hsite hw.1) hw.2

/-! ## What is seen of a copy -/

/-- From `inv` to `after` the subtree of `source` has been copied, each copy shows through each type
    what the policy of the type makes of what its original shows, and all other nodes show what
    they did. -/
structure Copied (inv : Invocation τ) (source parent copy : NodeId) (pairs : List (NodeId × NodeId))
    (after : Invocation τ) : Prop where
  edit : inv.session.tree.clone source parent = .ok (pairs, after.session.tree)
  tree : CopyOf inv.session.tree source parent copy pairs after.session.tree
  copies : ∀ m c, (m, c) ∈ pairs → ∀ t, after.marker c t =
    (inv.marker m t).bind ((MarkerFamily.onClone t).apply m c)
  originals : ∀ m c, (m, c) ∈ pairs → ∀ t, after.marker m t = inv.marker m t
  others : ∀ n, n ∉ pairs.map Prod.snd → ∀ t, after.marker n t = inv.marker n t

theorem Numbered.copied (h : Numbered target inv) (he : inv.clone site source parent = .ok (copy, after)) :
    ∃ pairs, inv.Copied source parent copy pairs after := by
  obtain ⟨rfl, pairs, hedit, hstore, hcopies, hothers⟩ := h.changes_clone he
  have htree := h.wellFormed.copyOf_clone hedit
  obtain ⟨hnew, -, hsources⟩ := h.wellFormed.copies_new hedit
  have others : ∀ n, n ∉ pairs.map Prod.snd → ∀ t, after.marker n t = inv.marker n t := by
    intro n hn t
    rw [marker, marker, hothers n hn, hstore]
  refine ⟨pairs, hedit, htree, fun m c hmc t => ?_, fun m c hmc => others m fun hm => ?_, others⟩
  · have shown : after.marker c t = ((inv.markers m).forCopy m c).get t := by
      rw [marker, hcopies m c hmc, Markers.get?_asChanges_eq, hstore, h.marker_of_next_le (hnew _ hmc),
        Markers.get]
      cases ((inv.markers m).forCopy m c).find? (MarkerFamily.kind t) with
      | none => rfl
      | some x => rfl
    rw [shown, Markers.get_forCopy, get_markers (h.keyed m)]
  · obtain ⟨pair, hpair, e⟩ := List.mem_map.1 hm
    exact hsources _ hmc pair hpair e.symm

end Invocation

def Work.furnishing : Work StockMarker Unit :=
  .ask (.put 3 ⟨.numericLabel, .number 5⟩) fun _ => .ask (.put 3 ⟨.serial, .number 3⟩) fun _ =>
    .ask (.put 3 ⟨.scratch, .text "s"⟩) fun _ => .done ()

end Trellis
