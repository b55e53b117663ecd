/-
  Trellis.Proofs.Tree.Routes — the routes that a set of adapters has.

  Adapters lead from kind to kind (`AdapterSet.Leads`). The search for routes keeps a queue of
  those that are still to be extended, the shortest first and none two adapters shorter than one
  that was found (`Layered`, kept by `Layered.extend`). So wherever an adapter leads from an extended
  route, a route has been found that is at most one adapter longer, and in the end this holds of
  every route; hence there is one to every kind that adapters lead to, and no path there is shorter
  (`exists_route_of_leads`). What has been found leads where it says (`leads_of_mem_routes`), and
  each kind is found once, by a route that passes no kind twice (`Simple`).

  Following adapters that do what is asked of them from the root leads to live nodes that are
  pairwise apart (`Adapters.Lawful.apart_expandRoot`); those that give outermost nodes do
  (`AdapterSet.lawful`).
-/
import Trellis.Proofs.Tree.Subtrees

namespace Trellis

namespace AdapterSet

variable {as : AdapterSet} {queue found : List Route} {r : Route} {source k : Kind} {a : Adapter}

/-! ## Routes lead where they say -/

/-- The chain of the route leads from the program to its kind. -/
def Sound (as : AdapterSet) (r : Route) : Prop := as.Leads .program r.chain r.kind

theorem Leads.concat {chain : List Adapter} (h : as.Leads source chain a.source) (ha : a ∈ as) :
    as.Leads source (chain ++ [a]) a.target := by
  induction chain generalizing source with
  | nil => exact ⟨ha, h.symm, rfl⟩
  | cons b chain ih =>
    obtain ⟨hb, hsource, hchain⟩ := h
    exact ⟨hb, hsource, ih hchain⟩

theorem sound_extensions (hr : as.Sound r) : ∀ e ∈ as.extensions r found, as.Sound e := by
  intro e he
  obtain ⟨a, ha, rfl⟩ := List.mem_map.1 he
  obtain ⟨hmem, ha⟩ := List.mem_filter.1 ha
  rw [Bool.and_eq_true, decide_eq_true_eq] at ha
  refine Leads.concat ?_ hmem
  rw [ha.1]
  exact hr

theorem explore_sound (hqueue : ∀ r ∈ queue, as.Sound r) (hfound : ∀ r ∈ found, as.Sound r) :
    ∀ r ∈ as.explore queue found, as.Sound r := by
  fun_induction as.explore queue found with
  | case1 => exact hfound
  | case2 r queue found new ih =>
    obtain ⟨hr, hqueue⟩ := List.forall_mem_cons.1 hqueue
    have hnew : ∀ e ∈ as.extensions r found, as.Sound e := sound_extensions hr
    exact ih (List.forall_mem_append.2 ⟨hqueue, hnew⟩) (List.forall_mem_append.2 ⟨hfound, hnew⟩)

theorem leads_of_mem_routes (h : r ∈ as.routes) : as.Leads .program r.chain r.kind := by
  have hstart : ∀ r ∈ [(⟨.program, []⟩ : Route)], as.Sound r := by
    intro r hr
    rw [List.mem_singleton.1 hr]
    exact rfl
  exact explore_sound hstart hstart r h

/-! ## Every kind that adapters lead to has a route, and none is shorter -/

/-- Wherever an adapter leads from the end of the route, a route has been found to, at most that
    adapter longer. -/
def Extended (as : AdapterSet) (found : List Route) (r : Route) : Prop :=
  ∀ a ∈ as, a.source = r.kind →
    ∃ e ∈ found, e.kind = a.target ∧ e.chain.length ≤ r.chain.length + 1

theorem Extended.mono {more : List Route} (h : as.Extended found r) (hsub : found ⊆ more) :
    as.Extended more r := by
  intro a ha hsource
  obtain ⟨e, he, hkind⟩ := h a ha hsource
  exact ⟨e, hsub he, hkind⟩

theorem extended_extensions (hnear : ∀ e ∈ found, e.chain.length ≤ r.chain.length + 1) :
    as.Extended (found ++ as.extensions r found) r := by
  intro a ha hsource
  by_cases hold : ∃ e ∈ found, e.kind = a.target
  · obtain ⟨e, he, hkind⟩ := hold
    exact ⟨e, List.mem_append_left _ he, hkind, hnear e he⟩
  · have hnew : found.all (·.kind ≠ a.target) = true :=
      List.all_eq_true.2 fun e he => decide_eq_true fun hkind => hold ⟨e, he, hkind⟩
    have hmem : (⟨a.target, r.chain ++ [a]⟩ : Route) ∈ as.extensions r found :=
      List.mem_map.2 ⟨a, List.mem_filter.2 ⟨ha, by rw [hnew, hsource]; simp⟩, rfl⟩
    exact ⟨_, List.mem_append_right _ hmem, rfl, by simp⟩

theorem length_of_mem_extensions {e : Route} (h : e ∈ as.extensions r found) :
    e.chain.length = r.chain.length + 1 := by
  obtain ⟨a, -, rfl⟩ := List.mem_map.1 h
  simp

/-- The search goes layer by layer: the queue ascends in length, and spans at most one step. -/
structure Layered (as : AdapterSet) (queue found : List Route) : Prop where
  queued : queue ⊆ found
  ascending : queue.Pairwise fun r e => r.chain.length ≤ e.chain.length
  near : ∀ e ∈ found, ∀ r ∈ queue, e.chain.length ≤ r.chain.length + 1
  extended : ∀ r ∈ found, r ∈ queue ∨ as.Extended found r

theorem Layered.extend (h : as.Layered (r :: queue) found) :
    as.Layered (queue ++ as.extensions r found) (found ++ as.extensions r found) := by
  obtain ⟨hfirst, hrest⟩ := List.pairwise_cons.1 h.ascending
  have hsub : found ⊆ found ++ as.extensions r found := List.subset_append_left _ _
  have hnear : ∀ e ∈ found, e.chain.length ≤ r.chain.length + 1 :=
    fun e he => h.near e he r List.mem_cons_self
  have hqueue : ∀ e ∈ queue, e ∈ found := fun e he => h.queued (List.mem_cons_of_mem r he)
  refine ⟨?queued, ?ascending, ?near, ?extended⟩
  case queued =>
    intro e he
    rcases List.mem_append.1 he with he | he
    · exact hsub (hqueue e he)
    · exact List.mem_append_right _ he
  case ascending =>
    refine List.pairwise_append.2 ⟨hrest, ?_, fun q hq e he => ?_⟩
    · refine List.pairwise_of_forall_mem_list fun q hq e he => ?_
      rw [length_of_mem_extensions hq, length_of_mem_extensions he]
    · rw [length_of_mem_extensions he]
      exact hnear q (hqueue q hq)
  case near =>
    -- What is found is at most one longer than `r`, and what is queued at least as long.
    have hlong : ∀ e ∈ found ++ as.extensions r found, e.chain.length ≤ r.chain.length + 1 := by
      intro e he
      rcases List.mem_append.1 he with he | he
      · exact hnear e he
      · exact Nat.le_of_eq (length_of_mem_extensions he)
    have hshort : ∀ q ∈ queue ++ as.extensions r found, r.chain.length ≤ q.chain.length := by
      intro q hq
      rcases List.mem_append.1 hq with hq | hq
      · exact hfirst q hq
      · rw [length_of_mem_extensions hq]
        exact Nat.le_succ _
    exact fun e he q hq => Nat.le_trans (hlong e he) (Nat.succ_le_succ (hshort q hq))
  case extended =>
    intro e he
    rcases List.mem_append.1 he with he | he
    · rcases h.extended e he with hq | hext
      · rcases List.mem_cons.1 hq with rfl | hq
        · exact .inr (extended_extensions hnear)
        · exact .inl (List.mem_append_left _ hq)
      · exact .inr (hext.mono hsub)
    · exact .inl (List.mem_append_right _ he)

/-- Nothing found is lost, and in the end every route found has been extended. -/
theorem Layered.explore (h : as.Layered queue found) :
    found ⊆ as.explore queue found ∧
      ∀ r ∈ as.explore queue found, as.Extended (as.explore queue found) r := by
  fun_induction as.explore queue found with
  | case1 found =>
    exact ⟨List.Subset.refl _, fun r hr => (h.extended r hr).resolve_left List.not_mem_nil⟩
  | case2 r queue found new ih =>
    obtain ⟨hkept, hclosed⟩ := ih h.extend
    exact ⟨List.Subset.trans (List.subset_append_left _ _) hkept, hclosed⟩

theorem layered_start (as : AdapterSet) : as.Layered [⟨.program, []⟩] [⟨.program, []⟩] where
  queued := List.Subset.refl _
  ascending := List.pairwise_singleton _ _
  near e he r hr := by
    rw [List.mem_singleton.1 he, List.mem_singleton.1 hr]
    exact Nat.zero_le _
  extended _ hr := .inl hr

theorem start_mem_routes : (⟨.program, []⟩ : Route) ∈ as.routes :=
  as.layered_start.explore.1 List.mem_cons_self

/-- Adapters that lead on from a route lead to the end of one no longer than both together. -/
theorem exists_route_of_leads {path : List Adapter} (h : as.Leads source path k) (hr : r ∈ as.routes)
    (hsource : r.kind = source) :
    ∃ e ∈ as.routes, e.kind = k ∧ e.chain.length ≤ r.chain.length + path.length := by
  induction path generalizing source r with
  | nil => exact ⟨r, hr, hsource.trans h, Nat.le_refl _⟩
  | cons a path ih =>
    obtain ⟨ha, rfl, hpath⟩ := h
    obtain ⟨e, he, hkind, hlen⟩ := as.layered_start.explore.2 r hr a ha hsource.symm
    obtain ⟨e', he', hk, hlen'⟩ := ih hpath he hkind
    exact ⟨e', he', hk, by rw [List.length_cons]; omega⟩

/-! ## Each kind has one route, which passes no kind twice -/

/-- The kinds that a chain from the program passes. -/
def passes (chain : List Adapter) : List Kind := .program :: chain.map Adapter.target

/-- No kind is found twice, and a route passes kinds that were found, none of them twice. -/
structure Simple (found : List Route) : Prop where
  distinct : (found.map Route.kind).Nodup
  passed : ∀ r ∈ found, (passes r.chain).Nodup ∧ passes r.chain ⊆ found.map Route.kind

theorem eq_of_ends {a b : Adapter} (hsource : a.source = b.source) (htarget : a.target = b.target) :
    a = b := by
  cases a
  cases b
  cases hsource
  cases htarget
  rfl

theorem nodup_extensions (as : AdapterSet) (r : Route) (found : List Route) :
    ((as.extensions r found).map Route.kind).Nodup := by
  have hsource {a : Adapter} (ha : a ∈ as.toList.filter fun a =>
      a.source = r.kind && found.all (·.kind ≠ a.target)) : a.source = r.kind := by
    simpa using (Bool.and_eq_true_iff.1 (List.mem_filter.1 ha).2).1
  rw [extensions, List.map_map]
  exact ((OrdSet.nodup as).filter _).map_on fun a ha b hb htarget =>
    eq_of_ends ((hsource ha).trans (hsource hb).symm) htarget

theorem Simple.extend (h : Simple found) (hr : r ∈ found) :
    Simple (found ++ as.extensions r found) := by
  have hnew : ∀ e ∈ as.extensions r found, e.kind ∉ found.map Route.kind := by
    intro e he hk
    obtain ⟨d, hd, hk⟩ := List.mem_map.1 hk
    exact of_decide_eq_true (List.all_eq_true.1 (not_found_of_mem_extensions as he) d hd) hk
  refine ⟨?distinct, fun e he => ?_⟩
  case distinct =>
    rw [List.map_append]
    refine List.nodup_append.2 ⟨h.distinct, nodup_extensions as r found, ?_⟩
    intro k hk k' hk' heq
    obtain ⟨e, he, rfl⟩ := List.mem_map.1 hk'
    exact hnew e he (heq ▸ hk)
  have hsub : found.map Route.kind ⊆ (found ++ as.extensions r found).map Route.kind :=
    List.map_subset _ (List.subset_append_left _ _)
  rcases List.mem_append.1 he with he | he
  · obtain ⟨honce, hfound⟩ := h.passed e he
    exact ⟨honce, List.Subset.trans hfound hsub⟩
  · obtain ⟨honce, hfound⟩ := h.passed r hr
    have hkind : e.kind ∈ (found ++ as.extensions r found).map Route.kind :=
      List.mem_map.2 ⟨e, List.mem_append_right _ he, rfl⟩
    have hfresh := hnew e he
    obtain ⟨a, -, rfl⟩ := List.mem_map.1 he
    have hpasses : passes (r.chain ++ [a]) = passes r.chain ++ [a.target] := by simp [passes]
    rw [hpasses]
    refine ⟨List.nodup_append.2 ⟨honce, List.nodup_singleton _, ?_⟩, ?_⟩
    · intro k hk k' hk' heq
      rw [List.mem_singleton.1 hk'] at heq
      exact hfresh (hfound (heq ▸ hk))
    · refine List.append_subset.2 ⟨List.Subset.trans hfound hsub, ?_⟩
      intro k hk
      rw [List.mem_singleton.1 hk]
      exact hkind

theorem Simple.explore (hqueue : queue ⊆ found) (h : Simple found) :
    Simple (as.explore queue found) := by
  fun_induction as.explore queue found with
  | case1 => exact h
  | case2 r queue found new ih =>
    obtain ⟨hr, hqueue⟩ := List.cons_subset.1 hqueue
    have hsub : queue ++ new ⊆ found ++ new :=
      List.append_subset.2 ⟨List.subset_append_of_subset_left _ hqueue, List.subset_append_right _ _⟩
    exact ih hsub (h.extend hr)

theorem simple_routes (as : AdapterSet) : Simple as.routes := by
  refine Simple.explore (List.Subset.refl _) ⟨List.nodup_singleton _, fun r hr => ?_⟩
  rw [List.mem_singleton.1 hr]
  exact ⟨List.nodup_singleton _, List.Subset.refl _⟩

/-! ## Chains -/

theorem chain_eq_ok {chain : List Adapter} : as.chain k = .ok chain ↔ ⟨k, chain⟩ ∈ as.routes := by
  rw [AdapterSet.chain]
  constructor
  · intro h
    split at h
    · rename_i r hfind
      cases h
      have hkind : r.kind = k := by simpa using List.find?_some hfind
      exact hkind ▸ List.mem_of_find?_eq_some hfind
    · cases h
  · intro h
    cases hfind : as.routes.find? (·.kind = k) with
    | none => exact absurd (decide_eq_true rfl) (List.find?_eq_none.1 hfind _ h)
    | some r =>
      have hkind : r.kind = k := by simpa using List.find?_some hfind
      have hr : r = ⟨k, chain⟩ :=
        List.inj_on_of_nodup_map as.simple_routes.distinct (List.mem_of_find?_eq_some hfind) h hkind
      rw [hr]

/-- Where adapters lead from the program there is a chain, which leads there too. -/
theorem chain_of_leads {path : List Adapter} (h : as.Leads .program path k) :
    ∃ chain, as.chain k = .ok chain ∧ as.Leads .program chain k ∧ chain.length ≤ path.length := by
  obtain ⟨r, hr, rfl, hlen⟩ := exists_route_of_leads h start_mem_routes rfl
  exact ⟨r.chain, chain_eq_ok.2 hr, leads_of_mem_routes hr, by simpa using hlen⟩

theorem Leads.mem {chain : List Adapter} (h : as.Leads source chain k) (ha : a ∈ chain) : a ∈ as := by
  induction chain generalizing source with
  | nil => cases ha
  | cons b chain ih =>
    obtain ⟨hb, -, hrest⟩ := h
    rcases List.mem_cons.1 ha with rfl | ha
    · exact hb
    · exact ih hrest ha

end AdapterSet

/-! ## The nodes a step runs on -/

/-- Each of the adapters does what is asked of it. -/
def Adapters.Lawful (as : Adapters) : Prop := ∀ a ∈ as.between, Tree.Expands (as.expand a)

theorem AdapterSet.lawful (as : AdapterSet) : (as : Adapters).Lawful := fun a _ => Tree.expands_adapter a

/-- The nodes a step runs on are live and pairwise apart. -/
theorem Adapters.Lawful.apart_expandRoot {as : Adapters} (has : as.Lawful) {t : Tree} (h : t.WellFormed)
    {k : Kind} {targets : List NodeId} (he : as.expandRoot t k = .ok targets) :
    (∀ n ∈ targets, ∃ p ∈ t.places, p.id = n) ∧ targets.Pairwise t.Apart := by
  have follow (chain : List Adapter) (hchain : ∀ a ∈ chain, a ∈ as.between) (nodes : List NodeId)
      (hlive : ∀ n ∈ nodes, n ∈ t.ids) (happart : nodes.Pairwise t.Apart) :
      (∀ n ∈ chain.foldl (fun nodes a => nodes.flatMap (as.expand a t)) nodes, n ∈ t.ids) ∧
        (chain.foldl (fun nodes a => nodes.flatMap (as.expand a t)) nodes).Pairwise t.Apart := by
    induction chain generalizing nodes with
    | nil => exact ⟨hlive, happart⟩
    | cons a chain ih =>
      obtain ⟨ha, hchain⟩ := List.forall_mem_cons.1 hchain
      obtain ⟨hlive, happart⟩ := (has a ha).flatMap h hlive happart
      exact ih hchain _ hlive happart
  rw [Adapters.expandRoot] at he
  cases hchain : as.chain k with
  | error e =>
    rw [hchain] at he
    cases he
  | ok chain =>
    rw [hchain] at he
    cases he
    have hleads := AdapterSet.leads_of_mem_routes (AdapterSet.chain_eq_ok.1 hchain)
    obtain ⟨hlive, happart⟩ := follow chain (fun a => hleads.mem) [Tree.root]
      (fun n hn => by
        obtain ⟨p, hp, hid, -⟩ := h.topmost_program.2 (List.mem_singleton.1 hn)
        exact Tree.mem_ids_iff.2 ⟨p, hp, hid⟩)
      (List.pairwise_singleton _ _)
    exact ⟨fun n hn => Tree.mem_ids_iff.1 (hlive n hn), happart⟩

end Trellis
