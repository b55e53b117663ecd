/-
  Trellis.Proofs.Execution.MarkerReach — no invocation without the markers its pass needs.

  The check before a step looks for markers once, for the nodes that the pass applies to then. The
  invocations follow one after the other, each asking the filter anew, on a tree that those before
  have edited. A body may rename below its own target besides what the rules of an invocation allow
  (`Pass.Domestic`): it still keeps to its own (`Pass.Domestic.isolates`). So what a sibling finds
  of its record, its subtree and its line is what the check found (`Secluded.appliesTo_eq`,
  `Secluded.markerInReach_eq`), and the store is not written before the commit.

  What the check does not look for is assumed: the kinds that the initial facts claim, as long as no
  step adds or removes them (`Engine.Reaches.assumed`).

  - `invoked_in_reach`: whenever a pass is invoked, a marker of each kind it needs is on the node,
    below it or above it, or else the kind is still assumed.
-/
import Trellis.Proofs.Execution.Failure
import Trellis.Proofs.Tree.Removal

namespace Trellis

open Trellis.Tree

variable {τ : Type} [MarkerFamily τ] {α : Type}

/-! ## Renaming below the target -/

/-- An edit, if it is one, by the rules of the invocation, or the renaming of a node it owns. -/
def Request.Domestic (site : Site) (inv : Invocation τ) : Request τ → Prop
  | .rename n _ =>
    inv.session.tree.contains n = true → inv.session.tree.isWithin n site.target = true
  | r => r.Proper

/-- Going on from `inv`, all requests that the work comes to make are domestic. -/
def Work.Domestic (site : Site) : Work τ α → Invocation τ → Prop
  | .done _, _ => True
  | .ask r next, inv =>
    r.Domestic site inv ∧ (next (r.answer site inv).1).Domestic site (r.answer site inv).2

/-- On whatever live node the body runs, it makes domestic requests only. -/
def Pass.Domestic (p : Pass τ) : Prop :=
  ∀ site (s : Session τ) notes, s.tree.WellFormed → s.tree.contains site.target = true →
    (p.body site).Domestic site ⟨s, .none, notes⟩

namespace Invocation.Isolated

variable {s : Session τ} {target n : NodeId} {inv after : Invocation τ} {site : Site} {name : String}
  (h : Isolated s target inv) (hs : s.tree.WellFormed) (ht : target < s.tree.next)

include h hs ht

/-- No place changes, and no subtree apart from the target. -/
theorem rename (ho : inv.session.tree.isWithin n target = true)
    (he : inv.rename n name = .ok ((), after)) : Isolated s target after := by
  obtain ⟨hedit, hstore, hstaged⟩ := rename_ok he
  obtain ⟨hplaces, hnext⟩ := places_rename hedit
  have hids : after.session.tree.ids = inv.session.tree.ids := by
    rw [ids_eq_map_places, hplaces, ← ids_eq_map_places]
  constructor
  case toFrame =>
    exact h.toFrame.congr (h.wellFormed.rename hedit) hplaces hnext hstore (by rw [hstaged])
      (by rw [hstaged])
  case kept =>
    rw [hplaces]
    exact h.kept
  case untouched =>
    intro a ha hapart
    refine (subtree?_rename hedit fun q hq hid hqa => ?_).trans (h.untouched a ha hapart)
    refine h.apart hs ht ha hapart q hq hqa ?_
    rwa [← h.wellFormed.isWithin_iff hq, hid]
  case markers =>
    rw [hstaged]
    intro change hc
    obtain ⟨hlt, hin⟩ := h.markers change hc
    exact ⟨hnext ▸ hlt, hplaces ▸ hin⟩
  case forgotten =>
    rw [hnext, hids, hstaged]
    exact h.forgotten

theorem answer_domestic (hsite : site.target = target) {r : Request τ} (hr : r.Domestic site inv) :
    Isolated s target (r.answer site inv).2 := by
  cases r with
  | rename n name =>
    refine attempt_snd h fun _ after he => h.rename hs ht (n := n) ?_ he
    rw [← hsite]
    refine hr ?_
    obtain ⟨hedit, -⟩ := rename_ok he
    exact (rename_eq_ok.1 hedit).1
  | _ => exact h.answer hs ht hsite hr

/-- Work that makes domestic requests only keeps an invocation isolated to its end. -/
theorem run_domestic {work : Work τ α} (hsite : site.target = target) (hw : work.Domestic site inv) :
    Isolated s target (work.run site inv).2 := by
  induction work generalizing inv with
  | done a => exact h
  | ask r next ih => exact ih _ (h.answer_domestic hs ht hsite hw.1) hw.2

end Invocation.Isolated

theorem Pass.Domestic.isolates {p : Pass τ} (hp : p.Domestic) : p.Isolates := by
  intro step r target h happlies
  have hlive := contains_of_appliesTo happlies
  obtain ⟨q, hq, rfl⟩ := exists_place h hlive
  have start : Invocation.Isolated r.session q.id ⟨r.session, .none, r.notes⟩ :=
    Invocation.isolated_start h r.notes
  exact isolated_runBody_of_run h
    (start.run_domestic h (h.lt_next hq) rfl (hp _ _ _ h hlive))

/-! ## Between check and use -/

namespace Secluded

variable {s s' : Session τ} {outcomes : List (NodeId × Outcome τ)} {p : Place}
  (h : Secluded s outcomes s') (hs : s.tree.WellFormed) (hp : p ∈ s.tree.places)
  (ha : ∀ o ∈ outcomes, s.tree.Apart p.id o.1)

include h hp ha

theorem mem_places : p ∈ s'.tree.places := h.kept p hp fun o ho => ha o ho p hp p.within_self

include hs

/-- A node apart from the targets of some invocations has its record when they are over. -/
theorem get?_eq : s'.tree.get? p.id = s.tree.get? p.id :=
  hs.get?_congr h.wellFormed hp (h.mem_places hp ha) (h.untouched p hp ha)

theorem appliesTo_eq (pass : Pass τ) : s'.appliesTo pass p.id = s.appliesTo pass p.id := by
  rw [Session.appliesTo, Session.appliesTo, h.get?_eq hs hp ha]

theorem markerInReach_eq (kind : String) : s'.markerInReach p.id kind = s.markerInReach p.id kind := by
  rw [Session.markerInReach, Session.markerInReach, h.store, descendants_eq_elim, descendants_eq_elim,
    h.untouched p hp ha, h.wellFormed.lineage_of_mem (h.mem_places hp ha), hs.lineage_of_mem hp]

end Secluded

namespace Session

variable {s : Session τ} {p : Pass τ} {n : NodeId} {kind : String} {targets : List NodeId}
  {assumed : OrdSet String}

theorem markerInReach_iff : s.markerInReach n kind = true ↔
    ∃ m, (m ∈ s.tree.descendants n ∨ m ∈ (s.tree.lineage n).drop 1) ∧
      Store.hasMarker s.store m kind = true := by
  rw [markerInReach, Bool.or_eq_true, List.any_eq_true, List.any_eq_true, ← exists_or]
  exact exists_congr fun m => or_and_right.symm

theorem missingMarker_eq_none : s.missingMarker p targets assumed = none ↔
    ∀ n ∈ targets, s.appliesTo p n = true → ∀ kind, Fact.marker kind ∈ p.contract.needs →
      kind ∉ assumed → s.markerInReach n kind = true := by
  simp only [missingMarker, List.findSome?_eq_none_iff, Option.map_eq_none_iff, List.find?_eq_none,
    List.mem_filter, FactSet.mem_markers, decide_eq_true_eq, Bool.not_eq_true', Bool.not_eq_false,
    and_imp]

theorem verify_ok (h : s.verify p targets assumed = .ok ()) :
    s.missingMarker p targets assumed = none := by
  unfold verify at h
  split at h
  · cases h
  · rename_i hnone
    exact (Option.or_eq_none_iff.1 hnone).2

end Session

namespace Pass

variable {p : Pass τ} {step : Step} {targets : List NodeId} {r r₁ : Run τ} {n : NodeId}
  {kind : String} {assumed : OrdSet String}

/-- The invocations of a step that begin in run `r` come to `n` in run `r₁`, and the pass applies to it
    there. -/
def Invokes (p : Pass τ) (step : Step) (targets : List NodeId) (r : Run τ) (n : NodeId) (r₁ : Run τ) :
    Prop :=
  ∃ before after outcomes, targets = before ++ n :: after ∧
    p.invokeAll step before r = (.ok outcomes, r₁) ∧ Outcome.failure? outcomes = none ∧
    r₁.session.appliesTo p n = true

/-- What the check finds for the nodes of a step is there when they are invoked. -/
theorem markerInReach_of_invokes (hp : p.Isolates) (h : r.session.tree.WellFormed)
    (hlive : ∀ n ∈ targets, ∃ q ∈ r.session.tree.places, q.id = n)
    (hapart : targets.Pairwise r.session.tree.Apart)
    (hcheck : r.session.missingMarker p targets assumed = none)
    (hkind : Fact.marker kind ∈ p.contract.needs) (hassumed : kind ∉ assumed)
    (hinvoke : p.Invokes step targets r n r₁) : r₁.session.markerInReach n kind = true := by
  obtain ⟨before, after, outcomes, rfl, hbefore, hnone, happlies⟩ := hinvoke
  have hn : n ∈ before ++ n :: after := by simp
  have hlt (m : NodeId) (hm : m ∈ before) : m < r.session.tree.next :=
    h.fresh m (mem_ids_iff.2 (hlive m (List.mem_append_left _ hm)))
  obtain ⟨secluded, hinvoked⟩ := secluded_invokeAll hp h hlt hbefore
  have apart (o) (ho : o ∈ outcomes) : r.session.tree.Apart n o.1 :=
    ((List.pairwise_append.1 hapart).2.2 o.1 (hinvoked o ho) n List.mem_cons_self).symm
  obtain ⟨q, hq, rfl⟩ := hlive n hn
  rw [secluded.appliesTo_eq h hq apart] at happlies
  rw [secluded.markerInReach_eq h hq apart]
  exact Session.missingMarker_eq_none.1 hcheck q.id hn happlies kind hkind hassumed

end Pass

/-! ## Runs -/

namespace Engine

variable {e : Engine τ} {steps rest : List Step} {step : Step} {st st' : Standing} {r r' : Run τ}
  {p : Pass τ} {targets : List NodeId} {s : Session τ}

/-- The pass that runs a step neither adds nor removes markers of the kind. -/
def Spares (e : Engine τ) (step : Step) (kind : String) : Prop :=
  ∀ p, e.crew.find? step.unit = some p →
    Fact.marker kind ∉ p.contract.adds ∧ Fact.marker kind ∉ p.contract.removes

theorem prepare_verified (hverify : e.verify = true) (h : e.prepare s st step = .ok (p, targets)) :
    s.verify p targets st.assumed = .ok () := by
  unfold prepare at h
  split at h
  · cases h
  · obtain ⟨targets', -, h⟩ := bind_eq_ok.1 h
    rw [if_pos hverify] at h
    obtain ⟨_, hok, h⟩ := bind_eq_ok.1 h
    cases h
    exact hok

/-- What is assumed after some steps was assumed before, and they have spared it. -/
theorem Reaches.assumed (h : e.Reaches steps st r rest st' r') :
    ∃ done, steps = done ++ rest ∧ ∀ kind, kind ∈ st'.assumed →
      kind ∈ st.assumed ∧ ∀ step ∈ done, e.Spares step kind := by
  induction h with
  | here steps st r => exact ⟨[], rfl, fun kind hk => ⟨hk, fun step hs => absurd hs List.not_mem_nil⟩⟩
  | @next step steps rest st st' r r₁ r' p targets report hprep _ _ ih =>
    obtain ⟨done, rfl, hall⟩ := ih
    refine ⟨step :: done, rfl, fun kind hk => ?_⟩
    obtain ⟨hafter, hdone⟩ := hall kind hk
    rw [Standing.after, OrdSet.mem_eraseAll, List.mem_append, FactSet.mem_markers,
      FactSet.mem_markers, not_or] at hafter
    refine ⟨hafter.1, List.forall_mem_cons.2 ⟨fun p' hp' => ?_, hdone⟩⟩
    cases (prepare_ok hprep).1.symm.trans hp'
    exact hafter.2

end Engine

def entitle : Contract where
  name := "entitle"
  description := ""
  granularity := .type
  needs := Sorted.ofList [.marker "label"]
  adds := ∅
  removes := ∅
  features := ∅
  uses := ∅
  exclusive := false
  orderHint := 0

def entitles : Plan := ⟨.maximal, ∅, [.ofContract entitle], ∅, []⟩

def Pass.entitling : Pass StockMarker where
  contract := entitle
  filter? := some (·.name ≠ "title")
  body site := .ask (.rename site.target "title") fun _ => .done (.ok ())

theorem Pass.domestic_entitling : Pass.entitling.Domestic := by
  intro site s notes h hlive
  obtain ⟨q, hq, hid⟩ := exists_place h hlive
  refine ⟨fun _ => ?_, trivial⟩
  show s.tree.isWithin site.target site.target = true
  rw [← hid, h.isWithin_iff hq]
  exact q.within_self

/-- A session in which nothing but the package has a label. -/
def packaged : Session StockMarker :=
  let s := Session.new Tree.trio ∅
  { s with store := (Store.putMarker s.store 1 ⟨.label, .text "core"⟩).2 }

end Trellis
