/-
  Trellis.Proofs.Execution.Events — where the events of a step come from.

  Events are only added (`EventLog.Adds`). Those that come up while a body runs are recorded by
  the body itself (`Work.Records`), or tell of an edit of the tree. The rest, of an invocation,
  is a single event about its target (`Pass.adds_invoke`).
-/
import Trellis.Proofs.Execution.Frame
import Trellis.Proofs.Execution.Invariants

namespace Trellis

namespace EventLog

/-- `log'` is `log` with events added, all of which satisfy `P`. -/
def Adds (P : Event → Prop) (log log' : EventLog) : Prop :=
  ∃ new, log'.events = log.events ++ new ∧ ∀ e ∈ new, P e

variable {P Q : Event → Prop} {log log₁ log₂ : EventLog} {e : Event}

theorem Adds.nothing (P : Event → Prop) (log : EventLog) : Adds P log log :=
  ⟨[], (List.append_nil _).symm, fun _ he => absurd he List.not_mem_nil⟩

theorem Adds.trans (h : Adds P log log₁) (k : Adds P log₁ log₂) : Adds P log log₂ := by
  obtain ⟨new, hnew, hP⟩ := h
  obtain ⟨more, hmore, hP'⟩ := k
  refine ⟨new ++ more, by rw [hmore, hnew, List.append_assoc], fun e he => ?_⟩
  exact (List.mem_append.1 he).elim (hP e) (hP' e)

theorem Adds.imp (h : Adds P log log₁) (hPQ : ∀ e, P e → Q e) : Adds Q log log₁ := by
  obtain ⟨new, hnew, hP⟩ := h
  exact ⟨new, hnew, fun e he => hPQ e (hP e he)⟩

theorem adds_record (log : EventLog) (he : P e) : Adds P log (log.record e) :=
  ⟨[e], rfl, fun _ he' => List.mem_singleton.1 he' ▸ he⟩

end EventLog

open EventLog

variable {τ : Type} [MarkerFamily τ] {α : Type} {site : Site} {inv after : Invocation τ} {e : Event}

/-- Depending on how it is answered, the work may record the event. -/
inductive Work.Records (e : Event) : Work τ α → Prop
  | now (next : Unit → Work τ α) : Records e (.ask (.record e) next)
  | later {r : Request τ} {next : r.Reply → Work τ α} (reply : r.Reply) :
    Records e (next reply) → Records e (.ask r next)

namespace Invocation

theorem adds_attempt {P : Event → Prop} {x : Except Error (α × Invocation τ)}
    (hx : ∀ a after, x = .ok (a, after) → Adds P inv.session.events after.session.events) :
    Adds P inv.session.events (attempt inv x).2.session.events := by
  cases x with
  | error e => exact .nothing P _
  | ok r => exact hx r.1 r.2 rfl

end Invocation

open Invocation

/-- A request adds the event it asks to be recorded, or one that tells of its edit. -/
theorem Request.adds_answer (r : Request τ) (site : Site) (inv : Invocation τ) :
    Adds (fun e => r = .record e ∨ e.kind.isStructural = true) inv.session.events
      (r.answer site inv).2.session.events := by
  cases r with
  | poisoned => exact .nothing _ _
  | features => exact .nothing _ _
  | events => exact .nothing _ _
  | tree => exact .nothing _ _
  | node n => exact .nothing _ _
  | tags n => exact .nothing _ _
  | marker n t => exact .nothing _ _
  | put n m =>
    refine adds_attempt fun a after he => ?_
    obtain ⟨-, -, he⟩ := bind_eq_ok.1 he
    cases he
    exact .nothing _ _
  | unmark n t =>
    refine adds_attempt fun a after he => ?_
    obtain ⟨-, -, he⟩ := bind_eq_ok.1 he
    cases he
    exact .nothing _ _
  | add parent kind name =>
    refine adds_attempt fun n after he => ?_
    obtain ⟨-, -, he⟩ := bind_eq_ok.1 he
    obtain ⟨⟨m, tree⟩, -, he⟩ := bind_eq_ok.1 he
    cases he
    exact adds_record _ (.inr rfl)
  | remove n =>
    refine adds_attempt fun a after he => ?_
    obtain ⟨-, -, he⟩ := bind_eq_ok.1 he
    obtain ⟨⟨gone, tree⟩, -, he⟩ := bind_eq_ok.1 he
    cases he
    exact adds_record _ (.inr rfl)
  | clone source parent =>
    refine adds_attempt fun n after he => ?_
    obtain ⟨-, -, he⟩ := bind_eq_ok.1 he
    obtain ⟨⟨pairs, tree⟩, -, he⟩ := bind_eq_ok.1 he
    cases he
    show Adds _ inv.session.events
      ((pairs.foldl copyMarkers (inv.withTree tree)).session.events.record _)
    rw [(foldl_copyMarkers pairs _).1]
    exact adds_record _ (.inr rfl)
  | rename n name =>
    refine adds_attempt fun a after he => ?_
    obtain ⟨tree, -, he⟩ := bind_eq_ok.1 he
    cases he
    exact .nothing _ _
  | graft parent kind name =>
    refine adds_attempt fun n after he => ?_
    obtain ⟨⟨m, tree⟩, -, he⟩ := bind_eq_ok.1 he
    cases he
    exact .nothing _ _
  | prune n =>
    refine adds_attempt fun gone after he => ?_
    obtain ⟨⟨gone', tree⟩, -, he⟩ := bind_eq_ok.1 he
    cases he
    exact .nothing _ _
  | store n m => exact .nothing _ _
  | record e => exact adds_record _ (.inl rfl)
  | note n => exact .nothing _ _

/-- The events that come up while a body runs. -/
theorem Work.adds_run (work : Work τ α) (site : Site) (inv : Invocation τ) :
    Adds (fun e => work.Records e ∨ e.kind.isStructural = true) inv.session.events
      (work.run site inv).2.session.events := by
  induction work generalizing inv with
  | done a => exact .nothing _ _
  | ask r next ih =>
    have first := r.adds_answer site inv
    have rest := ih (r.answer site inv).1 (r.answer site inv).2
    refine (first.imp fun e he => ?_).trans (rest.imp fun e he => ?_)
    · rcases he with rfl | he
      · exact .inl (.now next)
      · exact .inr he
    · exact he.imp_left (.later _)

namespace Pass

variable (p : Pass τ) (step : Step) {r r' : Run τ} {target : NodeId} {targets : List NodeId}

/-- What an event can be that comes from an invocation on a node: one that the body records, one
    that tells of an edit, or one about the node. -/
def Tells (target : NodeId) (e : Event) : Prop :=
  (p.body ⟨step.unit, target, step.granularity⟩).Records e ∨ e.kind.isStructural = true ∨
    e.node = some target

/-- While a body runs, the events it records come up, and those that tell of edits. -/
theorem adds_body (r : Run τ) (target : NodeId) :
    Adds (fun e => (p.body ⟨step.unit, target, step.granularity⟩).Records e ∨
      e.kind.isStructural = true) r.session.events (p.runBody step target r).2.session.events := by
  let site : Site := ⟨step.unit, target, step.granularity⟩
  have ran := (p.body site).adds_run site ⟨r.session, .none, r.notes⟩
  exact p.runBody_snd (P := fun inv => Adds _ r.session.events inv.session.events)
    step (.nothing _ _) ran fun _ _ hinv => hinv

theorem adds_runBody (r : Run τ) (target : NodeId) :
    Adds (p.Tells step target) r.session.events (p.runBody step target r).2.session.events :=
  (p.adds_body step r target).imp fun _ he => he.imp_right .inl

theorem adds_invoke (r : Run τ) (target : NodeId) :
    Adds (p.Tells step target) r.session.events (p.invoke step r target).2.session.events :=
  p.invoke_snd (I := fun s => Adds (p.Tells step target) r.session.events s.events) step
    (.nothing _ _) (p.adds_runBody step r target)
    fun _ _ hnode hs => hs.trans (adds_record _ (.inr (.inr hnode)))

/-- The events of the invocations of a step, however they end. -/
theorem adds_invokeAll (r : Run τ) (targets : List NodeId) :
    Adds (fun e => ∃ n ∈ targets, p.Tells step n e) r.session.events
      (p.invokeAll step targets r).2.session.events := by
  refine p.invokeAll_snd (I := fun s => Adds _ r.session.events s.events) step (.nothing _ _) ?_
  exact fun n hn r' hr' => hr'.trans ((p.adds_invoke step r' n).imp fun e he => ⟨n, hn, he⟩)

end Pass

end Trellis
