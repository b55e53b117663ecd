/-
  Trellis.Proofs.Execution.InPlace — requests answered one change after the other.

  `Request.answer` takes a request as one thing, which fails before it has changed anything or not at
  all (`Invocation.attempt`). Here what has been done when a request fails stays done (`Does`): above all
  a clone, which copies its nodes one by one and may be stopped at any of them. While nobody else is at
  work the two are the same.

  - `Does.of_failed`: a request that fails has changed nothing.
  - `Does.eq`, `exists_does`: in place a request is answered, and as if at once.
-/
import Trellis.Proofs.Execution.Isolation
import Trellis.Proofs.Tree.Copies

namespace Trellis

open Trellis.Tree

variable {τ : Type} [MarkerFamily τ] {α : Type}

/-- The reply is an error. -/
def Request.Failed : (r : Request τ) → r.Reply → Prop
  | put _ _, reply => ∃ e, reply = Except.error e
  | unmark _ _, reply => ∃ e, reply = Except.error e
  | add _ _ _, reply => ∃ e, reply = Except.error e
  | remove _, reply => ∃ e, reply = Except.error e
  | clone _ _, reply => ∃ e, reply = Except.error e
  | _, _ => False

/-- No edit of markers or of the tree. -/
def Request.Reads : Request τ → Prop
  | put _ _ | unmark _ _ | add _ _ _ | remove _ | clone _ _ => False
  | r => r.Proper

namespace Invocation

variable {n : NodeId} {inv after : Invocation τ} {site : Site}

/-! ## Requests in place -/

/-- A request answered in place: whatever was done before a failure stays done. A clone copies its nodes
    one after the other, and may fail in the middle. -/
inductive Does (site : Site) (inv : Invocation τ) : (r : Request τ) → r.Reply → Invocation τ → Prop
  | read {r : Request τ} (hr : r.Reads) : Does site inv r (r.answer site inv).1 (r.answer site inv).2
  | put {n : NodeId} {m : Marker τ} (ho : inv.checkOwned site n = .ok ()) :
    Does site inv (.put n m) (.ok ()) (inv.stage n m.kind (some m))
  | putRefused {n : NodeId} {m : Marker τ} {e : Error} (ho : inv.checkOwned site n = .error e) :
    Does site inv (.put n m) (.error e) inv
  | unmark {n : NodeId} {t : τ} (ho : inv.checkOwned site n = .ok ()) :
    Does site inv (.unmark n t) (.ok (inv.marker n t)) (inv.stage n (MarkerFamily.kind t) none)
  | unmarkRefused {n : NodeId} {t : τ} {e : Error} (ho : inv.checkOwned site n = .error e) :
    Does site inv (.unmark n t) (.error e) inv
  | add {n parent : NodeId} {kind : Kind} {name : String} {tree : Tree}
    (ho : inv.checkOwned site parent = .ok ()) (he : inv.session.tree.add parent kind name = .ok (n, tree)) :
    Does site inv (.add parent kind name) (.ok n) (((inv.withTree tree).record
      ⟨.nodeCreated, site.unit, n, EventKind.nodeCreated.description, none⟩).created [n])
  | addFailed {parent : NodeId} {kind : Kind} {name : String} {e : TreeError}
    (ho : inv.checkOwned site parent = .ok ()) (he : inv.session.tree.add parent kind name = .error e) :
    Does site inv (.add parent kind name) (.error (.tree e)) inv
  | addRefused {parent : NodeId} {kind : Kind} {name : String} {e : Error}
    (ho : inv.checkOwned site parent = .error e) : Does site inv (.add parent kind name) (.error e) inv
  | remove {n : NodeId} {gone : List NodeId} {tree : Tree} (ho : inv.checkOwned site n = .ok ())
    (he : inv.session.tree.remove n = .ok (gone, tree)) :
    Does site inv (.remove n) (.ok ()) (((inv.withTree tree).record
      ⟨.nodeRemoved, site.unit, n, s!"removed {gone.length} nodes", none⟩).removed gone)
  | removeFailed {n : NodeId} {e : TreeError} (ho : inv.checkOwned site n = .ok ())
    (he : inv.session.tree.remove n = .error e) : Does site inv (.remove n) (.error (.tree e)) inv
  | removeRefused {n : NodeId} {e : Error} (ho : inv.checkOwned site n = .error e) :
    Does site inv (.remove n) (.error e) inv
  | clone {source parent copy : NodeId} {pairs : List (NodeId × NodeId)} {tree : Tree}
    (ho : inv.checkOwned site parent = .ok ())
    (hc : inv.session.tree.Cloning source parent (.ok ((source, copy) :: pairs)) tree) :
    Does site inv (.clone source parent) (.ok copy)
      ((inv.withTree tree).adopt site source copy ((source, copy) :: pairs))
  | cloneFailed {source parent : NodeId} {e : TreeError} {tree : Tree}
    (ho : inv.checkOwned site parent = .ok ())
    (hc : inv.session.tree.Cloning source parent (.error e) tree) :
    Does site inv (.clone source parent) (.error (.tree e)) (inv.withTree tree)
  | cloneRefused {source parent : NodeId} {e : Error} (ho : inv.checkOwned site parent = .error e) :
    Does site inv (.clone source parent) (.error e) inv

/-- A request that fails has changed nothing. For a clone this is because no node after the first can
    be refused, or gone. -/
theorem Does.of_failed {r : Request τ} {reply : r.Reply} (hd : inv.Does site r reply after)
    (h : inv.session.tree.WellFormed) (hf : r.Failed reply) : after = inv := by
  cases hd with
  | read hr => cases r <;> first | exact hf.elim | exact hr.elim
  | put | unmark | add | remove | clone =>
    obtain ⟨e, he⟩ := hf
    cases he
  | cloneFailed ho hc => rw [(h.cloning_iff.1 hc).2 _ rfl, withTree]
  | putRefused | unmarkRefused | addFailed | addRefused | removeFailed | removeRefused | cloneRefused => rfl

section Attempts

variable {β : Type} {e : Error} {f : Unit → Except Error (α × Invocation τ)}
  {g : β → Except Error (α × Invocation τ)} {x : Except TreeError β}

theorem attempt_owned (h : inv.checkOwned site n = .ok ()) :
    attempt inv (inv.checkOwned site n >>= f) = attempt inv (f ()) := by
  rw [h]
  rfl

theorem attempt_refused (h : inv.checkOwned site n = .error e) :
    attempt inv (inv.checkOwned site n >>= f) = (.error e, inv) := by
  rw [h]
  rfl

theorem attempt_onTree {b : β} (h : x = .ok b) : attempt inv (onTree x >>= g) = attempt inv (g b) := by
  rw [h]
  rfl

theorem attempt_onTree_error {e : TreeError} (h : x = .error e) :
    attempt inv (onTree x >>= g) = (.error (.tree e), inv) := by
  rw [h]
  rfl

end Attempts

/-- In place, a request is answered as if at once. -/
theorem Does.eq {r : Request τ} {reply : r.Reply} (hd : inv.Does site r reply after)
    (h : inv.session.tree.WellFormed) : r.answer site inv = (reply, after) := by
  cases hd with
  | read => rfl
  | put ho | unmark ho => exact attempt_owned ho
  | add ho he | remove ho he => exact (attempt_owned ho).trans (attempt_onTree he)
  | addFailed ho he | removeFailed ho he => exact (attempt_owned ho).trans (attempt_onTree_error he)
  | clone ho hc =>
    have hclone := (h.cloning_iff.1 hc).1
    cases (h.copyOf_clone hclone).head
    rw [Request.answer, Invocation.clone, attempt_owned ho, attempt_onTree hclone]
    rfl
  | cloneFailed ho hc =>
    obtain ⟨hclone, hfail⟩ := h.cloning_iff.1 hc
    rw [hfail _ rfl]
    exact (attempt_owned ho).trans (attempt_onTree_error hclone)
  | putRefused ho | unmarkRefused ho | addRefused ho | removeRefused ho | cloneRefused ho =>
    exact attempt_refused ho

/-- In place, every request that goes by the rules is answered. -/
theorem exists_does {r : Request τ} (hr : r.Proper) (site : Site) (h : inv.session.tree.WellFormed) :
    ∃ reply after, inv.Does site r reply after := by
  cases r with
  | put n m =>
    cases ho : inv.checkOwned site n with
    | ok => exact ⟨_, _, .put ho⟩
    | error e => exact ⟨_, _, .putRefused ho⟩
  | unmark n t =>
    cases ho : inv.checkOwned site n with
    | ok => exact ⟨_, _, .unmark ho⟩
    | error e => exact ⟨_, _, .unmarkRefused ho⟩
  | add parent kind name =>
    cases ho : inv.checkOwned site parent with
    | ok =>
      cases he : inv.session.tree.add parent kind name with
      | ok added => exact ⟨_, _, .add ho he⟩
      | error e => exact ⟨_, _, .addFailed ho he⟩
    | error e => exact ⟨_, _, .addRefused ho⟩
  | remove n =>
    cases ho : inv.checkOwned site n with
    | ok =>
      cases he : inv.session.tree.remove n with
      | ok removed => exact ⟨_, _, .remove ho he⟩
      | error e => exact ⟨_, _, .removeFailed ho he⟩
    | error e => exact ⟨_, _, .removeRefused ho⟩
  | clone source parent =>
    cases ho : inv.checkOwned site parent with
    | ok =>
      obtain ⟨result, u, hc, hclone, -⟩ := h.exists_cloning source parent
      cases result with
      | ok pairs =>
        obtain ⟨rest, rfl⟩ := List.head?_eq_some_iff.1 (h.copyOf_clone hclone).head
        exact ⟨_, _, .clone ho hc⟩
      | error e => exact ⟨_, _, .cloneFailed ho hc⟩
    | error e => exact ⟨_, _, .cloneRefused ho⟩
  | _ => exact ⟨_, _, .read hr⟩

/-- Work goes on for some requests, each answered in place. -/
inductive Goes (site : Site) : Invocation τ → Work τ α → Invocation τ → Work τ α → Prop
  | here {inv : Invocation τ} {work : Work τ α} : Goes site inv work inv work
  | on {inv after inv' : Invocation τ} {r : Request τ} {reply : r.Reply} {next : r.Reply → Work τ α}
    {rest : Work τ α} (hd : inv.Does site r reply after) (hg : Goes site after (next reply) inv' rest) :
    Goes site inv (.ask r next) inv' rest

end Invocation

end Trellis
