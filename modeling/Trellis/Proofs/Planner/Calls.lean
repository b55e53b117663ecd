/-
  Trellis.Proofs.Planner.Calls — the calls that the search for links is made of.

  The search is two tasks that call each other: to support the needs that are left, and to protect
  one link against the threats that are left (`Task`). `supportTraced` is the search with a record
  of its calls, each with the task whose turn it was. It finds what the search finds, and of its
  calls the following is kept through every way of combining searches (`Traces`):

  - a task leaves less to do than its caller had (`Task.left`): fewer needs, or as many and fewer
    threats to the link for the first of them, where making the link counts as one more;
  - effort is spent by entering a task of protection and by nothing else, so that no search enters
    one more often than its budget allows (`supportTraced_traces`).
-/
import Trellis.Proofs.Planner.Links

namespace Trellis.Planner

/-! ## Tasks -/

/-- What the search is at: to support some needs, or to protect a link for the first of the needs
    left against some threats. -/
inductive Task where
  | support (needs : List Need)
  | protect (need : Need) (supplier : Nat) (threats : List Nat) (needs : List Need)

namespace Task

/-- How many needs are left, and how many threats to a link for the first of them; one more if the
    link is not made yet. -/
def left : Task → Nat × Nat
  | support [] => (0, 0)
  | support (need :: needs) => (needs.length + 1, need.removers.length + 1)
  | protect _ _ threats needs => (needs.length + 1, threats.length)

def isProtect : Task → Bool
  | support _ => false
  | protect _ _ _ _ => true

/-- Supporting the needs after the first leaves fewer needs. -/
theorem left_support_lt {caller : Task} {needs : List Need} (h : caller.left.1 = needs.length + 1) :
    Prod.Lex (· < ·) (· < ·) (support needs).left caller.left := by
  rw [Prod.lex_def, h]
  left
  cases needs <;> simp [left]

/-- With as many needs left there are fewer threats left. -/
theorem left_protect_lt {caller : Task} {need : Need} {supplier : Nat} {threats : List Nat}
    {needs : List Need} (h : caller.left.1 = needs.length + 1) (ht : threats.length < caller.left.2) :
    Prod.Lex (· < ·) (· < ·) (protect need supplier threats needs).left caller.left := by
  rw [Prod.lex_def, h]
  exact .inr ⟨rfl, ht⟩

end Task

/-- A call of one task by another. -/
structure Call where
  caller : Task
  callee : Task
  /-- Whether the task was gone into; with its budget spent a search refuses to protect a link. -/
  entered : Bool

namespace Call

/-- The task called has less to do than the one that calls it. -/
def Descends (c : Call) : Prop := Prod.Lex (· < ·) (· < ·) c.callee.left c.caller.left

/-- The call goes into a task of protection. -/
def spends (c : Call) : Bool := c.entered && c.callee.isProtect

end Call

/-! ## Searches with a record of their calls -/

abbrev Traced := Precedence → Effort → (Option Precedence × Effort) × List Call

namespace Traced

def orElse (s t : Traced) : Traced := fun p e =>
  match s p e with
  | ((some found, e), calls) => ((some found, e), calls)
  | ((none, e), calls) => ((t p e).1, calls ++ (t p e).2)

def ordering (a b : Nat) (s : Traced) : Traced := fun p e =>
  if p.reaches b a then ((none, e), []) else s (p.add a b) e

/-- `s`, which is what `callee` is about. -/
def called (caller callee : Task) (s : Traced) : Traced := fun p e =>
  ((s p e).1, ⟨caller, callee, true⟩ :: (s p e).2)

/-- The same, at the cost of one unit. -/
def charged (caller callee : Task) (s : Traced) : Traced := fun p e =>
  match e.charge with
  | some e => s.called caller callee p e
  | none => ((none, { e with exhausted := true }), [⟨caller, callee, false⟩])

end Traced

/-- `protect`, called for by `caller`. -/
def protectTraced (need : Need) (supplier : Nat) (needs : List Need) (next : Traced) :
    (caller : Task) → (threats : List Nat) → Traced
  | caller, [] => next.called caller (.support needs)
  | caller, r :: threats => fun p e =>
    if p.settled need.consumer supplier r then protectTraced need supplier needs next caller threats p e
    else
      let task : Task := .protect need supplier threats needs
      let rest := (protectTraced need supplier needs next task threats).charged caller task
      ((rest.ordering need.consumer r).orElse (rest.ordering r supplier)) p e

def linkTraced (need : Need) (needs : List Need) (next : Traced) : (suppliers : List Nat) → Traced
  | [] => fun _ e => ((none, e.blame need), [])
  | s :: suppliers =>
    let task : Task := .protect need s need.removers needs
    (((protectTraced need s needs next task need.removers).charged (.support (need :: needs)) task).ordering
      s need.consumer).orElse (linkTraced need needs next suppliers)

def supportTraced : (needs : List Need) → Traced
  | [] => fun p e => ((some p, e), [])
  | need :: needs => linkTraced need needs (supportTraced needs) need.suppliers

/-! ## What is kept -/

/-- What comes of a search begun with some effort, with the record of its calls: each call
    descends, and the effort spent is the number of protections entered, within the budget. -/
structure Recorded (e : Effort) (result : Option Precedence × Effort)
    (traced : (Option Precedence × Effort) × List Call) : Prop where
  found : traced.1 = result
  descends : ∀ c ∈ traced.2, c.Descends
  spent : e.spent ≤ Effort.budget →
    result.2.spent = e.spent + traced.2.countP Call.spends ∧ result.2.spent ≤ Effort.budget

/-- A search that is answered at once makes no calls. -/
theorem Recorded.silent {e e' : Effort} (h : e'.spent = e.spent) (r : Option Precedence) :
    Recorded e (r, e') ((r, e'), []) where
  found := rfl
  descends _ hc := absurd hc List.not_mem_nil
  spent he := ⟨h, h.symm ▸ he⟩

theorem Effort.charge_eq_some_iff {e e' : Effort} :
    e.charge = some e' ↔ e.spent ≠ budget ∧ e' = { e with spent := e.spent + 1 } := by
  rw [charge]
  split
  · rename_i h
    simp [h]
  · rename_i h
    simp [h, eq_comm]

/-- The traced search finds what the search finds, whatever it begins with, and records it. -/
def Traces (t : Traced) (s : Search) : Prop := ∀ p e, Recorded e (s p e) (t p e)

namespace Traces

variable {s s' : Search} {t t' : Traced}

theorem orElse (h : Traces t s) (h' : Traces t' s') : Traces (t.orElse t') (s.orElse s') := by
  intro p e
  obtain ⟨hfound, hdesc, hspent⟩ := h p e
  rcases ht : t p e with ⟨⟨_ | q, e₁⟩, calls⟩
  all_goals
    rw [ht] at hfound hdesc hspent
    simp only [Traced.orElse, Search.orElse, ht, ← hfound]
    rw [← hfound] at hspent
  · obtain ⟨hfound', hdesc', hspent'⟩ := h' p e₁
    refine ⟨hfound', List.forall_mem_append.2 ⟨hdesc, hdesc'⟩, fun he => ?_⟩
    obtain ⟨hcount, hle⟩ := hspent he
    obtain ⟨hcount', hle'⟩ := hspent' hle
    rw [List.countP_append]
    dsimp only at hcount
    omega
  · exact ⟨rfl, hdesc, hspent⟩

theorem ordering (h : Traces t s) (a b : Nat) : Traces (t.ordering a b) (s.ordering a b) := by
  intro p e
  rw [Traced.ordering, Search.ordering]
  split
  · exact .silent rfl none
  · exact h (p.add a b) e

theorem called (h : Traces t s) (caller callee : Task) (hlt : Call.Descends ⟨caller, callee, true⟩)
    (hsupport : callee.isProtect = false) : Traces (t.called caller callee) s := by
  intro p e
  obtain ⟨hfound, hdesc, hspent⟩ := h p e
  have hfree : ¬ Call.spends ⟨caller, callee, true⟩ = true := by simp [Call.spends, hsupport]
  refine ⟨hfound, List.forall_mem_cons.2 ⟨hlt, hdesc⟩, fun he => ?_⟩
  rw [Traced.called, List.countP_cons_of_neg hfree]
  exact hspent he

theorem charged (h : Traces t s) (caller callee : Task)
    (hlt : ∀ entered, Call.Descends ⟨caller, callee, entered⟩) (hprotect : callee.isProtect = true) :
    Traces (t.charged caller callee) s.charged := by
  intro p e
  rw [Traced.charged, Search.charged]
  cases hc : e.charge with
  | none => exact ⟨rfl, List.forall_mem_singleton.2 (hlt false), fun he => ⟨rfl, he⟩⟩
  | some e₁ =>
    obtain ⟨hleft, rfl⟩ := Effort.charge_eq_some_iff.1 hc
    obtain ⟨hfound, hdesc, hspent⟩ := h p { e with spent := e.spent + 1 }
    have hcost : Call.spends ⟨caller, callee, true⟩ = true := hprotect
    refine ⟨hfound, List.forall_mem_cons.2 ⟨hlt true, hdesc⟩, fun he => ?_⟩
    obtain ⟨hcount, hle⟩ := hspent (Nat.lt_of_le_of_ne he hleft)
    simp only [Traced.called, List.countP_cons_of_pos hcost]
    dsimp only at hcount
    omega

end Traces

theorem protectTraced_traces {need : Need} {supplier : Nat} {needs : List Need} {next : Traced}
    (h : Traces next (support needs)) {caller : Task} {threats : List Nat}
    (hneeds : caller.left.1 = needs.length + 1) (hthreats : threats.length ≤ caller.left.2) :
    Traces (protectTraced need supplier needs next caller threats)
      (protect need.consumer supplier (support needs) threats) := by
  induction threats generalizing caller with
  | nil => exact h.called _ _ (Task.left_support_lt hneeds) rfl
  | cons r threats ih =>
    have hlt : threats.length < caller.left.2 := hthreats
    let task : Task := .protect need supplier threats needs
    have inner : Traces (protectTraced need supplier needs next task threats)
        (protect need.consumer supplier (support needs) threats) := ih rfl (Nat.le_refl _)
    have rest := inner.charged caller task (fun _ => Task.left_protect_lt hneeds hlt) rfl
    intro p e
    simp only [protectTraced, protect]
    split
    · exact ih hneeds (Nat.le_of_lt hlt) p e
    · exact (rest.ordering need.consumer r).orElse (rest.ordering r supplier) p e

theorem linkTraced_traces {need : Need} {needs : List Need} {next : Traced}
    (h : Traces next (support needs)) (suppliers : List Nat) :
    Traces (linkTraced need needs next suppliers) (link need (support needs) suppliers) := by
  induction suppliers with
  | nil => exact fun _ e => .silent (show (e.blame need).spent = e.spent from rfl) none
  | cons s suppliers ih =>
    let task : Task := .protect need s need.removers needs
    have guarded : Traces (protectTraced need s needs next task need.removers)
        (protect need.consumer s (support needs) need.removers) :=
      protectTraced_traces h rfl (Nat.le_refl _)
    have linked := guarded.charged (.support (need :: needs)) task
      (fun _ => Task.left_protect_lt rfl (Nat.lt_succ_self _)) rfl
    exact (linked.ordering s need.consumer).orElse ih

/-- The search, with a record of its calls. -/
theorem supportTraced_traces (needs : List Need) : Traces (supportTraced needs) (support needs) := by
  induction needs with
  | nil => exact fun p _ => .silent rfl (some p)
  | cons need needs ih => exact linkTraced_traces ih need.suppliers

end Trellis.Planner
