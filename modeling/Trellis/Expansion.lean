/-
  Trellis.Expansion — from the program root to the nodes a step runs on.

  An adapter leads from nodes of one kind to nodes of another kind below them. A set of adapters
  has one for a pair of kinds at the most, and is searched breadth first, from the program on and
  in order, for a chain to the kind wanted; following the chain from the root gives the nodes.

  Which nodes an adapter leads to is its own affair: whoever writes one has to see to it that it
  reads nothing but the tree and gives nodes within the one it is given whose subtrees are
  disjoint. The adapters there are to begin with give the outermost nodes of their target kind.
-/
import Trellis.Error
import Trellis.Tree

namespace Trellis

/-- An adapter, by the kinds it leads between. -/
structure Adapter where
  source : Kind
  target : Kind
  deriving DecidableEq

namespace Adapter

instance : Ord Adapter := ⟨compareLex (compareOn source) (compareOn target)⟩

instance : Std.TransOrd Adapter :=
  inferInstanceAs (Std.TransCmp (compareLex (compareOn source) (compareOn target)))

instance : Std.LawfulEqOrd Adapter where
  compare_self := Std.ReflOrd.compare_self
  eq_of_compare {a b} h := by
    obtain ⟨hs, ht⟩ := compareLex_eq_eq.1 h
    have hs : a.source = b.source := Std.LawfulEqOrd.eq_of_compare hs
    have ht : a.target = b.target := Std.LawfulEqOrd.eq_of_compare ht
    cases a; cases b; cases hs; cases ht; rfl

/-- The outermost nodes of the target kind strictly below a node. -/
def expand (a : Adapter) (t : Tree) (n : NodeId) : List NodeId :=
  (t.whole.under n).outermost a.target

end Adapter

abbrev AdapterSet := OrdSet Adapter

/-- A kind with a chain of adapters that leads to it from the program. -/
structure Route where
  kind : Kind
  chain : List Adapter
  deriving DecidableEq

namespace AdapterSet

/-- Each kind of node but the program from the kind that contains it. -/
def standard : AdapterSet :=
  Sorted.ofList [⟨.program, .package⟩, ⟨.package, .type⟩, ⟨.type, .method⟩, ⟨.type, .field⟩,
    ⟨.method, .statement⟩]

variable (as : AdapterSet)

/-- The routes one adapter longer than `r`, to kinds not found before. -/
def extensions (r : Route) (found : List Route) : List Route :=
  (as.toList.filter fun a => a.source = r.kind && found.all (·.kind ≠ a.target)).map fun a =>
    ⟨a.target, r.chain ++ [a]⟩

/-- The kinds to which no route has been found. -/
def unfound (found : List Route) : List Kind := Kind.all.filter fun k => found.all (·.kind ≠ k)

/-- A route to a kind not found before leaves fewer to find. -/
theorem length_unfound_append_lt {found new : List Route} {r : Route} (hr : r ∈ new)
    (hn : found.all (·.kind ≠ r.kind)) :
    (unfound (found ++ new)).length < (unfound found).length := by
  have sub : unfound (found ++ new) = (unfound found).filter fun k => new.all (·.kind ≠ k) := by
    unfold unfound
    rw [List.filter_filter]
    refine List.filter_congr fun k _ => ?_
    rw [List.all_append, Bool.and_comm]
  rw [sub]
  refine List.length_filter_lt_length_iff_exists.2 ⟨r.kind, ?_, ?_⟩
  · exact List.mem_filter.2 ⟨Kind.mem_all _, hn⟩
  · intro h
    simpa using List.all_eq_true.1 h r hr

theorem not_found_of_mem_extensions {r e : Route} {found : List Route}
    (h : e ∈ extensions as r found) : found.all (·.kind ≠ e.kind) := by
  obtain ⟨a, ha, rfl⟩ := List.mem_map.1 h
  have := (List.mem_filter.1 ha).2
  rw [Bool.and_eq_true] at this
  exact this.2

/-- Extends the routes in the queue, and those this finds. -/
def explore : (queue found : List Route) → List Route
  | [], found => found
  | r :: queue, found =>
    let new := extensions as r found
    explore (queue ++ new) (found ++ new)
termination_by queue found => ((unfound found).length, queue.length)
decreasing_by
  match h : extensions as r found with
  | [] =>
    simp only [List.append_nil]
    exact Prod.Lex.right _ (Nat.lt_succ_self _)
  | e :: es =>
    have he : e ∈ extensions as r found := by rw [h]; exact List.mem_cons_self
    rw [← h]
    exact Prod.Lex.left _ _ (length_unfound_append_lt he (not_found_of_mem_extensions as he))

/-- A route to every kind that can be reached. -/
def routes : List Route :=
  let start : Route := ⟨.program, []⟩
  explore as [start] [start]

/-- The chain of adapters to a kind. -/
def chain (k : Kind) : Except Error (List Adapter) :=
  match (routes as).find? (·.kind = k) with
  | some r => .ok r.chain
  | none => .error (.missingAdapter k)

/-- The nodes that a step of some granularity runs on. -/
def expandRoot (t : Tree) (k : Kind) : Except Error (List NodeId) :=
  (chain as k).map fun adapters =>
    adapters.foldl (fun nodes a => nodes.flatMap (a.expand t)) [Tree.root]

end AdapterSet

/-! ## Adapters of any make -/

/-- Some adapters, with what each of them makes of a node. -/
structure Adapters where
  between : AdapterSet
  expand : Adapter → Tree → NodeId → List NodeId

namespace Adapters

instance : Coe AdapterSet Adapters := ⟨fun as => ⟨as, Adapter.expand⟩⟩

variable (as : Adapters)

def chain (k : Kind) : Except Error (List Adapter) := as.between.chain k

def expandRoot (t : Tree) (k : Kind) : Except Error (List NodeId) :=
  (as.chain k).map fun adapters =>
    adapters.foldl (fun nodes a => nodes.flatMap (as.expand a t)) [Tree.root]

end Adapters

end Trellis
