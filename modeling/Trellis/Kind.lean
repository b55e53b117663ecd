/-
  Trellis.Kind — the kinds of program node and how they nest.

  `canContain` says which child a node may be given; `encloses` says whose subtrees a kind of
  node can occur in at all, itself included. Kinds are ordered from the whole program down to
  the statement, and wherever kinds are listed or tried in order it is this order.

  Proved: what a chain of containments leads down to is enclosed (`encloses_self`,
  `encloses_of_canContain`), and the order is total (`TransOrd`, `LawfulEqOrd`).
-/
namespace Trellis

inductive Kind where
  | program
  | package
  | type
  | method
  | field
  | statement
  deriving DecidableEq

namespace Kind

/-- The kinds in their order. -/
def all : List Kind := [program, package, type, method, field, statement]

def rank : Kind → Nat
  | program => 0
  | package => 1
  | type => 2
  | method => 3
  | field => 4
  | statement => 5

def label : Kind → String
  | program => "Program"
  | package => "Package"
  | type => "Type"
  | method => "Method"
  | field => "Field"
  | statement => "Statement"

/-- Whether a node of the first kind may have a child of the second. Types nest, and so do
    statements; a field has no children. -/
def canContain : Kind → Kind → Bool
  | program, package => true
  | package, type => true
  | type, type | type, method | type, field => true
  | method, statement => true
  | statement, statement => true
  | _, _ => false

/-- Whether a node of the second kind can lie in the subtree of one of the first. -/
def encloses (a b : Kind) : Bool :=
  a == b || match a with
    | program => true
    | package => b == type || b == method || b == field || b == statement
    | type => b == method || b == field || b == statement
    | method => b == statement
    | field | statement => false

theorem mem_all (k : Kind) : k ∈ all := by cases k <;> decide

theorem rank_inj {a b : Kind} (h : a.rank = b.rank) : a = b := by
  cases a <;> cases b <;> first | rfl | cases h

instance : Ord Kind := ⟨compareOn rank⟩

instance : Std.TransOrd Kind := inferInstanceAs (Std.TransCmp (compareOn rank))

instance : Std.LawfulEqOrd Kind where
  compare_self := Std.ReflOrd.compare_self
  eq_of_compare {_ _} h := rank_inj (Std.LawfulEqOrd.eq_of_compare (α := Nat) h)

theorem encloses_self (k : Kind) : k.encloses k := by cases k <;> decide

/-- A child's kind is enclosed, and so is whatever that encloses. -/
theorem encloses_of_canContain {a b c : Kind} (h : a.canContain b) (hb : b.encloses c) :
    a.encloses c := by
  revert h hb; cases a <;> cases b <;> cases c <;> decide

end Kind

end Trellis
