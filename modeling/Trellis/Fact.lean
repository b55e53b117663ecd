/-
  Trellis.Fact — tags, facts, and the sets of facts that plans are made of.

  A tag is a property of nodes of one kind, its scope. A fact is a tag, or the claim that
  markers of some kind are present. Facts are ordered: tags first, by name and then by scope,
  then marker kinds by name; a set of facts lists, prints and searches in that order.

  Proved: the order is total (`TransOrd`, `LawfulEqOrd`), and what an effect leaves behind
  (`FactSet.mem_apply`): additions win over removals.
-/
import Trellis.Kind
import Trellis.Sorted

namespace Trellis

structure Tag where
  name : String
  scope : Kind
  deriving DecidableEq

namespace Tag

def label (t : Tag) : String := t.name ++ "@" ++ t.scope.label

instance : Ord Tag := ⟨compareLex (compareOn name) (compareOn scope)⟩

instance : Std.TransOrd Tag :=
  inferInstanceAs (Std.TransCmp (compareLex (compareOn name) (compareOn scope)))

instance : Std.LawfulEqOrd Tag where
  compare_self := Std.ReflOrd.compare_self
  eq_of_compare {a b} h := by
    obtain ⟨hn, hs⟩ := compareLex_eq_eq.1 h
    have hn : a.name = b.name := Std.LawfulEqOrd.eq_of_compare hn
    have hs : a.scope = b.scope := Std.LawfulEqOrd.eq_of_compare hs
    cases a; cases b; cases hn; cases hs; rfl

end Tag

inductive Fact where
  | tag (tag : Tag)
  /-- Markers of this kind are present. -/
  | marker (kind : String)
  deriving DecidableEq

/-- How a marker kind is written. -/
def markerLabel (kind : String) : String := "marker:" ++ kind

namespace Fact

def tag? : Fact → Option Tag
  | tag t => some t
  | marker _ => none

def marker? : Fact → Option String
  | tag _ => none
  | marker k => some k

/-- The kind of node the fact is about; a marker kind may sit on any node. -/
def scope? (f : Fact) : Option Kind := f.tag?.map Tag.scope

def label : Fact → String
  | tag t => t.label
  | marker k => markerLabel k

/-- A tag sorts by itself, and before every marker kind. -/
def order : Fact → Fact → Ordering
  | tag a, tag b => compare a b
  | tag _, marker _ => .lt
  | marker _, tag _ => .gt
  | marker a, marker b => compare a b

instance : Ord Fact := ⟨order⟩

instance : Std.TransOrd Fact where
  eq_swap {a b} := by
    cases a <;> cases b
    · exact Std.OrientedOrd.eq_swap (α := Tag)
    · rfl
    · rfl
    · exact Std.OrientedOrd.eq_swap (α := String)
  isLE_trans {a b c} hab hbc := by
    cases a <;> cases b <;> cases c
    · exact Std.TransOrd.isLE_trans (α := Tag) hab hbc
    · rfl
    · cases hbc
    · rfl
    · cases hab
    · cases hab
    · cases hbc
    · exact Std.TransOrd.isLE_trans (α := String) hab hbc

instance : Std.LawfulEqOrd Fact where
  compare_self {a} := by
    cases a
    · exact Std.ReflOrd.compare_self (α := Tag)
    · exact Std.ReflOrd.compare_self (α := String)
  eq_of_compare {a b} h := by
    cases a <;> cases b
    · exact congrArg tag (Std.LawfulEqOrd.eq_of_compare (α := Tag) h)
    · cases h
    · cases h
    · exact congrArg marker (Std.LawfulEqOrd.eq_of_compare (α := String) h)

end Fact

abbrev FactSet := OrdSet Fact

namespace FactSet

/-- Tags as facts. -/
def ofTags (ts : OrdSet Tag) : FactSet := Sorted.ofList (ts.toList.map .tag)

/-- The set after an effect: removals first, then additions. -/
def apply (s adds removes : FactSet) : FactSet :=
  Sorted.insertAll (Sorted.eraseAll s removes.toList) adds.toList

/-- Whether every fact of `needs` holds in `s`. -/
def holdsAll (s needs : FactSet) : Bool := needs.toList.all (· ∈ s)

/-- The first fact of `needs` that does not hold in `s`. -/
def firstMissing (s needs : FactSet) : Option Fact := needs.toList.find? (· ∉ s)

def tags (s : FactSet) : List Tag := s.toList.filterMap Fact.tag?

def tagsOf (s : FactSet) (k : Kind) : List Tag := (tags s).filter (·.scope = k)

/-- The marker kinds in the set. -/
def markers (s : FactSet) : List String := s.toList.filterMap Fact.marker?

/-- The facts, separated by commas. -/
def list (s : FactSet) : String := ", ".intercalate (s.toList.map Fact.label)

/-- The facts in braces. -/
def text (s : FactSet) : String := "\x7b" ++ list s ++ "\x7d"

theorem mem_apply {s adds removes : FactSet} {f : Fact} :
    f ∈ apply s adds removes ↔ f ∈ adds ∨ f ∈ s ∧ f ∉ removes := by
  rw [apply, OrdSet.mem_insertAll, OrdSet.mem_eraseAll]
  rfl

theorem holdsAll_iff {s needs : FactSet} : holdsAll s needs ↔ ∀ f ∈ needs, f ∈ s := by
  simp [holdsAll, Sorted.mem_toList]

theorem firstMissing_eq_none {s needs : FactSet} :
    firstMissing s needs = none ↔ ∀ f ∈ needs, f ∈ s := by
  simp [firstMissing, Sorted.mem_toList]

end FactSet

end Trellis
