/-
  Trellis.Filter — filters on nodes that can be written down.
-/
import Trellis.Forest

namespace Trellis

inductive Filter where
  | nameIn (names : List String)
  | nameStarts (start : String)
  | kindIs (kind : Kind)
  /-- At least so many children, which a negative number makes no condition. -/
  | childrenAtLeast (count : Int)
  | parentIs (parent : NodeId)
  /-- An odd number for an identifier. -/
  | odd
  | never
  | not (f : Filter)
  | all (fs : List Filter)
  | any (fs : List Filter)

namespace Filter

mutual

def accepts (n : Node) : Filter → Bool
  | nameIn names => n.name ∈ names
  | nameStarts start => start.toList.isPrefixOf n.name.toList
  | kindIs kind => n.kind = kind
  | childrenAtLeast count => count ≤ (n.children.length : Int)
  | parentIs parent => n.parent? = some parent
  | odd => n.id % 2 = 1
  | never => false
  | not f => !f.accepts n
  | all fs => acceptedByAll n fs
  | any fs => acceptedByAny n fs

def acceptedByAll (n : Node) : List Filter → Bool
  | [] => true
  | f :: fs => f.accepts n && acceptedByAll n fs

def acceptedByAny (n : Node) : List Filter → Bool
  | [] => false
  | f :: fs => f.accepts n || acceptedByAny n fs

end

end Filter

end Trellis
