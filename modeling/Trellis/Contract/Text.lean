/-
  Trellis.Contract.Text — a contract on one line, field by field.
-/
import Trellis.Contract
import Trellis.Text.Quoted

namespace Trellis

namespace Text

def braced (items : List String) : String := "\x7b" ++ ", ".intercalate items ++ "\x7d"

/-- A name with its fields in braces. -/
def record (name : String) (fields : List (String × String)) : String :=
  name ++ " \x7b " ++ ", ".intercalate (fields.map fun f => f.1 ++ ": " ++ f.2) ++ " \x7d"

def yesOrNo (b : Bool) : String := if b then "true" else "false"

end Text

open Text

/-- A fact spelled out. -/
def Fact.longText : Fact → String
  | tag t => "Tag(" ++ record "Tag" [("name", quoted t.name), ("scope", t.scope.label)] ++ ")"
  | marker k => "Marker(MarkerKind(" ++ quoted k ++ "))"

def FactSet.longText (fs : FactSet) : String := braced (fs.toList.map Fact.longText)

/-- The contract of a unit, which may have a filter or not. The description is left out. -/
def Contract.text (c : Contract) (filtered : Bool) : String :=
  record "Descriptor" [
    ("name", quoted c.name),
    ("granularity", c.granularity.label),
    ("needs", c.needs.longText),
    ("adds", c.adds.longText),
    ("removes", c.removes.longText),
    ("features", braced (c.features.toList.map fun f => "Feature(" ++ quoted f ++ ")")),
    ("uses", braced (c.uses.toList.map quoted)),
    ("exclusive", yesOrNo c.exclusive),
    ("order_hint", toString c.orderHint),
    ("filter", yesOrNo filtered)]

end Trellis
