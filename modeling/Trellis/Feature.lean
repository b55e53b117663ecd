/-
  Trellis.Feature — the feature switches of a session.

  A feature that was never mentioned is off. Switches are written as a list: items between
  commas, blanks around an item ignored, empty items skipped, and one leading `-` turning the
  feature off; of two items naming a feature the later one counts.
-/
import Trellis.Sorted
import Trellis.Text.Blank

namespace Trellis

abbrev Features := OrdMap String Bool

namespace Features

def set (fs : Features) (name : String) (on : Bool) : Features := OrdMap.set fs name on

def isEnabled (fs : Features) (name : String) : Bool := (OrdMap.get? fs name).getD false

/-- The first of the names that is not enabled. -/
def firstDisabled (fs : Features) (names : List String) : Option String :=
  names.find? fun n => !isEnabled fs n

/-- The feature an item names and whether it turns it on; blanks alone name none. -/
def parseItem (item : List Char) : Option (String × Bool) :=
  match Text.trim item with
  | [] => none
  | '-' :: name => some (String.ofList name, false)
  | name => some (String.ofList name, true)

/-- The switches a list of items sets, in order. -/
def parseItems (text : String) : List (String × Bool) :=
  (Text.splitAt ',' text.toList).filterMap parseItem

def parse (text : String) : Features := Sorted.ofList (parseItems text)

end Features

end Trellis
