/-
  Trellis.Marker.Stock — the marker types that scripted units work with.

  Two labels, a text and a number, share a kind and are copied; a scratch text is dropped; the
  rest are regenerated in a copy: a plain text as it is, a serial number as the number of the
  copy, and a fickle text, unless it is empty, as a path from the source to the copy.
-/
import Trellis.Marker

namespace Trellis

inductive StockMarker where
  | label
  | numericLabel
  | scratch
  | plain
  | serial
  | fickle
  deriving DecidableEq

namespace StockMarker

def kind : StockMarker → String
  | label | numericLabel => "label"
  | scratch => "scratch"
  | plain => "plain"
  | serial => "serial"
  | fickle => "fickle"

def onClone : StockMarker → ClonePolicy
  | label | numericLabel => .copy
  | scratch => .drop
  | plain => .regenerate fun _ _ payload => some payload
  | serial => .regenerate fun _ copy _ => some (.number (copy : Int))
  | fickle => .regenerate fun source copy payload =>
    match payload with
    | .text "" => none
    | .text path => some (.text s!"{path}/{nodeLabel source}>{nodeLabel copy}")
    | .number n => some (.number n)

instance : MarkerFamily StockMarker := ⟨inferInstance, kind, onClone⟩

end StockMarker

end Trellis
