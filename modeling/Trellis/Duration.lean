/-
  Trellis.Duration — spans of time in whole nanoseconds, and how they are written.

  A duration has fewer than 2^64 whole seconds. A sum that would have more is no duration:
  adding reports the two summands instead (`Overflow`), and nothing is lost below that.

  A duration is written in the largest of s, ms, µs and ns of which it has at least one, with
  the digits after the point that are needed and no more; nothing at all is `0ns`.
-/
namespace Trellis

namespace Duration

def nanosPerSecond : Nat := 1000000000

/-- The first number of nanoseconds that is too much. -/
def limit : Nat := UInt64.size * nanosPerSecond

end Duration

structure Duration where
  nanos : Nat
  within : nanos < Duration.limit
  deriving DecidableEq

namespace Duration

/-- Two durations whose sum is too long to be one. -/
structure Overflow where
  left : Duration
  right : Duration
  deriving DecidableEq

def Overflow.message (_ : Overflow) : String := "overflow when adding durations"

def zero : Duration := ⟨0, by decide⟩

def ofNanos? (n : Nat) : Option Duration := if h : n < limit then some ⟨n, h⟩ else none

/-- Nanoseconds that make whole seconds count as such. -/
def ofParts? (seconds nanos : Nat) : Option Duration := ofNanos? (seconds * nanosPerSecond + nanos)

def seconds (d : Duration) : Nat := d.nanos / nanosPerSecond

/-- The nanoseconds beyond the whole seconds. -/
def subsecond (d : Duration) : Nat := d.nanos % nanosPerSecond

def add (a b : Duration) : Except Overflow Duration :=
  match ofNanos? (a.nanos + b.nanos) with
  | some sum => .ok sum
  | none => .error ⟨a, b⟩

/-- The units with their lengths in nanoseconds and the decimal places that makes. -/
def units : List (String × Nat × Nat) :=
  [("s", 1000000000, 9), ("ms", 1000000, 6), ("µs", 1000, 3)]

/-- The last `places` digits of `n`, zeros at the end left out. -/
def fraction : (places : Nat) → (n : Nat) → List Char
  | 0, _ => []
  | places + 1, n =>
    let front := n / 10
    if n % 10 = 0 then fraction places front
    else digits places front ++ [Nat.digitChar (n % 10)]
where
  /-- The last `places` digits of `n`. -/
  digits : (places : Nat) → (n : Nat) → List Char
    | 0, _ => []
    | places + 1, n => digits places (n / 10) ++ [Nat.digitChar (n % 10)]

def text (d : Duration) : String :=
  match units.find? fun u => u.2.1 ≤ d.nanos with
  | some (unit, length, places) =>
    let whole := toString (d.nanos / length)
    match fraction places (d.nanos % length) with
    | [] => whole ++ unit
    | digits => whole ++ "." ++ String.ofList digits ++ unit
  | none => toString d.nanos ++ "ns"

end Duration

end Trellis
