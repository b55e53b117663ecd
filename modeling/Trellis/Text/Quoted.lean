/-
  Trellis.Text.Quoted — text between quotation marks, on one line.

  Quotation marks and backslashes are marked by a backslash, tab, line feed, carriage return
  and the null character have a letter or digit of their own, and any other character that does
  not show by itself is spelled out by its number in hexadecimal.
-/
import Trellis.Text.Unprinted

namespace Trellis.Text

def hexDigits (n : Nat) : List Char := Nat.toDigits 16 n

def escape (c : Char) : List Char :=
  match c with
  | '\x00' => ['\\', '0']
  | '\t' => ['\\', 't']
  | '\r' => ['\\', 'r']
  | '\n' => ['\\', 'n']
  | '"' => ['\\', '"']
  | '\\' => ['\\', '\\']
  | _ => if isUnprinted c then ['\\', 'u', '\x7b'] ++ hexDigits c.toNat ++ ['\x7d'] else [c]

def quoted (s : String) : String := String.ofList ('"' :: (s.toList.flatMap escape ++ ['"']))

end Trellis.Text
