/-!
# Numerals

Numbers written in a base of at most sixteen. Letters of either case are digits.
-/

namespace Courier.Numeral

def digits : List Char := "0123456789abcdef".toList

def digit? (base : Nat) (c : Char) : Option Nat :=
  (digits.findIdx? (· == c.toLower)).filter (· < base)

def value? (base : Nat) (text : List Char) : Option Nat :=
  if text = [] then none
  else (text.mapM (digit? base)).map (·.foldl (fun value digit => value * base + digit) 0)

end Courier.Numeral
