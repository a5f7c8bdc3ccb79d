import Courier.Bytes

/-!
# Hexadecimal text

Two lower-case digits for each byte.
-/

namespace Courier.Hex

def digit (n : Nat) : Char := Char.ofNat (if n < 10 then '0'.toNat + n else 'a'.toNat + n - 10)

def value (c : Char) : Nat :=
  if c.isDigit then c.toNat - '0'.toNat else c.toLower.toNat - 'a'.toNat + 10

def encode (bytes : Bytes) : String :=
  bytes.foldl (fun text b => (text.push (digit (b.toNat / 16))).push (digit (b.toNat % 16))) ""

def decodeChars : List Char → Bytes
  | high :: low :: rest => UInt8.ofNat (value high * 16 + value low) :: decodeChars rest
  | _ => []

def decode (text : String) : Bytes := decodeChars text.toList

end Courier.Hex
