import Courier.Text.Decimal

/-!
# Quantities for people

Sizes in the largest fitting unit with one place, durations as hours, minutes
and seconds.
-/

namespace Courier.Quantity

def inUnits (bytes : Nat) (unit : Float) : String :=
  (Decimal.Value.ofFloat (bytes.toUInt64.toFloat / unit)).toFixed 1

def size (bytes : Nat) : String :=
  if bytes < 1024 then toString bytes ++ "B"
  else if bytes < 1024 * 1024 then inUnits bytes 1024.0 ++ "KB"
  else if bytes < 1024 * 1024 * 1024 then inUnits bytes 1048576.0 ++ "MB"
  else inUnits bytes 1073741824.0 ++ "GB"

def twoDigits (n : Nat) : String := Decimal.padLeft 2 '0' (toString n)

def duration (seconds : Nat) : String :=
  ":".intercalate
    [twoDigits (seconds / 3600), twoDigits (seconds % 3600 / 60), twoDigits (seconds % 60)]

def percent (x : Float32) : String := (Decimal.Value.ofFloat32 x).toFixed 1 ++ "%"

def millis (places : Nat) (x : Float32) : String :=
  (Decimal.Value.ofFloat32 x).toFixed places ++ "ms"

end Courier.Quantity
