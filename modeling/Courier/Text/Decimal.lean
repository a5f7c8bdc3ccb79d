/-!
# Decimal text of floating-point numbers

A floating-point number is an exact multiple of a power of two. It is written
with a fixed number of places, rounded from its exact value; a half goes to the
even neighbour.
-/

namespace Courier.Decimal

def roundDiv (num den : Nat) : Nat :=
  let q := num / den
  let twice := 2 * (num % den)
  if twice < den then q
  else if den < twice then q + 1
  else if q % 2 = 0 then q else q + 1

inductive Value where
  /-- `mantissa * 2 ^ exponent` with a sign. -/
  | finite (negative : Bool) (mantissa : Nat) (exponent : Int)
  | infinite (negative : Bool)
  | notANumber
  deriving DecidableEq, Repr

/-- Reads the sign, the biased exponent and the fraction of a number whose
fraction has `fractionBits` and whose exponent has `exponentBits` bits. -/
def Value.ofBits (exponentBits fractionBits bits : Nat) : Value :=
  let negative := (bits >>> (exponentBits + fractionBits)) % 2 == 1
  let exponent := (bits >>> fractionBits) % (1 <<< exponentBits)
  let fraction := bits % (1 <<< fractionBits)
  let bias : Nat := 1 <<< (exponentBits - 1) - 1 + fractionBits
  if exponent = 1 <<< exponentBits - 1 then
    if fraction = 0 then .infinite negative else .notANumber
  else if exponent = 0 then .finite negative fraction (1 - (bias : Int))
  else .finite negative (1 <<< fractionBits + fraction) (exponent - (bias : Int))

def Value.ofFloat (x : Float) : Value := .ofBits 11 52 x.toBits.toNat

def Value.ofFloat32 (x : Float32) : Value := .ofBits 8 23 x.toBits.toNat

def padLeft (width : Nat) (fill : Char) (text : String) : String :=
  String.ofList (List.replicate (width - text.length) fill) ++ text

def placed (places units : Nat) : String :=
  if places = 0 then toString units
  else
    let unit := Nat.pow 10 places
    toString (units / unit) ++ "." ++ padLeft places '0' (toString (units % unit))

def Value.toFixed (places : Nat) : Value → String
  | .finite negative mantissa exponent =>
    let scaled := mantissa * Nat.pow 10 places
    let units :=
      if 0 ≤ exponent then scaled <<< exponent.toNat else roundDiv scaled (1 <<< (-exponent).toNat)
    (if negative then "-" else "") ++ placed places units
  | .infinite negative => if negative then "-inf" else "inf"
  | .notANumber => "NaN"

theorem roundDiv_near (num den : Nat) (h : 0 < den) :
    2 * num ≤ 2 * (roundDiv num den * den) + den ∧
    2 * (roundDiv num den * den) ≤ 2 * num + den := by
  have hdm := Nat.div_add_mod num den
  have hlt := Nat.mod_lt num h
  have hc : den * (num / den) = num / den * den := Nat.mul_comm ..
  have hs : (num / den + 1) * den = num / den * den + den := Nat.succ_mul ..
  simp only [roundDiv]
  repeat' split
  all_goals omega

end Courier.Decimal
