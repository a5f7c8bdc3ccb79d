import Courier.Address.Ip
import Courier.Text.Numeral
import Courier.Text.Split

/-!
# Reading hosts

An IPv4 host has one to four parts. Each is decimal, octal with a leading zero,
or hexadecimal with a leading `0x`. The last part fills all bytes that are left.

An IPv6 host has eight hexadecimal groups. One `::` may stand for the groups
that are missing, and four decimal octets for the last two groups.
-/

namespace Courier.Ip

def part? : List Char → Option Nat
  | '0' :: c :: rest =>
    if c.toLower = 'x' then Numeral.value? 16 rest else Numeral.value? 8 (c :: rest)
  | text => Numeral.value? 10 text

def join? : (bytes : Nat) → List Nat → Option Nat
  | _, [] => none
  | bytes, [last] => if last < 1 <<< (8 * bytes) then some last else none
  | bytes, part :: rest =>
    if part < 256 ∧ 1 < bytes then
      (join? (bytes - 1) rest).map (part <<< (8 * (bytes - 1)) + ·)
    else none

def v4? (text : List Char) : Option Ip := do
  let value ← join? 4 (← (Split.parts '.' text).mapM part?)
  return .v4 (UInt32.ofNat value)

def octet? (text : List Char) : Option Nat :=
  if 1 < text.length ∧ text.head? = some '0' then none
  else (Numeral.value? 10 text).filter (· < 256)

def octets? (text : List Char) : Option (List Nat) :=
  match (Split.parts '.' text).mapM octet? with
  | some [a, b, c, d] => some [a * 256 + b, c * 256 + d]
  | _ => none

def group? (text : List Char) : Option Nat :=
  if 4 < text.length then none else Numeral.value? 16 text

/-- The groups of some parts, the last of which may be four octets if `mixed`. -/
def groupsOf? (mixed : Bool) : List (List Char) → Option (List Nat)
  | [] => some []
  | [last] => (group? last).map ([·]) <|> if mixed then octets? last else none
  | part :: rest => do return (← group? part) :: (← groupsOf? mixed rest)

def groups? (mixed : Bool) (text : List Char) : Option (List Nat) :=
  if text = [] then some [] else groupsOf? mixed (Split.parts ':' text)

def gap? : List Char → Option (List Char × List Char)
  | ':' :: ':' :: after => some ([], after)
  | c :: rest => (gap? rest).map fun (before, after) => (c :: before, after)
  | [] => none

def allGroups? (text : List Char) : Option (List Nat) :=
  match gap? text with
  | none => (groups? true text).filter (·.length = 8)
  | some (before, after) => do
    let head ← groups? false before
    let tail ← groups? true after
    let given := head.length + tail.length
    if given < 8 then some (head ++ List.replicate (8 - given) 0 ++ tail) else none

def zone? (text : List Char) : Option UInt32 :=
  ((Numeral.value? 10 text).filter (· < 1 <<< 32)).map UInt32.ofNat

def v6? (text : List Char) : Option Ip := do
  let (host, zone) ← match Split.parts '%' text with
    | [host] => some (host, 0)
    | [host, zone] => (zone? zone).map (host, ·)
    | _ => none
  let groups ← allGroups? host
  return .v6 (BitVec.ofNat 128 (groups.foldl (· <<< 16 + ·) 0)) zone

end Courier.Ip
