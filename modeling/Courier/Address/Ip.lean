/-!
# Hosts by number

The number of a host in an IPv4 or IPv6 network, and how it is written.
-/

namespace Courier

inductive Ip where
  | v4 (bits : UInt32)
  /-- The zone tells links apart that use the same numbers. Zero is none. -/
  | v6 (bits : BitVec 128) (zone : UInt32)
  deriving DecidableEq, Repr

namespace Ip

def fields (width count value : Nat) : List Nat :=
  (List.range count).map fun i => (value >>> (width * (count - 1 - i))) % (1 <<< width)

def dotted (value : Nat) : String :=
  ".".intercalate ((fields 8 4 value).map fun octet => toString octet)

def colonSeparated (groups : List Nat) : String :=
  ":".intercalate (groups.map fun group => String.ofList (Nat.toDigits 16 group))

/-- Start and length of the first of the longest runs of zeros. -/
def zeroRun (groups : List Nat) : Nat × Nat :=
  (List.range groups.length).foldl (fun best start =>
    let length := ((groups.drop start).takeWhile (· = 0)).length
    if best.2 < length then (start, length) else best) (0, 0)

def shortened (groups : List Nat) : String :=
  let (start, length) := zeroRun groups
  if 1 < length then
    colonSeparated (groups.take start) ++ "::" ++ colonSeparated (groups.drop (start + length))
  else colonSeparated groups

/-- The text without the zone. An IPv4 host in an IPv6 network keeps its dots. -/
def toText : Ip → String
  | .v4 bits => dotted bits.toNat
  | .v6 bits _ =>
    if bits.toNat >>> 32 = 0xFFFF then "::ffff:" ++ dotted bits.toNat
    else shortened (fields 16 8 bits.toNat)

def rank : Ip → Nat
  | .v4 bits => bits.toNat
  | .v6 bits _ => 1 <<< 32 + bits.toNat

end Ip

end Courier
