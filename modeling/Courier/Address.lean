import Courier.Address.Ip

/-!
# Addresses

A host by number with a port, written `a.b.c.d:port` or `[group:…:group]:port`.
Addresses are ordered by their hosts and then by the port.
-/

namespace Courier

structure Address where
  ip : Ip
  port : UInt16
  deriving DecidableEq, Repr

namespace Address

def host (addr : Address) : String :=
  match addr.ip with
  | .v4 _ => addr.ip.toText
  | .v6 _ zone => "[" ++ addr.ip.toText ++ (if zone = 0 then "" else "%" ++ toString zone.toNat) ++
      "]"

def toText (addr : Address) : String := addr.host ++ ":" ++ toString addr.port.toNat

def rank (addr : Address) : Nat := addr.ip.rank * 65536 + addr.port.toNat

def le (x y : Address) : Bool := x.rank ≤ y.rank

end Address

end Courier
