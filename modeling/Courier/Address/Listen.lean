import Courier.Address.Parse

/-!
# Addresses to listen at

The machine is taken to have one network of its own, the IPv4 loopback network.
-/

namespace Courier

inductive ListenError where
  | address (e : AddressError)
  | unavailable
  /-- Each link uses the number anew, and the zone that tells them apart is missing. -/
  | zoneMissing
  deriving DecidableEq, Repr

def ListenError.message : ListenError → String
  | .address e => e.message
  | .unavailable => "Cannot assign requested address (os error 99)"
  | .zoneMissing => "Invalid argument (os error 22)"

namespace Ip

def isLocal4 (value : Nat) : Bool :=
  value = 0 || value >>> 24 = 127 || value >>> 28 = 14 || value = 0xFFFFFFFF

def isGroup6 (value : Nat) : Bool := value >>> 120 = 0xFF

/-- Hosts of one link, and groups within one machine or one link. -/
def needsZone (value : Nat) : Bool :=
  value >>> 118 = 0x3FA || isGroup6 value && [1, 2].contains ((value >>> 112) % 16)

def listen : Ip → Except ListenError Unit
  | .v4 bits => if isLocal4 bits.toNat then .ok () else .error .unavailable
  | .v6 bits zone =>
    let value := bits.toNat
    if value = 0 || value >>> 32 = 0xFFFF && isLocal4 (value % 1 <<< 32) then .ok ()
    else if needsZone value && zone = 0 then .error .zoneMissing
    else if isGroup6 value then .ok ()
    else .error .unavailable

end Ip

def Address.listen (text : String) : Except ListenError Address := do
  let addr ← (Address.parse text).mapError .address
  addr.ip.listen
  return addr

end Courier
