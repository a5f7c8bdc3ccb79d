import Courier.Address
import Courier.Address.Ip.Parse

/-!
# Reading addresses

The port follows the last colon. Of all names only that of the machine itself
is known; other hosts are given by number.
-/

namespace Courier

inductive AddressError where
  | invalidAddress
  | invalidPort
  /-- There is a NUL character before the port. -/
  | nulInHost
  | unknownHost
  deriving DecidableEq, Repr

def AddressError.message : AddressError → String
  | .invalidAddress => "invalid socket address"
  | .invalidPort => "invalid port value"
  | .nulInHost => "file name contained an unexpected NUL byte"
  | .unknownHost => "failed to lookup address information: Name or service not known"

namespace Address

def port? (text : List Char) : Option UInt16 :=
  let digits := if text.head? = some '+' then text.drop 1 else text
  ((Numeral.value? 10 digits).filter (· < 65536)).map UInt16.ofNat

def bracketed? : List Char → Option Ip
  | '[' :: rest => if rest.getLast? = some ']' then Ip.v6? rest.dropLast else none
  | _ => none

def localhost? (text : List Char) : Option Ip :=
  if text.map Char.toLower = "localhost".toList then some (.v4 0x7F000001) else none

/-- Brackets go only with a port that has no sign. -/
def host? (text port : List Char) : Option Ip :=
  Ip.v4? text <|> Ip.v6? text <|> localhost? text <|>
    if port.head? = some '+' then none else bracketed? text

def parse (text : String) : Except AddressError Address :=
  match Split.last? ':' text.toList with
  | none => .error .invalidAddress
  | some (host, digits) =>
    match port? digits with
    | none => .error .invalidPort
    | some port =>
      if host.contains (Char.ofNat 0) then .error .nulInHost
      else
        match host? host digits with
        | some ip => .ok { ip, port }
        | none => .error .unknownHost

end Address

end Courier
