import Courier.Network.Impaired
import Courier.Network.Simulated

/-!
# Sockets

An endpoint of a simulated network, with or without conditions of its own.
-/

namespace Courier

inductive Socket where
  | plain (e : Endpoint)
  | impaired (t : Impaired Endpoint)

namespace Socket

def make (addr : Address) (network : Network) (conditions : Option Conditions) : Socket :=
  let e : Endpoint := { network, addr }
  match conditions with
  | none => .plain e
  | some conditions => .impaired { inner := e, addr, conditions }

def endpoint : Socket → Endpoint
  | .plain e => e
  | .impaired t => t.inner

def attach (s : Socket) (network : Network) : Socket :=
  match s with
  | .plain e => .plain { e with network }
  | .impaired t => .impaired { t with inner := { t.inner with network } }

/-- Gives up the conditions, and with them what is still delayed. -/
def unwrap (s : Socket) : Socket := .plain s.endpoint

def setConditions (s : Socket) (conditions : Conditions) : Socket :=
  match s with
  | .plain e => .plain e
  | .impaired t => .impaired { t with conditions }

def elapse (s : Socket) (interval : Interval) : Socket :=
  match s with
  | .plain e => .plain e
  | .impaired t => .impaired (t.elapse interval)

def receiveOne (s : Socket) (buffer : Nat) : Option Datagram × Socket :=
  match s with
  | .plain e =>
    let (d, network) := e.network.receive e.addr buffer
    (d, .plain { e with network })
  | .impaired t =>
    match t.flush with
    | (some _, t) => (none, .impaired t)
    | (none, t) =>
      let (d, network) := t.inner.network.receive t.addr buffer
      (d, .impaired { t with inner := { t.inner with network } })

end Socket

instance : Transport Socket where
  send s peer bytes :=
    match s with
    | .plain e =>
      let (sent, e) := Transport.send e peer bytes
      (sent, .plain e)
    | .impaired t =>
      let (sent, t) := Transport.send t peer bytes
      (sent, .impaired t)
  receive s buffer :=
    match s with
    | .plain e =>
      let (inflow, e) := Transport.receive e buffer
      (inflow, .plain e)
    | .impaired t =>
      let (inflow, t) := Transport.receive t buffer
      (inflow, .impaired t)

end Courier
