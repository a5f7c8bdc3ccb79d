import Courier.Network.Conditions
import Courier.Network.Transit
import Courier.Transport

/-!
# Impaired transports

A transport whose outgoing datagrams meet loss and latency. A delayed datagram
goes out with a later send or receive. The clock is the transport's own.
-/

namespace Courier

structure Impaired (σ : Type) where
  inner : σ
  addr : Address
  conditions : Conditions
  clock : Time := 0
  delayed : Transit := {}
  dropped : Nat := 0
  noise : Noise := .standard

namespace Impaired

variable {σ : Type} [Transport σ]

/-- Sends datagrams one by one up to the first failure; the rest stays. -/
def sendDue (net : σ) : List InTransit → Option String × List InTransit × σ
  | [] => (none, [], net)
  | d :: rest =>
    match Transport.send net d.target d.bytes with
    | (.ok _, net) => sendDue net rest
    | (.error text, net) => (some text, rest, net)

def flush (t : Impaired σ) : Option String × Impaired σ :=
  let (due, delayed) := t.delayed.release t.clock
  let (failure, kept, inner) := sendDue t.inner due
  (failure, { t with inner, delayed := { delayed with waiting := kept ++ delayed.waiting } })

def elapse (t : Impaired σ) (interval : Interval) : Impaired σ :=
  { t with clock := t.clock + interval }

def delayedCount (t : Impaired σ) : Nat := t.delayed.waiting.length

def sendNow (t : Impaired σ) (peer : Address) (bytes : Bytes) : Except String Nat × Impaired σ :=
  let (drop, noise) := t.conditions.drops t.noise
  if drop then (.ok bytes.length, { t with noise, dropped := t.dropped + 1 })
  else
    let (latency, noise) := t.conditions.latency noise
    let t := { t with noise }
    if latency = 0 then
      let (result, inner) := Transport.send t.inner peer bytes
      (result, { t with inner })
    else
      (.ok bytes.length,
        { t with delayed := t.delayed.add (t.clock + Interval.millis latency) t.addr peer bytes })

instance : Transport (Impaired σ) where
  send t peer bytes :=
    match t.flush with
    | (some failure, t) => (.error failure, t)
    | (none, t) => t.sendNow peer bytes
  receive t buffer :=
    match t.flush with
    | (some failure, t) => ({ failure := some failure }, t)
    | (none, t) =>
      let (inflow, inner) := Transport.receive t.inner buffer
      (inflow, { t with inner })

end Impaired

end Courier
