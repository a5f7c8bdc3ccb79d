import Courier.Channel
import Courier.Packet.Codec
import Courier.Transport

/-!
# Channels and datagrams

A channel's next packet as a datagram, the way back, sending over a transport,
and the causes of what can go wrong.
-/

namespace Courier

inductive Fault where
  | transport (text : String)
  | payload (e : PayloadError)
  | outbox (e : OutboxError)
  deriving DecidableEq, Repr

def Fault.message : Fault → String
  | .transport text => text
  | .payload e => e.message
  | .outbox e => e.message

namespace Channel

def transmit {σ : Type} [Transport σ] (c : Channel) (net : σ) (now : Time) :
    Option String × Channel × σ :=
  let (packet, c) := c.build now
  match packet.encode with
  | .error _ => (none, c.recordSendError, net)
  | .ok bytes =>
    match Transport.send net c.peer bytes with
    | (.ok sent, net) => (none, c.recordSent sent, net)
    | (.error text, net) => (some text, c.recordSendError, net)

def post (c : Channel) (now : Time) : Except PacketError ((Option Loss × Bytes) × Channel) :=
  let (loss, c) := c.settle
  let (packet, c) := c.build now
  packet.encode.map fun bytes => ((loss, bytes), c.recordSent bytes.length)

def accept (c : Channel) (bytes : Bytes) (now : Time) :
    Except PacketError (List Delivery × Channel) :=
  (Packet.decode bytes).map fun packet => c.receive packet bytes.length now

end Channel

end Courier
