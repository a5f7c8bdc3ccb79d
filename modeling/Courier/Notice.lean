import Courier.Message
import Courier.Phase

/-!
# Notices

What happens inside a channel, in the order in which it happens. Notices name
messages without their data.
-/

namespace Courier

/-- A message without its data. -/
structure Envelope where
  kind : Kind
  critical : Bool
  fragment : UInt8
  order : UInt8
  size : Nat
  deriving DecidableEq, Repr

def Message.envelope (m : Message) : Envelope :=
  { kind := m.kind, critical := m.critical, fragment := m.fragment, order := m.order,
    size := m.data.length }

/-- Why the two windows no longer overlap. -/
inductive Resync where
  /-- The peer's packets jumped a whole window or more. -/
  | receiveGap (gap : UInt32)
  /-- The peer's acknowledgement lags a whole window or more. -/
  | ackDesync (gap : UInt32)
  /-- The peer acknowledged a packet that was never sent. -/
  | ackAhead (ack sequence : UInt32)
  deriving DecidableEq, Repr

def Resync.reason : Resync → String
  | .receiveGap _ => "receive gap"
  | .ackDesync _ => "ack desync"
  | .ackAhead .. => "ack ahead"

inductive Notice where
  | lost (sequence : UInt32) (critical : Bool)
  | delivered (e : Envelope)
  | dropped (e : Envelope)
  | requeued (e : Envelope)
  | resync (r : Resync)
  | phase (before after : Phase)
  deriving DecidableEq, Repr

end Courier
