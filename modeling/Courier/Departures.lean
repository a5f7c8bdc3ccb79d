import Courier.RoundTrip
import Courier.Serial
import Courier.Time
import Courier.Window

/-!
# Packets that were sent

The sequence number of the newest packet, which of the last 32 packets the peer
acknowledged, and when those still unacknowledged were sent.
-/

namespace Courier

inductive AckOutcome where
  /-- Positions that became acknowledged. -/
  | applied (newly : UInt32)
  /-- The peer is a whole window or more behind, so nothing is known. -/
  | desync (gap : UInt32)
  /-- The peer acknowledges a packet that was never sent. -/
  | ahead
  /-- Older than an acknowledgement applied before. -/
  | stale
  deriving DecidableEq, Repr

structure Departures where
  sequence : UInt32 := 0xFFFFFFFF
  acked : UInt32 := 0xFFFFFFFF
  lastAck : Option UInt32 := none
  /-- Send times of packets that gave no round-trip sample yet. -/
  sentAt : Vector (Option Time) 32 := Vector.replicate 32 none
  roundTrip : RoundTrip := {}

namespace Departures

def isAcked (d : Departures) (index : UInt32) : Bool := Window.has d.acked index

def upcoming (d : Departures) : UInt32 := d.sequence + 1

def advance (d : Departures) (now : Time) : Departures :=
  let sequence := d.upcoming
  { d with
    sequence
    acked := d.acked &&& ~~~(Window.bit (Window.index sequence))
    sentAt := d.sentAt.set (Window.slot sequence) (some now) }

/-- Takes one round-trip sample for the packet at `index`, unless it gave one before. -/
def sampleAt (now : Time) (d : Departures) (index : UInt32) : Departures :=
  match d.sentAt[Window.slot index] with
  | none => d
  | some sent =>
    { d with
      sentAt := d.sentAt.set (Window.slot index) none
      roundTrip := d.roundTrip.sample ((now.since sent).toSeconds * 1000.0) }

def acknowledge (d : Departures) (ack bits : UInt32) (now : Time) : AckOutcome × Departures :=
  if Serial.ahead32 ack d.sequence then (.ahead, d)
  else if d.lastAck.any (Serial.ahead32 · ack) then (.stale, d)
  else
    let gap := d.sequence - ack
    if 32 ≤ gap then (.desync gap, { d with lastAck := some ack, acked := 0 })
    else
      -- positions after `ack` belong to packets that the peer had not seen
      let acked := bits &&& Window.keep (Window.index ack) (Window.index d.sequence)
      let newly := acked &&& ~~~d.acked
      let d := { d with lastAck := some ack, acked }
      (.applied newly, (Window.indices.filter (Window.has newly)).foldl (sampleAt now) d)

@[simp] theorem sequence_advance (d : Departures) (now : Time) :
    (d.advance now).sequence = d.sequence + 1 := rfl

@[simp] theorem sequence_sampleAt (now : Time) (d : Departures) (index : UInt32) :
    (sampleAt now d index).sequence = d.sequence := by
  simp only [sampleAt]
  split <;> rfl

end Departures

end Courier
