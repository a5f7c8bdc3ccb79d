/-!
# Traffic counters

What went over a channel, in counts and bytes, with the round-trip estimate
last known and the share of lost packets.
-/

namespace Courier

structure Traffic where
  packetsSent : Nat := 0
  packetsReceived : Nat := 0
  packetsLost : Nat := 0
  packetsDuplicate : Nat := 0
  packetsMalformed : Nat := 0
  bytesSent : Nat := 0
  bytesReceived : Nat := 0
  messagesSent : Nat := 0
  messagesReceived : Nat := 0
  messagesDelivered : Nat := 0
  messagesRequeued : Nat := 0
  messagesDropped : Nat := 0
  sendErrors : Nat := 0
  roundTrip : Float32 := 0.0
  roundTripVariation : Float32 := 0.0
  lossPercent : Float32 := 0.0

namespace Traffic

def counters (t : Traffic) : List Nat :=
  [t.packetsSent, t.packetsReceived, t.packetsLost, t.packetsDuplicate, t.packetsMalformed,
    t.bytesSent, t.bytesReceived, t.messagesSent, t.messagesReceived, t.messagesDelivered,
    t.messagesRequeued, t.messagesDropped, t.sendErrors]

def toFloat32 (n : Nat) : Float32 := n.toUInt64.toFloat32

def larger (x y : Float32) : Float32 :=
  if x.isNaN then y else if x < y then y else x

def updateLoss (t : Traffic) : Traffic :=
  { t with
    lossPercent :=
      if t.packetsSent = 0 then 0.0 else toFloat32 t.packetsLost / toFloat32 t.packetsSent * 100.0 }

def add (t u : Traffic) : Traffic :=
  updateLoss
    { packetsSent := t.packetsSent + u.packetsSent
      packetsReceived := t.packetsReceived + u.packetsReceived
      packetsLost := t.packetsLost + u.packetsLost
      packetsDuplicate := t.packetsDuplicate + u.packetsDuplicate
      packetsMalformed := t.packetsMalformed + u.packetsMalformed
      bytesSent := t.bytesSent + u.bytesSent
      bytesReceived := t.bytesReceived + u.bytesReceived
      messagesSent := t.messagesSent + u.messagesSent
      messagesReceived := t.messagesReceived + u.messagesReceived
      messagesDelivered := t.messagesDelivered + u.messagesDelivered
      messagesRequeued := t.messagesRequeued + u.messagesRequeued
      messagesDropped := t.messagesDropped + u.messagesDropped
      sendErrors := t.sendErrors + u.sendErrors
      roundTrip := larger t.roundTrip u.roundTrip
      roundTripVariation := larger t.roundTripVariation u.roundTripVariation
      lossPercent := t.lossPercent }

end Traffic

end Courier
