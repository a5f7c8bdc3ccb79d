import Courier.Address
import Courier.Arrivals
import Courier.Assembly
import Courier.Departures
import Courier.Outgoing
import Courier.Packet
import Courier.Traffic

/-!
# Channels

A channel is one end of the exchange with one peer. In every tick it first
settles the packet sent one window ago, then takes in the packets of the peer
and last builds one packet of its own.
-/

namespace Courier

structure Channel where
  peer : Address
  phase : Phase := .idle
  departures : Departures := {}
  arrivals : Arrivals := {}
  outgoing : Outgoing := {}
  assembly : Assembly := {}
  traffic : Traffic := {}
  /-- What happened since the notices were last taken. -/
  notices : List Notice := []
  created : Time
  lastReceived : Time
  lastSent : Option Time := none

namespace Channel

def defaultTimeout : Interval := .seconds 5

def fresh (peer : Address) (now : Time) : Channel := { peer, created := now, lastReceived := now }

def outbox (c : Channel) : Outbox := c.outgoing.outbox

def note (c : Channel) (notices : List Notice) : Channel :=
  { c with notices := c.notices ++ notices }

def setPhase (c : Channel) (phase : Phase) : Channel :=
  if c.phase = phase then c else { c with phase }.note [.phase c.phase phase]

/-- Settles the packet sent one window before the next one. -/
def settle (c : Channel) : Option Loss × Channel :=
  let (loss?, notices, outgoing) := c.outgoing.settle c.departures.upcoming c.departures.acked
  let c := { c with outgoing }.note notices
  match loss? with
  | none => (none, c)
  | some loss =>
    let t := c.traffic
    (some loss,
      { c with
        traffic :=
          { t with
            packetsLost := t.packetsLost + 1
            messagesRequeued := t.messagesRequeued + loss.requeued
            messagesDropped := t.messagesDropped + loss.dropped }.updateLoss })

def acknowledge (c : Channel) (h : Header) (now : Time) : Channel :=
  let (outcome, departures) := c.departures.acknowledge h.ack h.ackBits now
  let c := { c with departures }
  match outcome with
  | .applied newly =>
    let (notices, outgoing) := c.outgoing.confirm newly
    { c with
      outgoing
      traffic :=
        { c.traffic with
          messagesDelivered := c.traffic.messagesDelivered + notices.length
          roundTrip := departures.roundTrip.smoothed
          roundTripVariation := departures.roundTrip.variation } }.note notices
  | .desync gap => c.note [.resync (.ackDesync gap)]
  | .ahead => c.note [.resync (.ackAhead h.ack departures.sequence)]
  | .stale => c

def touch (c : Channel) (now : Time) : Channel := { c with lastReceived := now }

def take (c : Channel) (p : Packet) (size : Nat) (now : Time) : List Delivery × Channel :=
  let t := c.traffic
  let c :=
    { c with
      traffic :=
        { t with
          packetsReceived := t.packetsReceived + 1, bytesReceived := t.bytesReceived + size } }
  let c := (c.touch now).acknowledge p.header now
  let (deliveries, assembly) := c.assembly.acceptAll p.messages
  (deliveries,
    { c with
      assembly
      traffic :=
        { c.traffic with messagesReceived := c.traffic.messagesReceived + p.messages.length } })

/-- Takes in a packet of the peer and returns the payloads that it completes.
A packet seen before, or too old to tell, only counts as a duplicate. -/
def receive (c : Channel) (p : Packet) (size : Nat) (now : Time) : List Delivery × Channel :=
  let (arrival, arrivals) := c.arrivals.record p.header.sequence
  let c := { c with arrivals }
  match arrival with
  | .duplicate | .stale =>
    ([],
      { c with traffic := { c.traffic with packetsDuplicate := c.traffic.packetsDuplicate + 1 } })
  | .resync gap => (c.note [.resync (.receiveGap gap)]).take p size now
  | .fresh | .late => c.take p size now

def enqueue (c : Channel) (kind : Kind) (critical : Bool) (payload : Bytes) :
    Except OutboxError UInt8 × Channel :=
  let (result, outbox) := c.outgoing.outbox.enqueue kind critical payload c.departures.acked
  (result, { c with outgoing := { c.outgoing with outbox } })

/-- Builds the next packet from as many pending messages as fit. -/
def build (c : Channel) (now : Time) : Packet × Channel :=
  let departures := c.departures.advance now
  let sequence := departures.sequence
  let (messages, outbox) := c.outgoing.outbox.drain Packet.capacity (Window.index sequence).toUInt8
  let header : Header :=
    { protocol := Packet.protocolId
      count := UInt16.ofNat messages.length
      sequence
      ack := c.arrivals.newest
      ackBits := c.arrivals.seen }
  ({ header, messages },
    { c with
      departures
      outgoing :=
        { outbox, flights := c.outgoing.flights.launch sequence (messages.any (·.critical)) }
      traffic := { c.traffic with messagesSent := c.traffic.messagesSent + messages.length }
      lastSent := some now })

def recordSent (c : Channel) (bytes : Nat) : Channel :=
  let t := c.traffic
  { c with
    traffic :=
      { t with packetsSent := t.packetsSent + 1, bytesSent := t.bytesSent + bytes }.updateLoss }

def recordSendError (c : Channel) : Channel :=
  { c with traffic := { c.traffic with sendErrors := c.traffic.sendErrors + 1 } }

def recordMalformed (c : Channel) : Channel :=
  { c with traffic := { c.traffic with packetsMalformed := c.traffic.packetsMalformed + 1 } }

def isTimedOut (c : Channel) (now : Time) (timeout : Interval) : Bool :=
  timeout < now.since c.lastReceived

def takeNotices (c : Channel) : List Notice × Channel := (c.notices, { c with notices := [] })

@[simp] theorem phase_setPhase (c : Channel) (phase : Phase) :
    (c.setPhase phase).phase = phase := by
  simp only [setPhase]
  split <;> simp_all [note]

end Channel

end Courier
