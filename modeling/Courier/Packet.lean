import Courier.Message

/-!
# Packets

A packet is a header and the messages it carries. A header names the protocol,
the number of messages, the packet itself and what its sender has seen of the
other side.
-/

namespace Courier

structure Header where
  protocol : UInt16
  count : UInt16
  sequence : UInt32
  /-- The newest packet seen from the other side. -/
  ack : UInt32
  /-- Which of the 32 packets up to `ack` were seen. -/
  ackBits : UInt32
  deriving DecidableEq, Repr

structure Packet where
  header : Header
  messages : List Message
  deriving DecidableEq, Repr

namespace Packet

def maxSize : Nat := 508

def headerSize : Nat := 16

def capacity : Nat := maxSize - headerSize

def maxMessages : Nat := capacity / Message.headerSize

def protocolId : UInt16 := 8

def defaultPort : UInt16 := 30000

def payloadSize (p : Packet) : Nat := p.messages.foldr (fun m total => m.wireSize + total) 0

def hasCritical (p : Packet) : Bool := p.messages.any (·.critical)

end Packet

def Header.isValid (h : Header) : Bool := h.protocol == Packet.protocolId

end Courier
