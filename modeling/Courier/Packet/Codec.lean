import Courier.Packet

/-!
# Packets as datagrams

A datagram holds the header, the messages one after another and zeros up to the
full size of 508 bytes. Reading accepts any padding, also none.
-/

namespace Courier

inductive PacketError where
  | tooShort (size : Nat)
  | tooLong (size : Nat)
  | invalidProtocol (found : UInt16)
  | tooManyMessages (count : Nat)
  | messageTooLarge (index size : Nat)
  | truncated (index needed available : Nat)
  | payloadOverflow (size : Nat)
  deriving DecidableEq, Repr

namespace PacketError

def hex (word : UInt16) : String :=
  let digits := Nat.toDigits 16 word.toNat
  "0x" ++ String.ofList (List.replicate (4 - digits.length) '0' ++ digits)

def message : PacketError → String
  | .tooShort size =>
    s!"datagram of {size} bytes is shorter than the {Packet.headerSize}-byte header"
  | .tooLong size => s!"datagram of {size} bytes exceeds {Packet.maxSize} bytes"
  | .invalidProtocol found => "unknown protocol id " ++ hex found
  | .tooManyMessages count =>
    s!"declared {count} messages, at most {Packet.maxMessages} fit a packet"
  | .messageTooLarge index size =>
    s!"message {index} declares {size} bytes, limit is {Message.maxData}"
  | .truncated index needed available =>
    s!"message {index} needs {needed} bytes but only {available} remain"
  | .payloadOverflow size => s!"messages need {size} payload bytes, capacity is {Packet.capacity}"

end PacketError

namespace Header

def toWire (h : Header) : Bytes :=
  Bytes.ofNat 2 h.protocol.toNat ++ Bytes.ofNat 2 h.count.toNat ++ Bytes.ofNat 4 h.sequence.toNat ++
    Bytes.ofNat 4 h.ack.toNat ++ Bytes.ofNat 4 h.ackBits.toNat

def ofWire (bytes : Bytes) : Header :=
  let field (start width : Nat) : Nat := Bytes.toNat ((bytes.drop start).take width)
  { protocol := UInt16.ofNat (field 0 2)
    count := UInt16.ofNat (field 2 2)
    sequence := UInt32.ofNat (field 4 4)
    ack := UInt32.ofNat (field 8 4)
    ackBits := UInt32.ofNat (field 12 4) }

@[simp] theorem length_toWire (h : Header) : h.toWire.length = Packet.headerSize := by
  simp [toWire, Packet.headerSize]

end Header

namespace Packet

/-- The first message with too much data, counted from `index`. -/
def firstTooLarge : (index : Nat) → List Message → Option (Nat × Nat)
  | _, [] => none
  | index, m :: rest =>
    if Message.maxData < m.data.length then some (index, m.data.length)
    else firstTooLarge (index + 1) rest

def body (messages : List Message) : Bytes := messages.flatMap Message.toWire

/-- The count in the header is that of the messages, whatever the header held. -/
def encode (p : Packet) : Except PacketError Bytes :=
  if maxMessages < p.messages.length then .error (.tooManyMessages p.messages.length)
  else match firstTooLarge 0 p.messages with
    | some (index, size) => .error (.messageTooLarge index size)
    | none =>
      if capacity < p.payloadSize then .error (.payloadOverflow p.payloadSize)
      else
        let header := { p.header with count := UInt16.ofNat p.messages.length }
        .ok ((header.toWire ++ body p.messages).padTo maxSize)

def readMessages : (index count : Nat) → Bytes → Except PacketError (List Message)
  | _, 0, _ => .ok []
  | index, count + 1, size :: wire :: fragment :: order :: rest =>
    let length := size.toNat
    if Message.maxData < length then .error (.messageTooLarge index length)
    else if rest.length < length then
      .error (.truncated index (Message.headerSize + length) (Message.headerSize + rest.length))
    else
      let (kind, critical) := Kind.ofWire wire
      match readMessages (index + 1) count (rest.drop length) with
      | .error e => .error e
      | .ok messages =>
        .ok ({ kind, critical, fragment, order, data := rest.take length } :: messages)
  | index, _ + 1, short => .error (.truncated index Message.headerSize short.length)

def decode (bytes : Bytes) : Except PacketError Packet :=
  if bytes.length < headerSize then .error (.tooShort bytes.length)
  else if maxSize < bytes.length then .error (.tooLong bytes.length)
  else
    let header := Header.ofWire bytes
    if header.isValid then
      if maxMessages < header.count.toNat then .error (.tooManyMessages header.count.toNat)
      else match readMessages 0 header.count.toNat (bytes.drop headerSize) with
        | .error e => .error e
        | .ok messages => .ok { header, messages }
    else .error (.invalidProtocol header.protocol)

theorem length_of_encode {p : Packet} {bytes : Bytes} (h : p.encode = .ok bytes) :
    bytes.length = maxSize := by
  simp only [encode] at h
  repeat' split at h
  all_goals simp_all
  all_goals simp [← h]

end Packet

end Courier
