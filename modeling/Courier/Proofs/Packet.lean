import Mathlib.Data.List.Infix
import Courier.Packet.Codec

/-!
# What a datagram says

`decode_ok_iff`: a datagram is read as a packet exactly if it begins with the
bytes of that packet. `encode_ok_iff`: a packet is written exactly if it keeps
the three limits, and then its bytes are followed by zeros. What is read is
written the same, field by field and message by message.
-/

namespace Courier

-- ---------------------------------------------------------------------------
-- Fields
-- ---------------------------------------------------------------------------

namespace Kind

set_option maxRecDepth 4000 in
private theorem byte_table : ∀ i : Fin 256,
    (UInt8.ofNat i.val &&& maxCode) ||| (if UInt8.ofNat i.val &&& criticalFlag != 0
      then criticalFlag else 0) =
      UInt8.ofNat i.val := by
  decide

theorem toWire_ofWire (byte : UInt8) : (ofWire byte).1.toWire (ofWire byte).2 = byte := by
  have h := byte_table ⟨byte.toNat, byte.toNat_lt⟩
  simp only [UInt8.ofNat_toNat] at h
  exact h

end Kind

namespace Bytes

theorem toNat_lt (bytes : Bytes) : toNat bytes < span bytes.length := by
  induction bytes with
  | nil => exact Nat.one_pos
  | cons b rest ih =>
    have hb := b.toNat_lt
    simp only [toNat, List.length_cons, span]
    omega

theorem padTo_eq {size : Nat} {bytes : Bytes} (h : bytes.length ≤ size) :
    padTo size bytes = bytes ++ List.replicate (size - bytes.length) 0 := by
  rw [padTo, List.take_of_length_le h]

end Bytes

namespace Header

theorem ofWire_toWire (h : Header) (rest : Bytes) : ofWire (h.toWire ++ rest) = h := by
  obtain ⟨protocol, count, sequence, ack, ackBits⟩ := h
  have hword (n : UInt16) : UInt16.ofNat (Bytes.toNat (Bytes.ofNat 2 n.toNat)) = n := by
    rw [Bytes.toNat_ofNat]
    simp [Bytes.span]
  have hlong (n : UInt32) : UInt32.ofNat (Bytes.toNat (Bytes.ofNat 4 n.toNat)) = n := by
    rw [Bytes.toNat_ofNat]
    simp [Bytes.span]
  calc ofWire (toWire ⟨protocol, count, sequence, ack, ackBits⟩ ++ rest)
    _ =
      ⟨.ofNat (Bytes.toNat (Bytes.ofNat 2 protocol.toNat)),
        .ofNat (Bytes.toNat (Bytes.ofNat 2 count.toNat)),
          .ofNat (Bytes.toNat (Bytes.ofNat 4 sequence.toNat)),
          .ofNat (Bytes.toNat (Bytes.ofNat 4 ack.toNat)),
            .ofNat (Bytes.toNat (Bytes.ofNat 4 ackBits.toNat))⟩ := rfl
    _ = ⟨protocol, count, sequence, ack, ackBits⟩ := by simp only [hword, hlong]

theorem toWire_ofWire {bytes : Bytes} (h : Packet.headerSize ≤ bytes.length) :
    (ofWire bytes).toWire = bytes.take Packet.headerSize := by
  have hfield {start width : Nat} (hend : start + width ≤ Packet.headerSize) :
      ((bytes.drop start).take width).length = width := by
    simp only [List.length_take, List.length_drop]
    omega
  have hword {start : Nat} (hend : start + 2 ≤ Packet.headerSize) :
      Bytes.ofNat 2 (UInt16.ofNat (Bytes.toNat ((bytes.drop start).take 2))).toNat =
        (bytes.drop start).take 2 := by
    have hlt := Bytes.toNat_lt ((bytes.drop start).take 2)
    have hread := Bytes.ofNat_toNat ((bytes.drop start).take 2)
    rw [hfield hend] at hlt hread
    rwa [UInt16.toNat_ofNat_of_lt' hlt]
  have hlong {start : Nat} (hend : start + 4 ≤ Packet.headerSize) :
      Bytes.ofNat 4 (UInt32.ofNat (Bytes.toNat ((bytes.drop start).take 4))).toNat =
        (bytes.drop start).take 4 := by
    have hlt := Bytes.toNat_lt ((bytes.drop start).take 4)
    have hread := Bytes.ofNat_toNat ((bytes.drop start).take 4)
    rw [hfield hend] at hlt hread
    rwa [UInt32.toNat_ofNat_of_lt' hlt]
  have htwo (n : Nat) : bytes.take n ++ (bytes.drop n).take 2 = bytes.take (n + 2) :=
    (List.take_add ..).symm
  have hfour (n : Nat) : bytes.take n ++ (bytes.drop n).take 4 = bytes.take (n + 4) :=
    (List.take_add ..).symm
  simp only [toWire, ofWire]
  rw [hword (by decide), hword (by decide), hlong (by decide), hlong (by decide), hlong (by decide),
    List.drop_zero, htwo, hfour, hfour, hfour]
  rfl

end Header

namespace Packet

variable {bytes : Bytes} {p : Packet} {messages : List Message} {count index : Nat}

-- ---------------------------------------------------------------------------
-- Messages one after another
-- ---------------------------------------------------------------------------

@[simp] theorem body_cons (m : Message) (rest : List Message) :
    body (m :: rest) = m.toWire ++ body rest := rfl

theorem length_body (p : Packet) : (body p.messages).length = p.payloadSize := by
  obtain ⟨header, messages⟩ := p
  simp only [payloadSize]
  induction messages with
  | nil => rfl
  | cons m rest ih => simp [ih]

theorem headerSize_mul_le (p : Packet) :
    Message.headerSize * p.messages.length ≤ p.payloadSize := by
  obtain ⟨header, messages⟩ := p
  simp only [payloadSize]
  induction messages with
  | nil => exact Nat.le_refl _
  | cons m rest ih =>
    rw [List.length_cons, List.foldr_cons, Nat.mul_succ, Nat.add_comm]
    exact Nat.add_le_add (Nat.le_add_right ..) ih

theorem readMessages_body (hfits : ∀ m ∈ messages, m.data.length ≤ Message.maxData) (rest : Bytes) :
    readMessages index messages.length (body messages ++ rest) = .ok messages := by
  induction messages generalizing index with
  | nil => simp [readMessages]
  | cons m ms ih =>
    obtain ⟨hm, hms⟩ := List.forall_mem_cons.mp hfits
    have hsize : (UInt8.ofNat m.data.length).toNat = m.data.length :=
      UInt8.toNat_ofNat_of_lt' (Nat.lt_of_le_of_lt hm (by decide))
    simp only [body_cons, Message.toWire, List.length_cons, List.cons_append, List.append_assoc,
      readMessages, hsize, Kind.ofWire_toWire, List.length_append]
    rw [if_neg (by omega), if_neg (by omega), List.drop_left, List.take_left, ih hms]

/-- The bytes that messages are read from are those that they are written to. -/
theorem readMessages_ok (h : readMessages index count bytes = .ok messages) :
    messages.length = count ∧ (∀ m ∈ messages, m.data.length ≤ Message.maxData) ∧
    body messages <+: bytes := by
  induction count generalizing index bytes messages with
  | zero =>
    simp only [readMessages, Except.ok.injEq] at h
    subst h
    exact ⟨rfl, by simp, List.nil_prefix⟩
  | succ count ih =>
    match bytes with
    | [] | [_] | [_, _] | [_, _, _] => simp [readMessages] at h
    | size :: wire :: fragment :: order :: rest =>
      simp only [readMessages] at h
      split at h
      · cases h
      next hsize =>
        split at h
        · cases h
        next hlength =>
          split at h
          · cases h
          next others hothers =>
            obtain ⟨hcount, hfits, suffix, hrest⟩ := ih hothers
            cases h
            have hdata : (rest.take size.toNat).length = size.toNat := by
              rw [List.length_take]
              omega
            refine ⟨by rw [List.length_cons, hcount], List.forall_mem_cons.mpr ⟨?_, hfits⟩, suffix,
              ?_⟩
            · rw [hdata]
              omega
            · simp only [body_cons, Message.toWire, hdata, UInt8.ofNat_toNat, Kind.toWire_ofWire,
                List.cons_append, List.append_assoc, hrest, List.take_append_drop]

theorem firstTooLarge_none :
    firstTooLarge index messages = none ↔ ∀ m ∈ messages, m.data.length ≤ Message.maxData := by
  induction messages generalizing index with
  | nil => simp [firstTooLarge]
  | cons m rest ih =>
    simp only [firstTooLarge, List.forall_mem_cons]
    split
    next hlarge => simp [Nat.not_le.mpr hlarge]
    next hfits => simp [ih, Nat.not_lt.mp hfits]

-- ---------------------------------------------------------------------------
-- Whole packets
-- ---------------------------------------------------------------------------

def wire (p : Packet) : Bytes := p.header.toWire ++ body p.messages

structure Framed (p : Packet) : Prop where
  protocol_eq : p.header.protocol = protocolId
  count_eq : p.header.count.toNat = p.messages.length
  fits : ∀ m ∈ p.messages, m.data.length ≤ Message.maxData

/-- The packet with the count that it is sent with. -/
def counted (p : Packet) : Packet :=
  { p with header := { p.header with count := UInt16.ofNat p.messages.length } }

theorem length_wire (p : Packet) : p.wire.length = headerSize + p.payloadSize := by
  simp [wire, length_body]

theorem length_le_of_payloadSize (h : p.payloadSize ≤ capacity) : p.messages.length ≤ maxMessages :=
  (Nat.le_div_iff_mul_le (by decide)).mpr (Nat.mul_comm .. ▸ p.headerSize_mul_le.trans h)

theorem Framed.counted_eq (hp : p.Framed) : p.counted = p := by
  obtain ⟨⟨protocol, count, sequence, ack, ackBits⟩, messages⟩ := p
  have hcount : UInt16.ofNat messages.length = count := by
    rw [← hp.count_eq, UInt16.ofNat_toNat]
  rw [counted, hcount]

theorem framed_counted (hprotocol : p.header.protocol = protocolId)
    (hmany : p.messages.length ≤ maxMessages)
    (hfits : ∀ m ∈ p.messages, m.data.length ≤ Message.maxData) : p.counted.Framed where
  protocol_eq := hprotocol
  count_eq := UInt16.toNat_ofNat_of_lt' (Nat.lt_of_le_of_lt hmany (by decide))
  fits := hfits

theorem decode_wire (hp : p.Framed) (hfront : p.wire <+: bytes) (hlength : bytes.length ≤ maxSize) :
    decode bytes = .ok p := by
  obtain ⟨padding, rfl⟩ := hfront
  rw [List.length_append, length_wire] at hlength
  have hheader : Header.ofWire (p.wire ++ padding) = p.header := by
    rw [wire, List.append_assoc, Header.ofWire_toWire]
  have hbody : (p.wire ++ padding).drop headerSize = body p.messages ++ padding := by
    rw [wire, List.append_assoc, List.drop_left' p.header.length_toWire]
  have hvalid : p.header.isValid = true := by simp [Header.isValid, hp.protocol_eq]
  have hmany : p.messages.length ≤ maxMessages :=
    length_le_of_payloadSize (Nat.le_sub_of_add_le' (Nat.le_of_add_right_le hlength))
  simp only [decode, List.length_append, length_wire, hheader, hbody, hp.count_eq,
    readMessages_body hp.fits]
  rw [if_neg (by omega), if_neg (by omega), if_pos hvalid, if_neg (by omega)]

theorem decode_ok (h : decode bytes = .ok p) :
    p.Framed ∧ p.wire <+: bytes ∧ bytes.length ≤ maxSize := by
  simp only [decode] at h
  split at h
  · cases h
  next hshort =>
    split at h
    · cases h
    next hlong =>
      split at h
      next hvalid =>
        split at h
        · cases h
        · split at h
          · cases h
          next messages hread =>
            cases h
            obtain ⟨hcount, hfits, padding, hpadding⟩ := readMessages_ok hread
            refine ⟨⟨by simpa [Header.isValid] using hvalid, hcount.symm, hfits⟩, ⟨padding, ?_⟩,
              by omega⟩
            rw [wire, Header.toWire_ofWire (by omega), List.append_assoc, hpadding,
              List.take_append_drop]
      · cases h

theorem decode_ok_iff :
    decode bytes = .ok p ↔ p.Framed ∧ p.wire <+: bytes ∧ bytes.length ≤ maxSize :=
  ⟨decode_ok, fun ⟨hp, hfront, hlength⟩ => decode_wire hp hfront hlength⟩

/-- What is left of a datagram is read the same as long as the last message is whole. -/
theorem decode_take_ok_iff {q : Packet} (h : decode bytes = .ok p) (n : Nat) :
    decode (bytes.take n) = .ok q ↔ q = p ∧ headerSize + p.payloadSize ≤ n := by
  obtain ⟨hp, hfront, hlength⟩ := decode_ok h
  have htake : (bytes.take n).length ≤ maxSize := (List.length_take_le' ..).trans hlength
  constructor
  · intro hq
    obtain ⟨hqframed, hqprefix, -⟩ := decode_ok hq
    obtain ⟨hqbytes, hn⟩ := List.prefix_take_iff.mp hqprefix
    cases h.symm.trans (decode_wire hqframed hqbytes hlength)
    exact ⟨rfl, p.length_wire ▸ hn⟩
  · rintro ⟨rfl, hn⟩
    exact decode_wire hp (List.prefix_take_iff.mpr ⟨hfront, q.length_wire ▸ hn⟩) htake

/-- The limits that a packet has to keep to be sent. -/
structure WithinLimits (p : Packet) : Prop where
  length_le : p.messages.length ≤ maxMessages
  fits : ∀ m ∈ p.messages, m.data.length ≤ Message.maxData
  payloadSize_le : p.payloadSize ≤ capacity

theorem WithinLimits.length_wire_le (hp : p.WithinLimits) : p.wire.length ≤ maxSize := by
  rw [length_wire]
  exact Nat.add_le_of_le_sub' (by decide) hp.payloadSize_le

theorem encode_ok_iff :
    p.encode = .ok bytes ↔ p.WithinLimits ∧
    bytes = p.counted.wire ++ List.replicate (maxSize - p.wire.length) 0 := by
  have hwire : p.counted.wire.length = p.wire.length := by simp only [length_wire]; rfl
  constructor
  · intro h
    simp only [encode] at h
    split at h
    · cases h
    next hmany =>
      split at h
      · cases h
      next hfits =>
        split at h
        · cases h
        next hsize =>
          cases h
          have hp : p.WithinLimits :=
            ⟨Nat.not_lt.mp hmany, firstTooLarge_none.mp hfits, Nat.not_lt.mp hsize⟩
          exact ⟨hp, hwire ▸ Bytes.padTo_eq (hwire ▸ hp.length_wire_le)⟩
  · rintro ⟨hp, rfl⟩
    simp only [encode]
    rw [if_neg (Nat.not_lt.mpr hp.length_le), firstTooLarge_none.mpr hp.fits]
    simp only
    rw [if_neg (Nat.not_lt.mpr hp.payloadSize_le), ← hwire,
      ← Bytes.padTo_eq (hwire ▸ hp.length_wire_le)]
    rfl

end Packet

end Courier
