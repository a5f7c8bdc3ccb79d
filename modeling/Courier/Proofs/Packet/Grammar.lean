import Courier.Proofs.Packet

/-!
# The form of a datagram

The format is said on the bytes alone, without reading them: a header, records
one after another, padding. `accepts_exactly_the_form`: a datagram is accepted
exactly if it has this form, and writing what was read gives the same bytes up
to the end of the last record.
-/

namespace Courier.Packet

/-- A length of at most 96, a byte for kind and flag, id, order and the data. -/
inductive IsRecord : Bytes → Prop
  | mk {size kind fragment order : UInt8} {data : Bytes} : size.toNat ≤ 96 →
      data.length = size.toNat →
    IsRecord (size :: kind :: fragment :: order :: data)

inductive IsRecords : Nat → Bytes → Prop
  | nil : IsRecords 0 []
  | cons {count : Nat} {first rest : Bytes} : IsRecord first → IsRecords count rest →
    IsRecords (count + 1) (first ++ rest)

/-- A header of 16 bytes that names protocol 8 and a count, so many records, the
last of which ends at `extent`, and any padding. -/
inductive HasForm : Bytes → (extent : Nat) → Prop
  | mk {count : Nat} {numbers records padding : Bytes} : count < 65536 → numbers.length = 12 →
    IsRecords count records →
    HasForm (Bytes.ofNat 2 8 ++ Bytes.ofNat 2 count ++ numbers ++ records ++ padding)
      (16 + records.length)

variable {bytes : Bytes} {p : Packet} {count extent : Nat}

theorem isRecord_toWire {m : Message} (hm : m.data.length ≤ Message.maxData) :
    IsRecord m.toWire := by
  have hsize : (UInt8.ofNat m.data.length).toNat = m.data.length :=
    UInt8.toNat_ofNat_of_lt' (Nat.lt_of_le_of_lt hm (by decide))
  exact .mk (hsize.trans_le hm) hsize.symm

theorem IsRecord.exists_message (h : IsRecord bytes) :
    ∃ m : Message, m.toWire = bytes ∧ m.data.length ≤ Message.maxData := by
  cases h with
  | @mk size kind fragment order data hsize hdata =>
    refine ⟨⟨(Kind.ofWire kind).1, (Kind.ofWire kind).2, fragment, order, data⟩, ?_, hdata ▸ hsize⟩
    rw [Message.toWire, hdata, UInt8.ofNat_toNat, Kind.toWire_ofWire]

theorem isRecords_body {messages : List Message}
    (hfits : ∀ m ∈ messages, m.data.length ≤ Message.maxData) :
    IsRecords messages.length (body messages) := by
  induction messages with
  | nil => exact .nil
  | cons m rest ih =>
    obtain ⟨hm, hrest⟩ := List.forall_mem_cons.mp hfits
    exact .cons (isRecord_toWire hm) (ih hrest)

theorem IsRecords.exists_messages (h : IsRecords count bytes) :
    ∃ messages, messages.length = count ∧ (∀ m ∈ messages, m.data.length ≤ Message.maxData) ∧
      body messages = bytes := by
  induction h with
  | nil => exact ⟨[], rfl, by simp, rfl⟩
  | cons hfirst _ ih =>
    obtain ⟨m, rfl, hm⟩ := hfirst.exists_message
    obtain ⟨messages, rfl, hfits, rfl⟩ := ih
    exact ⟨m :: messages, rfl, List.forall_mem_cons.mpr ⟨hm, hfits⟩, rfl⟩

theorem Framed.hasForm (hp : p.Framed) (hfront : p.wire <+: bytes) :
    HasForm bytes p.wire.length := by
  obtain ⟨padding, rfl⟩ := hfront
  obtain ⟨⟨protocol, count, sequence, ack, ackBits⟩, messages⟩ := p
  obtain rfl : protocol = 8 := hp.protocol_eq
  have hcount : count.toNat = messages.length := hp.count_eq
  let numbers :=
    Bytes.ofNat 4 sequence.toNat ++ Bytes.ofNat 4 ack.toNat ++ Bytes.ofNat 4 ackBits.toNat
  have hform :
      HasForm (Bytes.ofNat 2 8 ++ Bytes.ofNat 2 count.toNat ++ numbers ++ body messages ++ padding)
      (16 + (body messages).length) :=
    .mk count.toNat_lt (by simp [numbers]) (hcount ▸ isRecords_body hp.fits)
  rw [length_wire, ← length_body]
  simp only [numbers, ← List.append_assoc] at hform
  simp only [wire, Header.toWire]
  exact hform

theorem HasForm.exists_packet (h : HasForm bytes extent) :
    ∃ p : Packet, p.Framed ∧ p.wire <+: bytes ∧ p.wire.length = extent := by
  cases h with
  | @mk count numbers records padding hcount hnumbers hrecords =>
    obtain ⟨messages, hlength, hfits, rfl⟩ := hrecords.exists_messages
    let front := Bytes.ofNat 2 8 ++ Bytes.ofNat 2 count ++ numbers
    have hfront : front.length = headerSize := by simp [front, hnumbers, headerSize]
    have hheader : (Header.ofWire (front ++ body messages ++ padding)).toWire = front := by
      rw [Header.toWire_ofWire (by simp [hfront]), List.append_assoc, List.take_left' hfront]
    refine ⟨⟨Header.ofWire (front ++ body messages ++ padding), messages⟩, ⟨?_, ?_, hfits⟩,
      ⟨padding, ?_⟩, ?_⟩
    · rfl
    · show (UInt16.ofNat (Bytes.toNat (Bytes.ofNat 2 count))).toNat = messages.length
      have hspan : count < Bytes.span 2 := hcount
      rw [Bytes.toNat_ofNat, hlength, Nat.mod_eq_of_lt hspan, UInt16.toNat_ofNat_of_lt' hcount]
    · rw [wire, hheader]
    · rw [wire, hheader, List.length_append, hfront]
      rfl

theorem decode_isOk_iff (bytes : Bytes) :
    (∃ p, decode bytes = .ok p) ↔ bytes.length ≤ maxSize ∧ ∃ extent, HasForm bytes extent := by
  constructor
  · rintro ⟨p, h⟩
    obtain ⟨hp, hfront, hlength⟩ := decode_ok h
    exact ⟨hlength, _, hp.hasForm hfront⟩
  · rintro ⟨hlength, extent, hform⟩
    obtain ⟨p, hp, hfront, -⟩ := hform.exists_packet
    exact ⟨p, decode_wire hp hfront hlength⟩

/-- The last record of a form ends where the packet that is read ends. -/
theorem HasForm.extent_eq (hform : HasForm bytes extent) (h : decode bytes = .ok p) :
    extent = p.wire.length := by
  obtain ⟨q, hq, hqprefix, rfl⟩ := hform.exists_packet
  obtain ⟨-, -, hlength⟩ := decode_ok h
  cases h.symm.trans (decode_wire hq hqprefix hlength)
  rfl

theorem withinLimits_of_decode (h : decode bytes = .ok p) : p.WithinLimits := by
  obtain ⟨hp, hfront, hlength⟩ := decode_ok h
  have hsize : p.payloadSize ≤ capacity := by
    have hwire := hfront.length_le.trans hlength
    rw [length_wire] at hwire
    exact Nat.le_sub_of_add_le' hwire
  exact ⟨length_le_of_payloadSize hsize, hp.fits, hsize⟩

/-- Of all byte strings exactly those of the form are accepted, and each of them
is written again as it was, with zeros in place of its padding. -/
theorem accepts_exactly_the_form (bytes : Bytes) :
    ((∃ p, decode bytes = .ok p) ↔ 16 ≤ bytes.length ∧ bytes.length ≤ 508 ∧
      ∃ extent, HasForm bytes extent) ∧
    ∀ p extent, decode bytes = .ok p → HasForm bytes extent →
      p.encode = .ok (bytes.take extent ++ List.replicate (508 - extent) 0) := by
  constructor
  · rw [decode_isOk_iff]
    constructor
    · rintro ⟨hlength, extent, hform⟩
      obtain ⟨p, -, hfront, -⟩ := hform.exists_packet
      have hshort := hfront.length_le
      rw [length_wire] at hshort
      exact ⟨Nat.le_of_add_right_le hshort, hlength, extent, hform⟩
    · exact fun ⟨_, hlength, hform⟩ => ⟨hlength, hform⟩
  · intro p extent h hform
    obtain ⟨hp, hfront, -⟩ := decode_ok h
    obtain rfl := hform.extent_eq h
    refine encode_ok_iff.mpr ⟨withinLimits_of_decode h, ?_⟩
    rw [hp.counted_eq, ← List.prefix_iff_eq_take.mp hfront]
    rfl

end Courier.Packet
