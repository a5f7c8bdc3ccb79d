import Courier.Proofs.Packet

/-!
# What is written is read back

A packet within the limits becomes a datagram of full size. The datagram, and
each part of it from the start that still holds the last message, is read as
the same packet; a shorter part is refused.
-/

namespace Courier.Packet

variable {p : Packet}

theorem encode_isOk_iff (p : Packet) : (∃ bytes, p.encode = .ok bytes) ↔ p.WithinLimits := by
  constructor
  · rintro ⟨bytes, h⟩
    exact (encode_ok_iff.mp h).1
  · exact fun hp => ⟨_, encode_ok_iff.mpr ⟨hp, rfl⟩⟩

theorem WithinLimits.decode_encode {bytes : Bytes} (hprotocol : p.header.protocol = protocolId)
    (h : p.encode = .ok bytes) : decode bytes = .ok p.counted := by
  obtain ⟨hp, hbytes⟩ := encode_ok_iff.mp h
  apply decode_wire (framed_counted hprotocol hp.length_le hp.fits)
  · exact ⟨_, hbytes.symm⟩
  · exact Nat.le_of_eq (length_of_encode h)

/-- A packet is written exactly if it keeps the limits, and it is read back from
what was written exactly as far as its last message was not cut. Only the count
in its header may change: it becomes the number of messages. -/
theorem written_is_read_back (p : Packet) (hprotocol : p.header.protocol = 8) :
    ((∃ bytes, p.encode = .ok bytes) ↔
      p.messages.length ≤ 123 ∧ (∀ m ∈ p.messages, m.data.length ≤ 96) ∧ p.payloadSize ≤ 492) ∧
    ∀ bytes, p.encode = .ok bytes →
      bytes.length = 508 ∧ p.counted.header.count.toNat = p.messages.length ∧
        decode bytes = .ok p.counted ∧
        ∀ n, (16 + p.payloadSize ≤ n → decode (bytes.take n) = .ok p.counted) ∧
          (n < 16 + p.payloadSize → ∃ e, decode (bytes.take n) = .error e) := by
  refine ⟨(encode_isOk_iff p).trans
    ⟨fun hp => ⟨hp.1, hp.2, hp.3⟩, fun hp => ⟨hp.1, hp.2.1, hp.2.2⟩⟩, ?_⟩
  intro bytes h
  have hwhole := WithinLimits.decode_encode hprotocol h
  obtain ⟨hcounted, -⟩ := decode_ok hwhole
  refine ⟨length_of_encode h, hcounted.count_eq, hwhole, fun n => ⟨fun hn => ?_, fun hn => ?_⟩⟩
  · exact (decode_take_ok_iff hwhole n).mpr ⟨rfl, hn⟩
  · cases hcut : decode (bytes.take n) with
    | error e => exact ⟨e, rfl⟩
    | ok q => exact absurd ((decode_take_ok_iff hwhole n).mp hcut).2 (Nat.not_le.mpr hn)

def request : Packet where
  header := { protocol := 8, count := 7, sequence := 42, ack := 17, ackBits := 0xDEADBEEF }
  messages := [⟨.credentials, true, 3, 0, [1, 2, 3]⟩, ⟨{ code := 0x7F }, false, 4, 255, []⟩]

theorem written_is_read_back_request :
    request.header.protocol = 8 ∧ ∃ bytes, request.encode = .ok bytes ∧ bytes.length = 508 ∧
      decode (bytes.take 27) = .ok { request with header := { request.header with count := 2 } } ∧
      ∃ e, decode (bytes.take 26) = .error e := by
  obtain ⟨hlimits, hread⟩ := written_is_read_back request rfl
  obtain ⟨bytes, hbytes⟩ := hlimits.mpr (by decide)
  obtain ⟨hlength, -, -, hcut⟩ := hread bytes hbytes
  exact ⟨rfl, bytes, hbytes, hlength, (hcut 27).1 (by decide), (hcut 26).2 (by decide)⟩

end Courier.Packet
