import Mathlib.Data.List.Basic
import Courier.Assembly

/-!
# Payloads and their messages

A payload that fits one message is sent as a whole. A longer one is announced,
and its parts put together in order give its data again (`flatMap_chunk`).
-/

namespace Courier

structure Payload where
  kind : Kind
  critical : Bool
  data : Bytes
  deriving DecidableEq, Repr

namespace Payload

def pieces (p : Payload) (number : Nat) : List Message :=
  Outbox.pieces p.kind p.critical (UInt8.ofNat number) p.data

def delivery (p : Payload) (number : Nat) : Delivery :=
  { kind := p.kind, critical := p.critical, fragment := UInt8.ofNat number, data := p.data }

def whole (p : Payload) (number : Nat) : Message :=
  { kind := p.kind, critical := p.critical, fragment := UInt8.ofNat number, order := 0,
    data := p.data }

def announcement (p : Payload) (number : Nat) : Message :=
  { kind := .announcement, critical := p.critical, fragment := UInt8.ofNat number, order := 0
    data := Announcement.encode (UInt32.ofNat p.data.length) }

def count (p : Payload) : Nat := Outbox.chunkCount p.data.length

def chunk (p : Payload) (i : Nat) : Bytes :=
  (p.data.drop (i * Message.maxData)).take Message.maxData

def part (p : Payload) (number i : Nat) : Message :=
  { kind := p.kind, critical := p.critical, fragment := UInt8.ofNat number,
    order := UInt8.ofNat (i + 1)
    data := p.chunk i }

/-- Its messages fit an outbox, and it is no announcement itself. -/
structure Sendable (p : Payload) : Prop where
  fits : Outbox.messagesNeeded p.data.length < Outbox.capacity
  kind_ne : p.kind ≠ .announcement

section
variable {p : Payload} {m : Message} {number i : Nat}

theorem mem_pieces : m ∈ p.pieces number ↔
    (p.data.length ≤ Message.maxData ∧ m = p.whole number) ∨
      (Message.maxData < p.data.length ∧
        (m = p.announcement number ∨ ∃ i < p.count, m = p.part number i)) := by
  unfold pieces Outbox.pieces
  split
  next hlong =>
    have hshort : ¬ p.data.length ≤ Message.maxData := by omega
    simp only [hlong, hshort, false_and, false_or, true_and, List.mem_cons]
    refine or_congr Iff.rfl ?_
    rw [List.mem_mapIdx]
    constructor
    · rintro ⟨i, hi, rfl⟩
      rw [Outbox.length_chunks] at hi
      exact ⟨i, hi, by simp only [part, chunk, Outbox.chunks, List.getElem_map, List.getElem_range]⟩
    · rintro ⟨i, hi, rfl⟩
      refine ⟨i, by rwa [Outbox.length_chunks], ?_⟩
      simp only [part, chunk, Outbox.chunks, List.getElem_map, List.getElem_range]
  next hshort =>
    have hle : p.data.length ≤ Message.maxData := by omega
    simp only [hshort, hle, false_and, or_false, true_and, List.mem_singleton]
    rfl

theorem fragment_of_mem (hm : m ∈ p.pieces number) : m.fragment = UInt8.ofNat number := by
  rcases mem_pieces.mp hm with ⟨-, rfl⟩ | ⟨-, rfl | ⟨i, -, rfl⟩⟩
  · rfl
  · rfl
  · rfl

theorem critical_of_mem (hm : m ∈ p.pieces number) : m.critical = p.critical := by
  rcases mem_pieces.mp hm with ⟨-, rfl⟩ | ⟨-, rfl | ⟨i, -, rfl⟩⟩
  · rfl
  · rfl
  · rfl

theorem exists_piece (p : Payload) (number : Nat) : ∃ m, m ∈ p.pieces number := by
  by_cases hlong : Message.maxData < p.data.length
  · exact ⟨_, mem_pieces.mpr (.inr ⟨hlong, .inl rfl⟩)⟩
  · exact ⟨_, mem_pieces.mpr (.inl ⟨by omega, rfl⟩)⟩

theorem Sendable.count_lt (h : p.Sendable) : p.count < Outbox.capacity := by
  have hfits := h.fits
  unfold Outbox.messagesNeeded at hfits
  unfold count
  split at hfits
  · omega
  next hshort =>
    simp only [Outbox.chunkCount, Outbox.capacity, Message.maxData] at hshort ⊢
    omega

theorem Sendable.length_le (h : p.Sendable) (hlong : Message.maxData < p.data.length) :
    p.data.length ≤ Assembly.maxSize := by
  have hfits := h.fits
  rw [Outbox.messagesNeeded, if_pos hlong] at hfits
  simp only [Outbox.chunkCount, Outbox.capacity, Message.maxData, Assembly.maxSize] at hfits ⊢
  omega

theorem Sendable.toNat_order (h : p.Sendable) (hi : i < p.count) :
    (UInt8.ofNat (i + 1)).toNat = i + 1 := by
  have hlt := h.count_lt
  simp only [Outbox.capacity] at hlt
  exact UInt8.toNat_ofNat_of_lt' (by show i + 1 < 256; omega)

theorem Sendable.eq_of_order (h : p.Sendable) {m' : Message} (hm : m ∈ p.pieces number)
    (hm' : m' ∈ p.pieces number) (horder : m.order = m'.order) : m = m' := by
  have hpart {i : Nat} (hi : i < p.count) : (p.part number i).order.toNat = i + 1 :=
    h.toNat_order hi
  have hzero : (p.announcement number).order.toNat = 0 := rfl
  have htoNat := congrArg UInt8.toNat horder
  rcases mem_pieces.mp hm with ⟨hshort, rfl⟩ | ⟨hlong, hm⟩
  · rcases mem_pieces.mp hm' with ⟨-, rfl⟩ | ⟨hlong, -⟩
    · rfl
    · omega
  · rcases mem_pieces.mp hm' with ⟨hshort, -⟩ | ⟨-, hm'⟩
    · omega
    · rcases hm with rfl | ⟨i, hi, rfl⟩
      · rcases hm' with rfl | ⟨j, hj, rfl⟩
        · rfl
        · rw [hzero, hpart hj] at htoNat
          cases htoNat
      · rcases hm' with rfl | ⟨j, hj, rfl⟩
        · rw [hzero, hpart hi] at htoNat
          cases htoNat
        · rw [hpart hi, hpart hj] at htoNat
          obtain rfl : i = j := by omega
          rfl

theorem flatMap_chunk (p : Payload) (k : Nat) :
    (List.range k).flatMap p.chunk = p.data.take (k * Message.maxData) := by
  induction k with
  | zero => simp
  | succ k ih =>
    rw [List.range_succ, List.flatMap_append, ih, List.flatMap_cons, List.flatMap_nil,
      List.append_nil, Nat.succ_mul, List.take_add]
    rfl

theorem flatMap_count (p : Payload) : (List.range p.count).flatMap p.chunk = p.data := by
  rw [flatMap_chunk]
  refine List.take_of_length_le ?_
  simp only [count, Outbox.chunkCount, Message.maxData]
  omega

end

/-- A message together with the number of its payload. -/
def Belongs (payloads : List Payload) (x : Message × Nat) : Prop :=
  ∃ p, payloads[x.2]? = some p ∧ x.1 ∈ p.pieces x.2

theorem Belongs.append {payloads : List Payload} {x : Message × Nat} (h : Belongs payloads x)
    (more : List Payload) : Belongs (payloads ++ more) x := by
  obtain ⟨p, hp, hm⟩ := h
  refine ⟨p, ?_, hm⟩
  rw [List.getElem?_append_left (List.getElem?_eq_some_iff.mp hp).1]
  exact hp

end Payload

end Courier
