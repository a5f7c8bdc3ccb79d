import Mathlib.Algebra.GroupWithZero.Nat
import Mathlib.Data.List.Basic
import Courier.Proofs.Outbox.Ring

/-!
# Loading a packet and freeing what it carried

`Drained` and `Released` say slot by slot what becomes of the ring when pending
messages go into a packet and when slots in flight are freed. No message moves
to another slot in either.
-/

namespace Courier

namespace Slot

def loaded (packet : UInt8) : Slot → Slot
  | .pending m => .inFlight m packet
  | slot => slot

def released : Slot → Slot
  | .inFlight .. => .free
  | slot => slot

end Slot

namespace Outbox

open Place (offset)

/-- The messages `ms` were taken from the front of the pending ones into `packet`. -/
structure Drained (box after : Outbox) (packet : UInt8) (ms : List Message) : Prop where
  ring : after.Ring
  length_eq : after.length + ms.length = box.length
  start_eq : after.start = box.start.forward ms.length
  nextId_eq : after.nextId = box.nextId
  message_eq : ∀ k (hk : k < ms.length), box.slot (box.start.forward k) = .pending ms[k]
  slot_eq : ∀ p, after.slot p =
    if offset box.start p < ms.length then (box.slot p).loaded packet else box.slot p

theorem Drained.nil {box : Outbox} {packet : UInt8} (h : box.Ring) : Drained box box packet [] :=
  ⟨h, rfl, (Place.forward_zero _).symm, rfl, by simp, by simp⟩

theorem Drained.cons {box after : Outbox} {packet : UInt8} {m : Message} {ms : List Message}
    (h : box.Ring) (hl : box.length ≠ 0) (hstart : box.slot box.start = .pending m)
    (hrest : Drained (box.drained m packet) after packet ms) :
    Drained box after packet (m :: ms) := by
  have hle := h.length_le
  have hlen := hrest.length_eq
  have hsize : (box.drained m packet).length = box.length - 1 := rfl
  have hbegin : (box.drained m packet).start = box.start.forward 1 := rfl
  refine ⟨hrest.ring, ?_, ?_, hrest.nextId_eq, ?_, ?_⟩
  · simp only [List.length_cons]
    omega
  · rw [hrest.start_eq, List.length_cons, Nat.add_comm]
    exact Place.forward_forward box.start 1 _
  · intro k hk
    cases k with
    | zero => rw [Place.forward_zero, hstart]; rfl
    | succ k =>
      simp only [List.length_cons] at hk
      have hne : box.start.forward (k + 1) ≠ box.start := by
        intro e
        have := Place.offset_forward box.start (k := k + 1) (by omega)
        rw [e, Place.offset_eq_zero.mpr rfl] at this
        cases this
      have hmessage := hrest.message_eq k (by omega)
      rw [hbegin, Place.forward_forward, Nat.add_comm, slot_drained, if_neg hne] at hmessage
      simpa using hmessage
  · intro p
    have hlt := Place.offset_lt box.start p
    rw [hrest.slot_eq, hbegin, Place.offset_next, slot_drained, List.length_cons]
    by_cases hp : p = box.start
    · have hzero := Place.offset_eq_zero.mpr hp
      rw [if_neg (by omega), if_pos hp, if_pos (by omega), hp, hstart]
      rfl
    · have hpos := mt Place.offset_eq_zero.mp hp
      have hiff : (offset box.start p + 31) % 32 < ms.length ↔
          offset box.start p < ms.length + 1 := by
        omega
      rw [if_neg hp]
      simp only [hiff]

theorem Ring.drainUpTo {box : Outbox} (h : box.Ring) (limit capacity : Nat) (packet : UInt8) :
    Drained box (box.drainUpTo limit capacity packet).2 packet
      (box.drainUpTo limit capacity packet).1 := by
  induction limit generalizing box capacity with
  | zero => exact .nil h
  | succ limit ih =>
    simp only [Outbox.drainUpTo]
    split
    · exact .nil h
    next m box' hone =>
      obtain ⟨hl, hstart, -, rfl⟩ := drainOne_some_iff.mp hone
      exact (ih (h.drained hl) _).cons h hl hstart

theorem sum_drainUpTo (box : Outbox) (limit capacity : Nat) (packet : UInt8) :
    ((box.drainUpTo limit capacity packet).1.map (·.wireSize)).sum ≤ capacity := by
  induction limit generalizing box capacity with
  | zero => exact Nat.zero_le _
  | succ limit ih =>
    simp only [drainUpTo]
    split
    · exact Nat.zero_le _
    next m box' hone =>
      obtain ⟨-, -, hfits, rfl⟩ := drainOne_some_iff.mp hone
      have hrest := ih (box.drained m packet) (capacity - m.wireSize)
      rw [List.map_cons, List.sum_cons]
      omega

theorem Drained.inFlight {box after : Outbox} {packet q : UInt8} {ms : List Message} {m : Message}
    {p : Place} (h : Drained box after packet ms) (hs : after.slot p = .inFlight m q) :
    box.slot p = .inFlight m q ∨
      (box.slot p = .pending m ∧ q = packet ∧ offset box.start p < ms.length) := by
  rw [h.slot_eq] at hs
  split at hs
  next hlt =>
    right
    have hpending := h.message_eq _ hlt
    rw [Place.forward_offset] at hpending
    rw [hpending] at hs ⊢
    cases hs
    exact ⟨rfl, rfl, hlt⟩
  next hge => exact .inl hs

/-- The slots at `places` were freed and gave the messages `ms`. -/
structure Released (box after : Outbox) (places : List Place) (ms : List Message) : Prop where
  ring : after.Ring
  length_eq : after.length = box.length
  start_eq : after.start = box.start
  next_eq : after.next = box.next
  nextId_eq : after.nextId = box.nextId
  messages_eq : ms = places.filterMap fun i => (box.slot i).inFlight?
  slot_eq : ∀ p, after.slot p = if p ∈ places then (box.slot p).released else box.slot p

theorem release_eq (box : Outbox) (i : Place) :
    box.release i =
      ((box.slot i).inFlight?, if (box.slot i).isInFlight then box.put i .free else box) := by
  simp only [release]
  split
  next h => simp [h, Slot.inFlight?, Slot.isInFlight]
  next h =>
    cases hs : box.slot i with
    | inFlight m packet => exact absurd hs (h m packet)
    | _ => simp [Slot.inFlight?, Slot.isInFlight]

theorem Ring.releaseAll {box : Outbox} (h : box.Ring) {places : List Place} (hnd : places.Nodup) :
    Released box (box.releaseAll places).2 places (box.releaseAll places).1 := by
  induction places generalizing box with
  | nil => exact ⟨h, rfl, rfl, rfl, rfl, rfl, by simp [Outbox.releaseAll]⟩
  | cons i rest ih =>
    obtain ⟨hi, hnd⟩ := List.nodup_cons.mp hnd
    have hslot (p : Place) : (box.release i).2.slot p =
        if p = i then (box.slot i).released else box.slot p := by
      rw [release_eq]
      cases hs : box.slot i with
      | inFlight m packet => simp [Slot.isInFlight, slot_put, Slot.released, eq_comm]
      | _ => by_cases hp : p = i <;> simp [Slot.isInFlight, Slot.released, hp, hs]
    have hring : (box.release i).2.Ring := by
      rw [release_eq]
      cases hs : box.slot i with
      | inFlight m packet => exact h.freed hs
      | _ => exact h
    obtain ⟨hlength, hstart, hnext, hid⟩ : (box.release i).2.length = box.length ∧
        (box.release i).2.start = box.start ∧ (box.release i).2.next = box.next ∧
        (box.release i).2.nextId = box.nextId := by
      rw [release_eq]
      by_cases hs : (box.slot i).isInFlight = true
      · rw [if_pos hs]; exact ⟨rfl, rfl, rfl, rfl⟩
      · rw [if_neg hs]; exact ⟨rfl, rfl, rfl, rfl⟩
    have hrest := ih hring hnd
    refine ⟨hrest.ring, hrest.length_eq.trans hlength, hrest.start_eq.trans hstart,
      hrest.next_eq.trans hnext, hrest.nextId_eq.trans hid, ?_, ?_⟩
    · have hothers : (rest.filterMap fun j => ((box.release i).2.slot j).inFlight?) =
          rest.filterMap fun j => (box.slot j).inFlight? :=
        List.filterMap_congr fun j hj => by
          have hne : j ≠ i := fun e => hi (e ▸ hj)
          rw [hslot, if_neg hne]
      show (box.release i).1.toList ++ (Outbox.releaseAll (box.release i).2 rest).1 = _
      rw [hrest.messages_eq, hothers, release_eq, List.filterMap_cons]
      cases (box.slot i).inFlight? <;> rfl
    · intro p
      show (Outbox.releaseAll (box.release i).2 rest).2.slot p = _
      rw [hrest.slot_eq, hslot]
      by_cases hp : p = i
      · subst hp
        simp [hi]
      · simp [hp]

theorem Released.carried_eq {box after : Outbox} {places : List Place} {ms : List Message}
    {packet : UInt8} (h : Released box after places ms)
    (hother : ∀ p ∈ places, (box.slot p).carriedBy packet = false) :
    after.carried packet = box.carried packet := by
  have hregion : after.freeRegion = box.freeRegion := by
    rw [freeRegion, freeRegion, h.length_eq, h.next_eq]
  rw [carried, carried, hregion]
  refine List.filter_congr fun p _ => ?_
  rw [h.slot_eq]
  split
  next hp =>
    have := hother p hp
    cases hs : box.slot p with
    | inFlight m q => simpa [Slot.released, Slot.carriedBy, hs] using this.symm
    | _ => rfl
  · rfl

theorem releaseAll_append (box : Outbox) (first second : List Place) :
    box.releaseAll (first ++ second) =
      ((box.releaseAll first).1 ++ ((box.releaseAll first).2.releaseAll second).1,
        ((box.releaseAll first).2.releaseAll second).2) := by
  induction first generalizing box with
  | nil => rfl
  | cons i rest ih => simp only [List.cons_append, Outbox.releaseAll, ih, List.append_assoc]

end Outbox

end Courier
