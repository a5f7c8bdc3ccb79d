import Mathlib.Algebra.Order.Group.Multiset
import Courier.Notice
import Courier.Proofs.Outbox.Totals

/-!
# Critical messages in the ring

`vitals` collects the critical messages that the ring holds, pending or in
flight. Every operation has a law for it: moving messages leaves it alone,
freeing slots takes out what they held, and adding a message puts that in,
provided that the place given up for it held nothing critical.
-/

namespace Courier

def vitalsOf (ms : List Message) : Multiset Message := ms.filter (·.critical)

@[simp] theorem vitalsOf_append (first second : List Message) :
    vitalsOf (first ++ second) = vitalsOf first + vitalsOf second := by
  simp only [vitalsOf, List.filter_append, Multiset.coe_add]

theorem vitalsOf_cons (m : Message) (rest : List Message) :
    vitalsOf (m :: rest) = vitalsOf [m] + vitalsOf rest :=
  vitalsOf_append [m] rest

theorem vitalsOf_eq_zero {ms : List Message} (h : ∀ m ∈ ms, m.critical = false) :
    vitalsOf ms = 0 := by
  have : ms.filter (·.critical) = [] := by simpa using h
  rw [vitalsOf, this, Multiset.coe_nil]

namespace Slot

def message? : Slot → Option Message
  | .free => none
  | .pending m | .inFlight m _ => some m

def vitals (slot : Slot) : Multiset Message := vitalsOf slot.message?.toList

theorem message?_eq (slot : Slot) :
    slot.message?.toList = slot.pending?.toList ++ slot.inFlight?.toList := by
  cases slot <;> rfl

/-- A place that may be given up holds nothing critical, if all that is in
flight and critical is held. -/
theorem vitals_eq_zero {slot : Slot} {acked : UInt32} (hreusable : slot.isReusable acked = true)
    (hheld : ∀ m packet, slot = .inFlight m packet → m.critical = true →
      Window.has acked packet.toUInt32 = false) : slot.vitals = 0 := by
  refine vitalsOf_eq_zero fun m hm => ?_
  cases hs : slot with
  | free => simp [hs, message?] at hm
  | pending m => simp [hs, isReusable] at hreusable
  | inFlight m' packet =>
    obtain rfl : m = m' := by simpa [hs, message?] using hm
    have h := hheld m packet hs
    by_contra hc
    simp [hs, isReusable, isHeld, h (by simpa using hc), hc] at hreusable

end Slot

namespace Outbox

def vitals (box : Outbox) : Multiset Message := ∑ p : Place, (box.slot p).vitals

def inFlight (box : Outbox) : List Message := box.slots.toList.filterMap Slot.inFlight?

section
variable {box box' : Outbox} {i : Place} {m : Message} {acked : UInt32} {packet : UInt8}

theorem vitals_written (hvacant : (box.slot i).vitals = 0) :
    (box.written i m).vitals = box.vitals + vitalsOf [m] := by
  have hwritten := box.total_written (f := Slot.vitals) i m
  rwa [hvacant, add_zero] at hwritten

theorem vitals_pushAll (ms : List Message) (h : box.Ring)
    (hheld : ∀ p m packet, box.slot p = .inFlight m packet → m.critical = true →
      Window.has acked packet.toUInt32 = false)
    (hok : (pushAll acked box ms).1 = .ok ()) :
    (pushAll acked box ms).2.vitals = box.vitals + vitalsOf ms := by
  induction ms generalizing box with
  | nil => exact (add_zero _).symm
  | cons m rest ih =>
    cases hpush : box.push acked m with
    | error e => simp only [pushAll, hpush, reduceCtorEq] at hok
    | ok box' =>
      obtain ⟨hl, i, hv, rfl⟩ := push_ok_iff.mp hpush
      obtain ⟨hi, hreusable⟩ := h.vacancy_spec (by omega) hv
      have hstill : ∀ p m' packet, (box.written i m).slot p = .inFlight m' packet →
          m'.critical = true →
          Window.has acked packet.toUInt32 = false := by
        intro p m' packet hs
        rw [slot_written] at hs
        split at hs
        · cases hs
        · split at hs
          · exact hheld _ m' packet hs
          · exact hheld _ m' packet hs
      have hvacant := Slot.vitals_eq_zero hreusable fun m' packet hs => hheld i m' packet hs
      simp only [pushAll, hpush] at hok ⊢
      rw [ih (h.written hl hv) hstill hok, vitals_written hvacant, vitalsOf_cons m rest, add_assoc]

theorem vitals_drained (hs : box.slot box.start = .pending m) :
    (box.drained m packet).vitals = box.vitals :=
  add_right_cancel (total_drained (f := Slot.vitals) hs packet)

theorem vitals_drainUpTo (box : Outbox) (limit capacity : Nat) (packet : UInt8) :
    (box.drainUpTo limit capacity packet).2.vitals = box.vitals := by
  induction limit generalizing box capacity with
  | zero => rfl
  | succ limit ih =>
    simp only [drainUpTo]
    split
    · rfl
    next m box' hone =>
      obtain ⟨-, hs, -, rfl⟩ := drainOne_some_iff.mp hone
      exact (ih _ _).trans (vitals_drained hs)

theorem vitals_release (box : Outbox) (i : Place) :
    (box.release i).2.vitals + vitalsOf (box.release i).1.toList = box.vitals := by
  rw [release_eq]
  cases hs : box.slot i with
  | inFlight m packet =>
    have hput := box.total_put (f := Slot.vitals) i .free
    rw [hs] at hput
    exact hput.trans (add_zero _)
  | _ => exact add_zero _

theorem vitals_releaseAll (box : Outbox) (places : List Place) :
    (box.releaseAll places).2.vitals + vitalsOf (box.releaseAll places).1 = box.vitals := by
  induction places generalizing box with
  | nil => exact add_zero _
  | cons i rest ih =>
    show (releaseAll (box.release i).2 rest).2.vitals +
      vitalsOf ((box.release i).1.toList ++ (releaseAll (box.release i).2 rest).1) = _
    rw [vitalsOf_append, add_comm (vitalsOf _), ← add_assoc, ih, vitals_release]

theorem vitals_restore (hs : box.slot i = .inFlight m packet) :
    (box.restore i m).vitals = box.vitals :=
  add_right_cancel (total_restore (f := Slot.vitals) hs)

theorem vitals_requeue (box : Outbox) (places : List Place) :
    (box.requeue places).2.vitals = box.vitals := by
  induction places with
  | nil => rfl
  | cons i rest ih =>
    simp only [requeue]
    split
    next m packet hs => exact (vitals_restore hs).trans ih
    · exact ih

-- ---------------------------------------------------------------------------
-- Pending and in flight
-- ---------------------------------------------------------------------------

theorem sum_slots (box : Outbox) (f : Slot → Option Message) :
    ∑ p : Place, vitalsOf (f (box.slot p)).toList = vitalsOf (box.slots.toList.filterMap f) := by
  refine (box.total_eq_sum fun s => vitalsOf (f s).toList).trans ?_
  induction box.slots.toList with
  | nil => rfl
  | cons s rest ih =>
    rw [List.map_cons, List.sum_cons, ih, ← vitalsOf_append, List.filterMap_cons]
    cases f s <;> rfl

theorem Ring.sum_pending (h : box.Ring) :
    ∑ p : Place, vitalsOf (box.slot p).pending?.toList = vitalsOf box.pending := by
  have hsum (n : Nat) :
      ∑ k ∈ Finset.range n, vitalsOf (box.slot (box.start.forward k)).pending?.toList =
      vitalsOf ((List.range n).filterMap fun k => (box.slot (box.start.forward k)).pending?) := by
    induction n with
    | zero => rfl
    | succ n ih =>
      rw [Finset.sum_range_succ, ih, List.range_succ, List.filterMap_append, vitalsOf_append]
      rfl
  rw [pending, ← hsum]
  exact h.total_pending (f := fun s => vitalsOf s.pending?.toList) fun s hs => by rw [hs]; rfl

/-- A critical message in the ring is pending or in flight. -/
theorem Ring.vitals_eq (h : box.Ring) :
    box.vitals = vitalsOf box.pending + vitalsOf box.inFlight := by
  rw [inFlight, ← sum_slots, ← h.sum_pending, ← Finset.sum_add_distrib]
  refine Finset.sum_congr rfl fun p _ => ?_
  rw [Slot.vitals, Slot.message?_eq, vitalsOf_append]

theorem vitals_empty : ({} : Outbox).vitals = 0 := by
  rw [ring_empty.vitals_eq]
  rfl

end

end Outbox

end Courier
