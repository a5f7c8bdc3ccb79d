import Mathlib.Order.Fin.Basic
import Courier.Outbox

/-!
# The ring of the outbox

`Ring` is the shape of the outbox: going forward from `start`, the pending
slots come first and number `length`. Every operation has a lemma that gives
each slot afterwards, and one that it keeps the shape.
-/

namespace Courier

namespace Place

def offset (start p : Place) : Nat := (p.val + (32 - start.val)) % 32

theorem offset_lt (start p : Place) : offset start p < 32 := Nat.mod_lt _ (by decide)

theorem forward_offset (start p : Place) : start.forward (offset start p) = p := by
  apply Fin.ext
  simp only [forward, offset]
  omega

theorem offset_forward (start : Place) {k : Nat} (hk : k < 32) :
    offset start (start.forward k) = k := by
  simp only [forward, offset]
  omega

theorem forward_inj (p : Place) {j k : Nat} (hj : j < 32) (hk : k < 32)
    (h : p.forward j = p.forward k) : j = k := by
  rw [← offset_forward p hj, h, offset_forward p hk]

theorem offset_eq_zero {start p : Place} : offset start p = 0 ↔ p = start := by
  constructor
  · intro h
    rw [← forward_offset start p, h, forward_zero]
  · rintro rfl
    simpa [forward_zero] using offset_forward p (k := 0) (by decide)

theorem offset_next (start p : Place) :
    offset (start.forward 1) p = (offset start p + 31) % 32 := by
  simp only [forward, offset]
  omega

theorem offset_previous (start p : Place) :
    offset start.previous p = (offset start p + 1) % 32 := by
  have h := offset_next start.previous p
  have hp := offset_lt start.previous p
  rw [forward_previous] at h
  omega

end Place

namespace Slot

theorem carriedBy_iff {slot : Slot} {packet : UInt8} :
    slot.carriedBy packet = true ↔ ∃ m, slot = .inFlight m packet := by
  cases slot <;> simp [carriedBy]

end Slot

namespace Outbox

open Place (offset)

structure Ring (box : Outbox) : Prop where
  length_le : box.length ≤ 32
  next_eq : box.next = box.start.forward box.length
  pending_iff : ∀ p, (∃ m, box.slot p = .pending m) ↔ offset box.start p < box.length

theorem ring_empty : ({} : Outbox).Ring where
  length_le := by decide
  next_eq := by decide
  pending_iff p := by simp [slot]

section
variable {box box' : Outbox} {p i : Place} {m : Message} {acked : UInt32} {packet : UInt8}

theorem Ring.mem_freeRegion (h : box.Ring) :
    p ∈ box.freeRegion ↔ box.length ≤ offset box.start p := by
  have hl := h.length_le
  have hp := Place.offset_lt box.start p
  simp only [freeRegion, capacity, List.mem_map, List.mem_range, h.next_eq, Place.forward_forward]
  constructor
  · rintro ⟨k, hk, rfl⟩
    rw [Place.offset_forward _ (by omega)]
    omega
  · intro hle
    refine ⟨offset box.start p - box.length, by omega, ?_⟩
    rw [Nat.add_sub_cancel' hle, Place.forward_offset]

theorem Ring.mem_freeRegion_iff (h : box.Ring) :
    p ∈ box.freeRegion ↔ ∀ m, box.slot p ≠ .pending m := by
  rw [h.mem_freeRegion, ← Nat.not_lt, ← h.pending_iff, not_exists]

theorem Ring.withNextId (h : box.Ring) (id : UInt8) : ({ box with nextId := id } : Outbox).Ring :=
  ⟨h.length_le, h.next_eq, h.pending_iff⟩

theorem Ring.next_mem (h : box.Ring) (hl : box.length < 32) : box.next ∈ box.freeRegion := by
  rw [h.mem_freeRegion, h.next_eq]
  exact Nat.le_of_eq (Place.offset_forward _ hl).symm

theorem Ring.mem_freeRegion_of_inFlight (h : box.Ring) (hs : box.slot p = .inFlight m packet) :
    p ∈ box.freeRegion := by
  rw [h.mem_freeRegion_iff, hs]
  simp

theorem Ring.mem_carried (h : box.Ring) :
    p ∈ box.carried packet ↔ ∃ m, box.slot p = .inFlight m packet := by
  rw [carried, List.mem_filter, Slot.carriedBy_iff]
  exact ⟨fun hp => hp.2, fun ⟨m, hm⟩ => ⟨h.mem_freeRegion_of_inFlight hm, m, hm⟩⟩

theorem nodup_freeRegion (box : Outbox) : box.freeRegion.Nodup := by
  rw [freeRegion, List.Nodup, List.pairwise_map]
  refine List.Pairwise.imp_of_mem (fun {j k} hj hk hne hjk => hne ?_) List.nodup_range
  simp only [List.mem_range, capacity] at hj hk
  exact Place.forward_inj box.next (by omega) (by omega) hjk

theorem nodup_carried (box : Outbox) (packet : UInt8) : (box.carried packet).Nodup :=
  box.nodup_freeRegion.filter _

-- ---------------------------------------------------------------------------
-- Adding messages
-- ---------------------------------------------------------------------------

/-- The place that takes what stands at the write position: the write position
itself if that may be overwritten, else the next reusable place. -/
def vacancy (box : Outbox) (acked : UInt32) : Option Place :=
  if (box.slot box.next).isHeld acked then
    (box.freeRegion.drop 1).find? fun i => (box.slot i).isReusable acked
  else some box.next

/-- The outbox with `m` at the write position and what stood there at `i`. -/
def written (box : Outbox) (i : Place) (m : Message) : Outbox :=
  { (box.put i (box.slot box.next)).put box.next (.pending m) with
    next := box.next.forward 1
    length := box.length + 1 }

theorem slot_written (box : Outbox) (i p : Place) (m : Message) :
    (box.written i m).slot p =
      if p = box.next then .pending m else if p = i then box.slot box.next else box.slot p := by
  show ((box.put i (box.slot box.next)).put box.next (.pending m)).slot p = _
  simp only [slot_put, eq_comm]

theorem put_put (box : Outbox) (i : Place) (first second : Slot) :
    (box.put i first).put i second = box.put i second := by
  simp [put]

theorem push_eq (box : Outbox) (acked : UInt32) (m : Message) :
    box.push acked m =
      if 31 ≤ box.length then .error (.full 1 box.room)
      else match box.vacancy acked with
        | none => .error .exhausted
        | some i => .ok (box.written i m) := by
  have hfull : capacity ≤ box.length + 1 ↔ 31 ≤ box.length := by
    simp only [capacity]
    omega
  simp only [push, prepare, vacancy, hfull]
  by_cases hl : 31 ≤ box.length
  · rw [if_pos hl, if_pos hl]
    rfl
  rw [if_neg hl, if_neg hl]
  cases (box.slot box.next).isHeld acked with
  | false =>
    show Except.ok _ = Except.ok _
    congr 1
    exact congrArg
      (fun b : Outbox => { b with next := box.next.forward 1, length := box.length + 1 })
      (put_put box box.next (box.slot box.next) (.pending m)).symm
  | true =>
    cases (box.freeRegion.drop 1).find? fun i => (box.slot i).isReusable acked with
    | none => rfl
    | some i =>
      show Except.ok _ = Except.ok _
      congr 1
      exact congrArg
        (fun b : Outbox => { b with next := box.next.forward 1, length := box.length + 1 })
        (put_put (box.put i (box.slot box.next)) box.next .free (.pending m))

theorem push_ok_iff : box.push acked m = .ok box' ↔
    box.length < 31 ∧ ∃ i, box.vacancy acked = some i ∧ box' = box.written i m := by
  rw [push_eq]
  split
  · simp only [reduceCtorEq, false_iff, not_and]
    omega
  · split
    next h => simp [h]
    next i h =>
      simp only [Except.ok.injEq, h, Option.some.injEq, exists_eq_left']
      exact ⟨fun e => ⟨by omega, e.symm⟩, fun e => e.2.symm⟩

/-- The vacant place lies in the free region and holds nothing that is still needed. -/
theorem Ring.vacancy_spec (h : box.Ring) (hl : box.length < 32) (hv : box.vacancy acked = some i) :
    i ∈ box.freeRegion ∧ (box.slot i).isReusable acked = true := by
  have hnext := h.next_mem hl
  simp only [vacancy] at hv
  split at hv
  · exact ⟨List.mem_of_mem_drop (List.mem_of_find?_eq_some hv), by simpa using List.find?_some hv⟩
  next hheld =>
    obtain rfl : box.next = i := by simpa using hv
    refine ⟨hnext, ?_⟩
    have hnot := h.mem_freeRegion_iff.mp hnext
    cases hs : box.slot box.next with
    | free => rfl
    | pending m => exact absurd hs (hnot m)
    | inFlight m packet => simpa [Slot.isReusable, hs] using hheld

theorem Ring.written (h : box.Ring) (hl : box.length < 31) (hv : box.vacancy acked = some i) :
    (box.written i m).Ring := by
  obtain ⟨hi, -⟩ := h.vacancy_spec (by omega) hv
  refine ⟨by simp only [Outbox.written]; omega, ?_, ?_⟩
  · show box.next.forward 1 = box.start.forward (box.length + 1)
    rw [h.next_eq, Place.forward_forward]
  · intro p
    have hp := Place.offset_lt box.start p
    have hnext := h.mem_freeRegion_iff.mp (h.next_mem (by omega))
    have hvacant := h.mem_freeRegion_iff.mp hi
    have hoff : p = box.next ↔ offset box.start p = box.length := by
      constructor
      · rintro rfl
        rw [h.next_eq, Place.offset_forward _ (by omega)]
      · intro he
        rw [h.next_eq, ← he, Place.forward_offset]
    show (∃ m', _) ↔ offset box.start p < box.length + 1
    rw [slot_written]
    split
    next hpn =>
      have := hoff.mp hpn
      simp only [Slot.pending.injEq, exists_eq', true_iff]
      omega
    next hpn =>
      have hne := mt hoff.mpr hpn
      have hlt : offset box.start p < box.length + 1 ↔ offset box.start p < box.length := by omega
      rw [hlt, ← h.pending_iff]
      split
      next hpi =>
        simp only [hnext, exists_false, hpi, hvacant]
      · exact Iff.rfl

-- ---------------------------------------------------------------------------
-- Taking messages out
-- ---------------------------------------------------------------------------

def drained (box : Outbox) (m : Message) (packet : UInt8) : Outbox :=
  { box.put box.start (.inFlight m packet) with
    start := box.start.forward 1
    length := box.length - 1 }

theorem slot_drained (box : Outbox) (p : Place) (m : Message) (packet : UInt8) :
    (box.drained m packet).slot p = if p = box.start then .inFlight m packet else box.slot p := by
  show (box.put box.start (.inFlight m packet)).slot p = _
  simp only [slot_put, eq_comm]

theorem drainOne_some_iff {capacity : Nat} : box.drainOne capacity packet = some (m, box') ↔
    box.length ≠ 0 ∧ box.slot box.start = .pending m ∧ m.wireSize ≤ capacity ∧
      box' = box.drained m packet := by
  simp only [drainOne]
  split
  next h => simp [h]
  next h =>
    split
    next m' hs =>
      split
      next hfit =>
        simp only [Option.some.injEq, Prod.mk.injEq, hs, Slot.pending.injEq]
        constructor
        · rintro ⟨rfl, rfl⟩
          exact ⟨h, rfl, hfit, rfl⟩
        · rintro ⟨-, rfl, -, rfl⟩
          exact ⟨rfl, rfl⟩
      next hfit =>
        simp only [reduceCtorEq, hs, Slot.pending.injEq, false_iff, not_and]
        rintro - rfl hle
        exact absurd hle hfit
    next hs =>
      simp only [reduceCtorEq, false_iff, not_and]
      intro _ hm
      exact absurd hm (hs m)

theorem Ring.drained (h : box.Ring) (hl : box.length ≠ 0) : (box.drained m packet).Ring := by
  have hle := h.length_le
  refine ⟨by simp only [Outbox.drained]; omega, ?_, ?_⟩
  · show box.next = (box.start.forward 1).forward (box.length - 1)
    rw [h.next_eq, Place.forward_forward, Nat.add_sub_cancel' (by omega)]
  · intro p
    show (∃ m', _) ↔ offset (box.start.forward 1) p < box.length - 1
    have hstart := h.pending_iff p
    rw [slot_drained]
    split
    next hp =>
      have hzero := Place.offset_eq_zero.mpr hp
      rw [Place.offset_next, hzero]
      simp only [reduceCtorEq, exists_false, false_iff]
      omega
    next hp =>
      rw [hstart, Place.offset_next]
      have hne := mt Place.offset_eq_zero.mp hp
      have hlt := Place.offset_lt box.start p
      omega

theorem Ring.freed (h : box.Ring) (hs : box.slot i = .inFlight m packet) :
    (box.put i .free).Ring := by
  refine ⟨h.length_le, h.next_eq, fun p => ?_⟩
  have hp := h.pending_iff p
  show _ ↔ offset box.start p < box.length
  rw [← hp, slot_put]
  split
  next hip => simp [← hip, hs]
  · exact Iff.rfl

-- ---------------------------------------------------------------------------
-- Putting messages back
-- ---------------------------------------------------------------------------

theorem slot_restore (box : Outbox) (i p : Place) (m : Message) :
    (box.restore i m).slot p =
      if p = box.start.previous then .pending m
      else if p = i then box.slot box.start.previous
      else box.slot p := by
  show ((box.put i _).put box.start.previous (.pending m)).slot p = _
  simp only [slot_put, eq_comm]

theorem Ring.restore (h : box.Ring) (hs : box.slot i = .inFlight m packet) :
    (box.restore i m).Ring := by
  have hle := h.length_le
  have hi := h.mem_freeRegion.mp (h.mem_freeRegion_of_inFlight hs)
  have hoff := Place.offset_lt box.start i
  refine ⟨by simp only [Outbox.restore]; omega, ?_, ?_⟩
  · show box.next = box.start.previous.forward (box.length + 1)
    rw [h.next_eq, Place.previous, Place.forward_forward]
    apply Fin.ext
    simp only [Place.forward]
    omega
  · intro p
    show (∃ m', _) ↔ offset box.start.previous p < box.length + 1
    have hp := h.pending_iff p
    have hself := Place.offset_previous box.start box.start.previous
    rw [Place.offset_eq_zero.mpr rfl] at hself
    have htlt := Place.offset_lt box.start box.start.previous
    have htarget : ¬ ∃ m', box.slot box.start.previous = .pending m' := by
      rw [h.pending_iff]
      omega
    have hplt := Place.offset_lt box.start p
    have hne : offset box.start.previous p = 0 ↔ p = box.start.previous := Place.offset_eq_zero
    rw [Place.offset_previous] at hne ⊢
    rw [slot_restore]
    split
    next hpt =>
      rw [hne.mpr hpt]
      simp
    next hpt =>
      have hpos := mt hne.mp hpt
      have hstep : (offset box.start p + 1) % 32 < box.length + 1 ↔
          offset box.start p < box.length := by
        omega
      rw [hstep, ← hp]
      split
      next hpi => simp only [htarget, hpi, hs, reduceCtorEq, exists_false]
      · exact Iff.rfl

end

end Outbox

end Courier
