import Courier.Proofs.Outbox.Ring

/-!
# Queueing a payload is all or nothing

Every message added uses up one reusable place and one pending slot, wherever
held messages have to move to (`reusableCount_written`). So once `enqueue` has
counted enough of both, no message is refused (`pushAll_ok`), and `enqueue`
either leaves the outbox as it was or queues all messages of the payload.
-/

namespace Courier

theorem Slot.isReusable_of_isHeld {slot : Slot} {acked : UInt32} (h : slot.isHeld acked = true) :
    slot.isReusable acked = false := by
  cases slot with
  | inFlight m packet => simp [isReusable, h]
  | _ => cases h

namespace Outbox

section
variable {box box' : Outbox} {i p : Place} {m : Message} {acked : UInt32}

theorem countP_without {α : Type} {test after : α → Bool} {l : List α} {x : α} (hnd : l.Nodup)
    (hx : x ∈ l) (htest : test x = true) (hafter : after x = false)
    (hrest : ∀ y ∈ l, y ≠ x → after y = test y) : l.countP after + 1 = l.countP test := by
  induction l with
  | nil => cases hx
  | cons y rest ih =>
    obtain ⟨hy, hnd⟩ := List.nodup_cons.mp hnd
    rcases List.mem_cons.mp hx with rfl | hx
    · have hsame : rest.countP after = rest.countP test :=
        List.countP_congr fun z hz => by
          rw [hrest z (List.mem_cons_of_mem _ hz) fun e => hy (e ▸ hz)]
      simp [htest, hafter, hsame]
    · have hyx : y ≠ x := fun e => hy (e ▸ hx)
      have := ih hnd hx fun z hz hne => hrest z (List.mem_cons_of_mem _ hz) hne
      simp only [List.countP_cons, hrest y List.mem_cons_self hyx]
      omega

theorem freeRegion_eq_cons (hl : box.length < 32) :
    box.freeRegion = box.next :: (box.written i m).freeRegion := by
  have hlen : capacity - box.length = (capacity - (box.written i m).length) + 1 := by
    simp only [capacity, written]
    omega
  rw [freeRegion, hlen, List.range_succ_eq_map, List.map_cons, List.map_map, Place.forward_zero]
  refine congrArg (box.next :: ·) (List.map_congr_left fun k _ => ?_)
  show box.next.forward (k + 1) = (box.next.forward 1).forward k
  rw [Place.forward_forward, Nat.add_comm]

/-- Whatever has to move, one message more takes one reusable place. -/
theorem Ring.reusableCount_written (h : box.Ring) (hl : box.length < 32)
    (hv : box.vacancy acked = some i) :
    (box.written i m).reusableCount acked + 1 = box.reusableCount acked := by
  have hcons := freeRegion_eq_cons (i := i) (m := m) hl
  have hnd := box.nodup_freeRegion
  rw [hcons] at hnd
  obtain ⟨hnext, hnd⟩ := List.nodup_cons.mp hnd
  obtain ⟨hi, hreusable⟩ := h.vacancy_spec hl hv
  have hslot : ∀ q ∈ (box.written i m).freeRegion,
      (box.written i m).slot q = if q = i then box.slot box.next else box.slot q := by
    intro q hq
    have hne : q ≠ box.next := fun e => hnext (e ▸ hq)
    rw [slot_written, if_neg hne]
  simp only [reusableCount]
  rw [hcons, List.countP_cons]
  by_cases hheld : (box.slot box.next).isHeld acked = true
  · have hnot : (box.slot box.next).isReusable acked = false := by
      revert hheld
      cases box.slot box.next <;> simp [Slot.isReusable]
    have hmem : i ∈ (box.written i m).freeRegion := by
      rw [hcons] at hi
      rcases List.mem_cons.mp hi with rfl | hi
      · simp [hnot] at hreusable
      · exact hi
    rw [hnot, if_neg Bool.false_ne_true]
    refine countP_without hnd hmem hreusable ?_ ?_
    · rw [hslot i hmem, if_pos rfl, hnot]
    · intro q hq hne
      rw [hslot q hq, if_neg hne]
  · have hself : i = box.next := by
      simp only [vacancy, hheld] at hv
      simpa using hv.symm
    subst hself
    rw [hreusable, if_pos rfl]
    refine congrArg (· + 1) (List.countP_congr fun q hq => ?_)
    have hne : q ≠ box.next := fun e => hnext (e ▸ hq)
    rw [hslot q hq, if_neg hne]

theorem vacancy_of_reusable (hl : box.length < 32) (hcount : 0 < box.reusableCount acked) :
    ∃ i, box.vacancy acked = some i := by
  simp only [vacancy]
  split
  next hheld =>
    rw [← Option.isSome_iff_exists, List.find?_isSome]
    obtain ⟨i, hi, hreusable⟩ := List.countP_pos_iff.mp hcount
    refine ⟨i, ?_, hreusable⟩
    rw [freeRegion_eq_cons (i := i) (m := ⟨.data, false, 0, 0, []⟩) hl] at hi ⊢
    rcases List.mem_cons.mp hi with rfl | hi
    · rw [Slot.isReusable_of_isHeld hheld] at hreusable
      cases hreusable
    · simpa using hi
  · exact ⟨_, rfl⟩

theorem pushAll_ok (ms : List Message) (h : box.Ring) (hroom : box.length + ms.length ≤ 31)
    (hcount : ms.length ≤ box.reusableCount acked) : (pushAll acked box ms).1 = .ok () := by
  induction ms generalizing box with
  | nil => rfl
  | cons m rest ih =>
    simp only [List.length_cons] at hroom hcount
    obtain ⟨i, hv⟩ : ∃ i, box.vacancy acked = some i := vacancy_of_reusable (by omega) (by omega)
    have hpush : box.push acked m = .ok (box.written i m) := push_ok_iff.mpr ⟨by omega, i, hv, rfl⟩
    have hone := h.reusableCount_written (m := m) (by omega) hv
    have hlen : (box.written i m).length = box.length + 1 := rfl
    simp only [pushAll, hpush]
    exact ih (h.written (by omega) hv) (by omega) (by omega)

theorem messagesNeeded_pos (size : Nat) : 0 < messagesNeeded size := by
  unfold messagesNeeded
  split
  · omega
  · omega

theorem reusableCount_le (box : Outbox) (acked : UInt32) :
    box.reusableCount acked ≤ 32 - box.length := by
  refine List.countP_le_length.trans ?_
  rw [freeRegion, List.length_map, List.length_range]
  exact Nat.le_refl _

theorem length_add_le {n : Nat} (hpos : 0 < n) (hroom : n ≤ box.room)
    (hcount : n ≤ box.reusableCount acked) : box.length + n ≤ 31 := by
  have hfree := hcount.trans (box.reusableCount_le acked)
  have hlength : box.length ≤ 31 := by omega
  rw [room_of_le hlength] at hroom
  omega

/-- A payload for which there is room and enough to give up is queued. -/
theorem Ring.enqueue_ok (h : box.Ring) (kind : Kind) (critical : Bool) {payload : Bytes}
    (hroom : messagesNeeded payload.length ≤ box.room)
    (hcount : messagesNeeded payload.length ≤ box.reusableCount acked) :
    box.enqueue kind critical payload acked =
        (.ok box.nextId,
          (pushAll acked { box with nextId := box.nextId + 1 }
            (pieces kind critical box.nextId payload)).2) ∧
      (pushAll acked { box with nextId := box.nextId + 1 }
        (pieces kind critical box.nextId payload)).1 = .ok () := by
  have hring := h.withNextId (box.nextId + 1)
  have hok : (pushAll acked { box with nextId := box.nextId + 1 }
      (pieces kind critical box.nextId payload)).1 = .ok () := by
    refine pushAll_ok _ hring ?_ ?_
    · rw [length_pieces]
      exact length_add_le (messagesNeeded_pos _) hroom hcount
    · rw [length_pieces]
      exact hcount
  refine ⟨?_, hok⟩
  simp only [enqueue, if_neg (Nat.not_lt.mpr hroom), if_neg (Nat.not_lt.mpr hcount), hok]
  rfl

/-- A payload is queued as a whole or not at all. -/
theorem Ring.enqueue_cases (h : box.Ring) (kind : Kind) (critical : Bool) (payload : Bytes)
    (acked : UInt32) :
    (∃ e, box.enqueue kind critical payload acked = (.error e, box)) ∨
      (box.enqueue kind critical payload acked =
          (.ok box.nextId,
            (pushAll acked { box with nextId := box.nextId + 1 }
              (pieces kind critical box.nextId payload)).2) ∧
        (pushAll acked { box with nextId := box.nextId + 1 }
          (pieces kind critical box.nextId payload)).1 = .ok () ∧
        box.length + messagesNeeded payload.length < capacity) := by
  rcases Nat.lt_or_ge box.room (messagesNeeded payload.length) with hroom | hroom
  · exact .inl ⟨_, by rw [enqueue, if_pos hroom]⟩
  rcases Nat.lt_or_ge (box.reusableCount acked) (messagesNeeded payload.length) with hcount | hcount
  · exact .inl ⟨_, by rw [enqueue, if_neg (Nat.not_lt.mpr hroom), if_pos hcount]⟩
  obtain ⟨hresult, hok⟩ := h.enqueue_ok kind critical hroom hcount
  exact .inr ⟨hresult, hok, Nat.lt_succ_of_le (length_add_le (messagesNeeded_pos _) hroom hcount)⟩

end

end Outbox

end Courier
