import Mathlib.Algebra.BigOperators.Fin
import Mathlib.Algebra.Order.BigOperators.Group.Finset
import Mathlib.Algebra.Order.Group.Nat
import Courier.Proofs.Outbox.Drain
import Courier.Proofs.Outbox.Requeue

/-!
# Totals over the ring

Give every slot a value. What the values of all slots add up to changes with an
operation by the values of what it puts in and takes out, wherever in the ring
it does so. The number of messages in flight is such a total.
-/

namespace Courier.Outbox

section
variable {M : Type} [AddCancelCommMonoid M] {f : Slot → M} {box : Outbox} {i : Place} {m : Message}
  {packet : UInt8}

def total (box : Outbox) (f : Slot → M) : M := ∑ p : Place, f (box.slot p)

theorem total_put (box : Outbox) (i : Place) (slot : Slot) :
    (box.put i slot).total f + f (box.slot i) = box.total f + f slot := by
  have hrest : ∑ p ∈ Finset.univ.erase i, f ((box.put i slot).slot p) =
      ∑ p ∈ Finset.univ.erase i, f (box.slot p) :=
    Finset.sum_congr rfl fun p hp => by
      rw [slot_put, if_neg fun e => (Finset.mem_erase.mp hp).1 e.symm]
  rw [total, total, ← Finset.add_sum_erase _ _ (Finset.mem_univ i), hrest, slot_put, if_pos rfl,
    ← Finset.add_sum_erase (a := i) _ (fun p => f (box.slot p)) (Finset.mem_univ i), add_right_comm,
    add_comm (f slot), add_assoc, add_comm (f slot), add_assoc]

theorem total_move (box : Outbox) (i j : Place) (slot : Slot) :
    ((box.put i (box.slot j)).put j slot).total f + f (box.slot i) =
      box.total f + f slot := by
  have hslot : (box.put i (box.slot j)).slot j = box.slot j := by
    rw [slot_put]
    split
    · rfl
    · rfl
  have hmoved := box.total_put (f := f) i (box.slot j)
  have hadded := (box.put i (box.slot j)).total_put (f := f) j slot
  rw [hslot] at hadded
  apply add_right_cancel (b := f (box.slot j))
  rw [add_right_comm, hadded, add_right_comm, hmoved, add_right_comm]

theorem total_written (box : Outbox) (i : Place) (m : Message) :
    (box.written i m).total f + f (box.slot i) = box.total f + f (.pending m) :=
  box.total_move i box.next (.pending m)

theorem total_drained (hs : box.slot box.start = .pending m) (packet : UInt8) :
    (box.drained m packet).total f + f (.pending m) =
      box.total f + f (.inFlight m packet) := by
  rw [← hs]
  exact box.total_put box.start (.inFlight m packet)

theorem total_restore (hs : box.slot i = .inFlight m packet) :
    (box.restore i m).total f + f (.inFlight m packet) = box.total f + f (.pending m) := by
  rw [← hs]
  exact box.total_move i box.start.previous (.pending m)

theorem total_eq_sum (box : Outbox) (f : Slot → M) :
    box.total f = (box.slots.toList.map f).sum := by
  have hlist : box.slots.toList = List.ofFn fun p : Place => box.slot p := by
    refine List.ext_getElem (by rw [Vector.length_toList, List.length_ofFn]) fun k hk _ => ?_
    rw [Vector.getElem_toList, List.getElem_ofFn]
    rfl
  rw [hlist, List.map_ofFn, List.sum_ofFn]
  rfl

theorem total_forward (box : Outbox) (f : Slot → M) :
    box.total f = ∑ k ∈ Finset.range 32, f (box.slot (box.start.forward k)) := by
  rw [Finset.sum_range fun k => f (box.slot (box.start.forward k))]
  refine (Fintype.sum_bijective (fun k : Fin 32 => box.start.forward k) ?_ _ _ fun _ => rfl).symm
  refine ⟨fun j k hjk => Fin.ext (Place.forward_inj box.start j.isLt k.isLt hjk), fun p => ?_⟩
  exact ⟨⟨Place.offset box.start p, Place.offset_lt box.start p⟩, Place.forward_offset box.start p⟩

theorem Ring.total_pending (h : box.Ring) (hf : ∀ slot : Slot, slot.pending? = none → f slot = 0) :
    box.total f = ∑ k ∈ Finset.range box.length, f (box.slot (box.start.forward k)) := by
  rw [total_forward]
  refine (Finset.sum_subset (Finset.range_subset_range.mpr h.length_le) fun k hk hge =>
      hf _ ?_).symm
  simp only [Finset.mem_range] at hk hge
  have hnot := h.pending_iff (box.start.forward k)
  rw [Place.offset_forward _ hk] at hnot
  cases hs : box.slot (box.start.forward k) with
  | pending m => exact absurd (hnot.mp ⟨m, hs⟩) hge
  | _ => rfl

end

-- ---------------------------------------------------------------------------
-- Values that only shrink
-- ---------------------------------------------------------------------------

section
variable {M : Type} [AddCancelCommMonoid M] [PartialOrder M] [CanonicallyOrderedAdd M]
  {f : Slot → M}

theorem total_pushAll_le (hf : ∀ m, f (.pending m) = 0) (acked : UInt32) (box : Outbox)
    (ms : List Message) : (pushAll acked box ms).2.total f ≤ box.total f := by
  induction ms generalizing box with
  | nil => exact le_refl _
  | cons m rest ih =>
    simp only [pushAll]
    cases hpush : box.push acked m with
    | error e => exact le_refl _
    | ok box' =>
      obtain ⟨-, i, -, rfl⟩ := push_ok_iff.mp hpush
      have hwritten := box.total_written (f := f) i m
      rw [hf, add_zero] at hwritten
      exact (ih _).trans (le_self_add.trans_eq hwritten)

theorem total_enqueue_le (hf : ∀ m, f (.pending m) = 0) (box : Outbox) (kind : Kind)
    (critical : Bool) (payload : Bytes) (acked : UInt32) :
    (box.enqueue kind critical payload acked).2.total f ≤ box.total f := by
  simp only [enqueue]
  split
  · exact le_refl _
  · split
    · exact le_refl _
    · exact total_pushAll_le hf acked { box with nextId := box.nextId + 1 } _

theorem total_releaseAll_le (hf : f .free = 0) (box : Outbox) (places : List Place) :
    (box.releaseAll places).2.total f ≤ box.total f := by
  induction places generalizing box with
  | nil => exact le_refl _
  | cons i rest ih =>
    refine (ih (box.release i).2).trans ?_
    rw [release_eq]
    split
    · have hput := box.total_put (f := f) i .free
      rw [hf, add_zero] at hput
      exact le_self_add.trans_eq hput
    · exact le_refl _

theorem total_requeue_le (hf : ∀ m, f (.pending m) = 0) (box : Outbox) (places : List Place) :
    (box.requeue places).2.total f ≤ box.total f := by
  induction places with
  | nil => exact le_refl _
  | cons i rest ih =>
    simp only [requeue]
    split
    next m packet hs =>
      have hrestored := total_restore (f := f) hs
      rw [hf, add_zero] at hrestored
      exact (le_self_add.trans_eq hrestored).trans ih
    · exact ih

end

-- ---------------------------------------------------------------------------
-- Messages in flight
-- ---------------------------------------------------------------------------

section
variable {box : Outbox}

theorem inFlightCount_eq (box : Outbox) :
    box.inFlightCount = box.total fun s => s.isInFlight.toNat := by
  rw [total_eq_sum, inFlightCount]
  induction box.slots.toList with
  | nil => rfl
  | cons s rest ih =>
    rw [List.countP_cons, ih, List.map_cons, List.sum_cons, Nat.add_comm]
    cases s.isInFlight <;> rfl

theorem Ring.length_add_inFlightCount_le (h : box.Ring) : box.length + box.inFlightCount ≤ 32 := by
  have hpending : box.total (fun s => s.pending?.isSome.toNat) = box.length := by
    have hone : ∀ k ∈ Finset.range box.length,
        (box.slot (box.start.forward k)).pending?.isSome.toNat = 1 := by
      intro k hk
      have hk := Finset.mem_range.mp hk
      have hoffset := Place.offset_forward box.start (Nat.lt_of_lt_of_le hk h.length_le)
      obtain ⟨m, hm⟩ := (h.pending_iff (box.start.forward k)).mpr (by rwa [hoffset])
      rw [hm]
      rfl
    rw [h.total_pending fun s hs => by rw [hs]; rfl, Finset.sum_congr rfl hone]
    simp
  rw [← hpending, inFlightCount_eq, total, total, ← Finset.sum_add_distrib]
  refine (Finset.sum_le_card_nsmul _ _ 1 fun p _ => ?_).trans (Nat.le_of_eq rfl)
  cases box.slot p with
  | free => exact Nat.zero_le 1
  | _ => exact Nat.le_refl 1

theorem inFlightCount_enqueue (box : Outbox) (kind : Kind) (critical : Bool) (payload : Bytes)
    (acked : UInt32) :
    (box.enqueue kind critical payload acked).2.inFlightCount ≤ box.inFlightCount := by
  rw [inFlightCount_eq, inFlightCount_eq]
  exact total_enqueue_le (fun _ => rfl) box kind critical payload acked

theorem inFlightCount_drainUpTo (box : Outbox) (limit capacity : Nat) (packet : UInt8) :
    (box.drainUpTo limit capacity packet).2.inFlightCount =
      box.inFlightCount + (box.drainUpTo limit capacity packet).1.length := by
  induction limit generalizing box capacity with
  | zero => rfl
  | succ limit ih =>
    simp only [drainUpTo]
    split
    · rfl
    next m box' hone =>
      obtain ⟨-, hs, -, rfl⟩ := drainOne_some_iff.mp hone
      have hdrained : (box.drained m packet).inFlightCount = box.inFlightCount + 1 := by
        have htotal := total_drained (f := fun s => s.isInFlight.toNat) hs packet
        rwa [← inFlightCount_eq, ← inFlightCount_eq] at htotal
      rw [ih, hdrained, List.length_cons, Nat.add_right_comm, Nat.add_assoc]

theorem inFlightCount_release (box : Outbox) (i : Place) :
    (box.release i).2.inFlightCount + (box.release i).1.toList.length = box.inFlightCount := by
  rw [release_eq]
  cases hs : box.slot i with
  | inFlight m packet =>
    have hput := box.total_put (f := fun s => s.isInFlight.toNat) i .free
    rwa [hs, ← inFlightCount_eq, ← inFlightCount_eq] at hput
  | _ => rfl

theorem inFlightCount_releaseAll (box : Outbox) (places : List Place) :
    (box.releaseAll places).2.inFlightCount + (box.releaseAll places).1.length =
      box.inFlightCount := by
  induction places generalizing box with
  | nil => rfl
  | cons i rest ih =>
    show (releaseAll (box.release i).2 rest).2.inFlightCount +
      ((box.release i).1.toList ++ (releaseAll (box.release i).2 rest).1).length = _
    rw [List.length_append, Nat.add_comm (box.release i).1.toList.length, ← Nat.add_assoc, ih,
      inFlightCount_release]

theorem inFlightCount_requeue (box : Outbox) (places : List Place) :
    (box.requeue places).2.inFlightCount + (box.requeue places).1 = box.inFlightCount := by
  induction places with
  | nil => rfl
  | cons i rest ih =>
    simp only [requeue]
    split
    next m packet hs =>
      have hrestored : ((box.requeue rest).2.restore i m).inFlightCount + 1 =
          (box.requeue rest).2.inFlightCount := by
        have htotal := total_restore (f := fun s => s.isInFlight.toNat) hs
        rwa [← inFlightCount_eq, ← inFlightCount_eq] at htotal
      rw [← ih, ← hrestored, Nat.add_assoc, Nat.add_comm 1]
    · exact ih

end

end Courier.Outbox
