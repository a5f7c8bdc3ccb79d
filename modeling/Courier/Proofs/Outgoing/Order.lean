import Mathlib.Data.List.Sort
import Courier.Proofs.Outgoing.Disposal

/-!
# The order of a packet's slots

The oldest pending slot moves forward over pending slots when a packet is
filled, and back when messages are put back (`Shifted`). In between the slots in
flight keep their order. So as long as the critical messages of a packet stay
where they are (`Trails`), those still in flight are found in the order in which
the packet took them.
-/

namespace Courier

open Place (offset)

theorem Place.offset_forward_sub {start p : Place} {n : Nat} (h : n ≤ offset start p) :
    offset (start.forward n) p = offset start p - n := by
  have hlt := offset_lt start p
  simp only [offset, forward] at h hlt ⊢
  omega

namespace Slot

/-- The slot holds a critical message for `packet`. -/
def isVital (packet : UInt8) : Slot → Bool
  | .inFlight m p => m.critical && p == packet
  | _ => false

theorem isVital_iff {slot : Slot} {packet : UInt8} :
    slot.isVital packet = true ↔ ∃ m, slot = .inFlight m packet ∧ m.critical = true := by
  cases slot with
  | inFlight m p => simp [isVital, and_comm]
  | _ => simp [isVital]

end Slot

namespace Outbox

section
variable {box after third : Outbox} {packet : UInt8} {p q : Place} {ms : List Message}

/-- The oldest pending slot was moved, if at all, over slots that were or are pending. -/
def Shifted (box after : Outbox) : Prop :=
  (∃ n ≤ box.length, after.start = box.start.forward n) ∨
  ∃ n ≤ after.length, box.start = after.start.forward n

theorem Shifted.of_start_eq (h : after.start = box.start) : Shifted box after :=
  .inl ⟨0, Nat.zero_le _, by rw [h, Place.forward_zero]⟩

theorem Drained.shifted (h : Drained box after packet ms) : Shifted box after :=
  .inl ⟨ms.length, h.length_eq ▸ Nat.le_add_left _ _, h.start_eq⟩

theorem Requeued.shifted {places : List Place} (h : Requeued box after places) :
    Shifted box after := by
  have hle := h.ring.length_le
  have hlen := h.length_eq
  refine .inr ⟨places.length, by omega, ?_⟩
  rw [h.start_eq, Place.forward_forward, Nat.sub_add_cancel (by omega), Place.forward_size]

theorem Shifted.order (h : Shifted box after) (hp : box.length ≤ offset box.start p)
    (hq : box.length ≤ offset box.start q) (hp' : after.length ≤ offset after.start p)
    (hq' : after.length ≤ offset after.start q)
    (hlt : offset after.start p < offset after.start q) :
    offset box.start p < offset box.start q := by
  rcases h with ⟨n, hn, hstart⟩ | ⟨n, hn, hstart⟩
  · rw [hstart, Place.offset_forward_sub (hn.trans hp),
      Place.offset_forward_sub (hn.trans hq)] at hlt
    omega
  · rw [hstart, Place.offset_forward_sub (hn.trans hp'), Place.offset_forward_sub (hn.trans hq')]
    omega

/-- The critical messages in flight in `packet` are where they were, and in the order
in which they were. -/
structure Trails (packet : UInt8) (box after : Outbox) : Prop where
  slot_eq : ∀ p, (after.slot p).isVital packet = true → box.slot p = after.slot p
  order : ∀ p q, (after.slot p).isVital packet = true → (after.slot q).isVital packet = true →
    offset after.start p < offset after.start q → offset box.start p < offset box.start q

theorem Trails.refl (packet : UInt8) (box : Outbox) : Trails packet box box :=
  ⟨fun _ _ => rfl, fun _ _ _ _ h => h⟩

theorem Trails.trans (first : Trails packet box after) (second : Trails packet after third) :
    Trails packet box third := by
  refine ⟨fun p hp => ?_, fun p q hp hq hlt => ?_⟩
  · have hsame := second.slot_eq p hp
    exact (first.slot_eq p (hsame.symm ▸ hp)).trans hsame
  · refine first.order p q ?_ ?_ (second.order p q hp hq hlt)
    · exact (second.slot_eq p hp).symm ▸ hp
    · exact (second.slot_eq q hq).symm ▸ hq

theorem Shifted.trails (hshift : Shifted box after) (h : box.Ring) (h' : after.Ring)
    (hslot : ∀ p, (after.slot p).isVital packet = true → box.slot p = after.slot p) :
    Trails packet box after := by
  have hfree {b : Outbox} (hb : b.Ring) {p : Place} (hp : (b.slot p).isVital packet = true) :
      b.length ≤ offset b.start p := by
    obtain ⟨m, hm, -⟩ := Slot.isVital_iff.mp hp
    exact hb.mem_freeRegion.mp (hb.mem_freeRegion_of_inFlight hm)
  refine ⟨hslot, fun p q hp hq hlt => ?_⟩
  exact hshift.order (hfree h (hslot p hp ▸ hp)) (hfree h (hslot q hq ▸ hq)) (hfree h' hp)
    (hfree h' hq) hlt

theorem Drained.freeRegion_eq (hd : Drained box after packet ms) (h : box.Ring) :
    after.freeRegion = box.freeRegion ++ (List.range ms.length).map box.start.forward := by
  have hlen := hd.length_eq
  have hle := h.length_le
  have hnext : after.next = box.next := by
    rw [hd.ring.next_eq, hd.start_eq, Place.forward_forward, h.next_eq, ← hlen, Nat.add_comm]
  have hcount : capacity - after.length = (capacity - box.length) + ms.length := by
    simp only [capacity]
    omega
  rw [freeRegion, freeRegion, hcount, hnext, List.range_add, List.map_append, List.map_map]
  refine congrArg _ (List.map_congr_left fun k _ => ?_)
  show box.next.forward (32 - box.length + k) = box.start.forward k
  rw [h.next_eq, Place.forward_forward, ← Nat.add_assoc, Nat.add_sub_cancel' hle,
    ← Place.forward_forward]
  exact congrArg (·.forward k) (Place.forward_size box.start)

end

end Outbox

namespace Outgoing

section
variable {o o' : Outgoing} {index : UInt32}

theorem vital_eq (o : Outgoing) (index : UInt32) :
    o.vital index = o.outbox.freeRegion.filter fun p =>
      (o.outbox.slot p).isVital index.toUInt8 := by
  rw [vital, Outbox.carried, List.filter_filter]
  refine List.filter_congr fun p _ => ?_
  cases o.outbox.slot p with
  | inFlight m packet => rfl
  | _ => rfl

theorem mem_vital_iff (h : o.outbox.Ring) {p : Place} :
    p ∈ o.vital index ↔ (o.outbox.slot p).isVital index.toUInt8 = true := by
  rw [mem_vital h, Slot.isVital_iff]

/-- Of messages that are where they were, those still there are in the old order. -/
theorem vital_sublist (h : o.outbox.Ring) (h' : o'.outbox.Ring)
    (ht : Outbox.Trails index.toUInt8 o.outbox o'.outbox) :
    (o'.outbox.messagesAt (o'.vital index)).Sublist (o.outbox.messagesAt (o.vital index)) := by
  have hcontent : o'.outbox.messagesAt (o'.vital index) = o.outbox.messagesAt (o'.vital index) :=
    List.filterMap_congr fun p hp => by rw [ht.slot_eq p ((mem_vital_iff h').mp hp)]
  have hsubset : o'.vital index ⊆ o.vital index := fun p hp => by
    have hp := (mem_vital_iff h').mp hp
    exact (mem_vital_iff h).mpr (ht.slot_eq p hp ▸ hp)
  have horder :
      (o.vital index).Pairwise fun p q => offset o.outbox.start p < offset o.outbox.start q :=
    (h.inOrder_carried _).filter _
  have horder' :
      (o'.vital index).Pairwise fun p q => offset o.outbox.start p < offset o.outbox.start q := by
    refine List.Pairwise.imp_of_mem (fun hp hq hlt => ?_)
      ((h'.inOrder_carried index.toUInt8).filter _)
    exact ht.order _ _ ((mem_vital_iff h').mp hp) ((mem_vital_iff h').mp hq) hlt
  have : Std.Antisymm fun p q : Place => offset o.outbox.start p < offset o.outbox.start q :=
    ⟨fun _ _ hlt hgt => absurd hgt (Nat.lt_asymm hlt)⟩
  rw [hcontent]
  exact (List.sublist_of_subperm_of_pairwise
    (List.subperm_of_subset ((o'.outbox.nodup_carried _).filter _) hsubset) horder'
      horder).filterMap _

theorem messagesAt_vital_of_drained {box : Outbox} {ms : List Message} (h : box.Ring)
    (hd : Outbox.Drained box o.outbox index.toUInt8 ms)
    (hnone : ∀ p, (box.slot p).isVital index.toUInt8 = false) :
    o.outbox.messagesAt (o.vital index) = ms.filter (·.critical) := by
  have hold : (box.freeRegion.filter fun p => (o.outbox.slot p).isVital index.toUInt8) = [] := by
    refine List.filter_eq_nil_iff.mpr fun p hp => ?_
    have hge : ¬ offset box.start p < ms.length := by
      have hfree := h.mem_freeRegion.mp hp
      have hlen := hd.length_eq
      omega
    rw [hd.slot_eq, if_neg hge, hnone]
    exact Bool.false_ne_true
  have hfilled : ∀ k ∈ List.range ms.length,
      (if (o.outbox.slot (box.start.forward k)).isVital index.toUInt8 = true then
        (o.outbox.slot (box.start.forward k)).inFlight? else none) =
          (ms[k]?).filter (·.critical) := by
    intro k hk
    have hk := List.mem_range.mp hk
    have hle := h.length_le
    have hlen := hd.length_eq
    rw [hd.slot_eq, Place.offset_forward _ (by omega), if_pos hk, hd.message_eq k hk,
      List.getElem?_eq_getElem hk]
    simp [Slot.loaded, Slot.isVital, Slot.inFlight?, Option.filter]
  rw [vital_eq, hd.freeRegion_eq h, List.filter_append, hold, List.nil_append, Outbox.messagesAt,
    List.filterMap_filter, List.filterMap_map]
  refine (List.filterMap_congr hfilled).trans ?_
  rw [← List.filter_filterMap, Manifest.filterMap_range_getElem?]

end

end Outgoing

end Courier
