import Courier.Proofs.Manifest.Waiting
import Courier.Proofs.Outbox.Vitals

/-!
# The critical messages of a packet

`stowed` collects the critical messages that the slots hold for one packet, with
the numbers of their payloads. Every operation has a law for it: wherever slots
are moved to, it stays the same, and only freeing and loading change it.
-/

namespace Courier

namespace Slot

def stowed (packet : UInt8) (number : Nat) : Slot → Multiset (Message × Nat)
  | .inFlight m p => if m.critical && p == packet then {(m, number)} else 0
  | _ => 0

theorem mem_stowed {slot : Slot} {packet : UInt8} {number : Nat} {x : Message × Nat} :
    x ∈ slot.stowed packet number ↔ slot = .inFlight x.1 packet ∧ x.1.critical = true ∧
    x.2 = number := by
  cases slot with
  | inFlight m p =>
    simp only [stowed]
    split
    next h =>
      simp only [Bool.and_eq_true, beq_iff_eq] at h
      obtain ⟨hc, rfl⟩ := h
      rw [Multiset.mem_singleton]
      constructor
      · rintro rfl
        exact ⟨rfl, hc, rfl⟩
      · rintro ⟨hslot, -, hnumber⟩
        rw [Slot.inFlight.injEq] at hslot
        exact Prod.ext hslot.1.symm hnumber
    next h =>
      simp only [Multiset.notMem_zero, false_iff, Slot.inFlight.injEq]
      rintro ⟨⟨rfl, rfl⟩, hc, -⟩
      simp [hc] at h
  | _ => simp [stowed]

theorem stowed_eq_zero {slot : Slot} {packet : UInt8} {number : Nat}
    (h : ∀ m, slot = .inFlight m packet → m.critical = false) : slot.stowed packet number = 0 := by
  refine Multiset.eq_zero_of_forall_notMem fun x hx => ?_
  obtain ⟨hslot, hc, -⟩ := mem_stowed.mp hx
  rw [h _ hslot] at hc
  cases hc

end Slot

namespace Manifest

open Outbox (Drained Released Requeued)

/-- The critical messages that `packet` carries, with the numbers of their payloads. -/
def stowed (f : Manifest) (box : Outbox) (packet : UInt8) : Multiset (Message × Nat) :=
  ∑ p : Place, (box.slot p).stowed packet (f p)

section
variable {f g : Manifest} {box after : Outbox} {acked : UInt32} {packet : UInt8} {m : Message}
  {number : Nat} {i : Place} {places : List Place} {x : Message × Nat}

theorem mem_stowed : x ∈ f.stowed box packet ↔
    ∃ p, box.slot p = .inFlight x.1 packet ∧ x.1.critical = true ∧ x.2 = f p := by
  simp only [stowed, Multiset.mem_sum, Finset.mem_univ, true_and, Slot.mem_stowed]

theorem stowed_moved {origin : Place → Place} (hinj : Function.Injective origin)
    (h : ∀ p, (after.slot p).stowed packet (g p) =
      (box.slot (origin p)).stowed packet (f (origin p))) :
    g.stowed after packet = f.stowed box packet :=
  Fintype.sum_bijective origin (Finite.injective_iff_bijective.mp hinj) _ _ h

theorem stowed_eq_aboard (hnd : places.Nodup)
    (hmem : ∀ p, p ∈ places ↔ ∃ m, box.slot p = .inFlight m packet ∧ m.critical = true) :
    f.stowed box packet = f.aboard box places := by
  have hnone : ∀ p ∈ Finset.univ, p ∉ places.toFinset → (box.slot p).stowed packet (f p) = 0 := by
    intro p _ hp
    refine Slot.stowed_eq_zero fun m hm => ?_
    by_contra hc
    exact hp (List.mem_toFinset.mpr ((hmem p).mpr ⟨m, hm, Bool.of_not_eq_false hc⟩))
  have hsum (ps : List Place) (hps : ps ⊆ places) :
      (ps.map fun p => (box.slot p).stowed packet (f p)).sum =
        (f.aboard box ps : Multiset (Message × Nat)) := by
    induction ps with
    | nil => rfl
    | cons p rest ih =>
      obtain ⟨m, hm, hc⟩ := (hmem p).mp (hps List.mem_cons_self)
      rw [List.map_cons, List.sum_cons, ih fun q hq => hps (List.mem_cons_of_mem _ hq), aboard,
        aboard, List.filterMap_cons, hm]
      simp [Slot.stowed, Slot.inFlight?, hc]
  rw [stowed, ← Finset.sum_subset (Finset.subset_univ places.toFinset) hnone,
    List.sum_toFinset _ hnd]
  exact hsum places (List.Subset.refl _)

-- ---------------------------------------------------------------------------
-- Adding messages
-- ---------------------------------------------------------------------------

theorem stowed_written (h : box.Ring) (hl : box.length < 32) (hv : box.vacancy acked = some i)
    (hheld : ∀ p m packet, box.slot p = .inFlight m packet → m.critical = true →
      Window.has acked packet.toUInt32 = false) :
    (f.written box i number).stowed (box.written i m) packet = f.stowed box packet := by
  obtain ⟨-, hreusable⟩ := h.vacancy_spec hl hv
  have hvacant : (box.slot i).stowed packet (f i) = 0 := by
    refine Slot.stowed_eq_zero fun m' hm' => ?_
    by_contra hc
    have hheld := hheld i m' packet hm' (Bool.of_not_eq_false hc)
    simp [hm', Slot.isReusable, Slot.isHeld, hheld, hc] at hreusable
  refine stowed_moved (Place.exchange_injective i box.next) fun p => ?_
  rw [Outbox.slot_written, written, Place.exchange]
  by_cases hp : p = box.next
  · simp only [if_pos hp, hvacant]
    rfl
  · by_cases hi : p = i
    · simp only [if_neg hp, if_pos hi]
    · simp only [if_neg hp, if_neg hi]

theorem stowed_pushAll (ms : List Message) (h : box.Ring)
    (hheld : ∀ p m packet, box.slot p = .inFlight m packet → m.critical = true →
      Window.has acked packet.toUInt32 = false)
    (hok : (Outbox.pushAll acked box ms).1 = .ok ()) :
    (f.pushAll acked number box ms).stowed (Outbox.pushAll acked box ms).2 packet =
      f.stowed box packet := by
  induction ms generalizing f box with
  | nil => rfl
  | cons m rest ih =>
    cases hpush : box.push acked m with
    | error e => simp only [Outbox.pushAll, hpush, reduceCtorEq] at hok
    | ok box' =>
      obtain ⟨hl, i, hv, rfl⟩ := Outbox.push_ok_iff.mp hpush
      have hstill : ∀ p m' packet, (box.written i m).slot p = .inFlight m' packet →
          m'.critical = true →
          Window.has acked packet.toUInt32 = false := by
        intro p m' packet hs
        rw [Outbox.slot_written] at hs
        split at hs
        · cases hs
        · split at hs
          · exact hheld _ m' packet hs
          · exact hheld _ m' packet hs
      simp only [Outbox.pushAll, hpush, pushAll, hv] at hok ⊢
      rw [ih (h.written hl hv) hstill hok, stowed_written h (by omega) hv hheld]

-- ---------------------------------------------------------------------------
-- Freeing slots and putting messages back
-- ---------------------------------------------------------------------------

theorem stowed_released {ms : List Message} (f : Manifest) (packet : UInt8)
    (hreleased : Released box after places ms) :
    ∃ gone : Multiset (Message × Nat), f.stowed after packet + gone = f.stowed box packet ∧
      ∀ x ∈ gone, ∃ p ∈ places, box.slot p = .inFlight x.1 packet ∧ x.1.critical = true ∧
      x.2 = f p := by
  refine ⟨∑ p, (if p ∈ places then (box.slot p).stowed packet (f p) else 0), ?_, ?_⟩
  · rw [stowed, ← Finset.sum_add_distrib]
    refine Finset.sum_congr rfl fun p _ => ?_
    rw [hreleased.slot_eq]
    split
    · cases box.slot p <;> simp [Slot.released, Slot.stowed]
    · rw [add_zero]
  · intro x hx
    obtain ⟨p, -, hx⟩ := Multiset.mem_sum.mp hx
    split at hx
    next hp => exact ⟨p, hp, Slot.mem_stowed.mp hx⟩
    · exact absurd hx (Multiset.notMem_zero x)

theorem stowed_released_other {ms : List Message} (f : Manifest) (packet : UInt8)
    (hreleased : Released box after places ms)
    (hother : ∀ p ∈ places, ∀ m, box.slot p = .inFlight m packet → m.critical = false) :
    f.stowed after packet = f.stowed box packet := by
  obtain ⟨gone, heq, hgone⟩ := stowed_released f packet hreleased
  have hnone : gone = 0 := by
    refine Multiset.eq_zero_of_forall_notMem fun x hx => ?_
    obtain ⟨p, hp, hs, hc, -⟩ := hgone x hx
    rw [hother p hp _ hs] at hc
    cases hc
  rwa [hnone, add_zero] at heq

theorem stowed_requeue (hrequeued : Requeued box after places)
    (hother : ∀ p ∈ places, ∀ m, box.slot p ≠ .inFlight m packet) :
    (f.requeue box places).stowed after packet = f.stowed box packet := by
  refine stowed_moved hrequeued.injective fun p => ?_
  rw [hrequeued.slot_eq]
  split
  next hp =>
    rw [Slot.stowed_eq_zero fun m hm => absurd hm (hother _ hp m)]
    cases box.slot (box.origin places p) <;> rfl
  · rfl

-- ---------------------------------------------------------------------------
-- Loading a packet
-- ---------------------------------------------------------------------------

theorem stowed_drained_other {ms : List Message} {q : UInt8} (hdrained : Drained box after q ms)
    (hne : packet ≠ q) : f.stowed after packet = f.stowed box packet := by
  refine Finset.sum_congr rfl fun p _ => ?_
  rw [hdrained.slot_eq]
  split
  · cases box.slot p with
    | pending m => simp [Slot.loaded, Slot.stowed, hne.symm]
    | _ => rfl
  · rfl

theorem stowed_drainOne (hs : box.slot box.start = .pending m) :
    f.stowed (box.drained m packet) packet =
      (if m.critical then {(m, f box.start)} else 0) + f.stowed box packet := by
  have hslot (p : Place) : ((box.drained m packet).slot p).stowed packet (f p) =
      (if p = box.start then (if m.critical then {(m, f box.start)} else 0) else 0) +
        (box.slot p).stowed packet (f p) := by
    rw [Outbox.slot_drained]
    by_cases hp : p = box.start
    · subst hp
      simp [hs, Slot.stowed]
    · rw [if_neg hp, if_neg hp, zero_add]
  rw [stowed, Finset.sum_congr rfl fun p _ => hslot p, Finset.sum_add_distrib,
    Finset.sum_ite_eq' Finset.univ box.start, if_pos (Finset.mem_univ _), stowed]

theorem front_succ (f : Manifest) (box : Outbox) (m : Message) (packet : UInt8) (count : Nat) :
    f.front box (count + 1) = f box.start :: f.front (box.drained m packet) count := by
  rw [front, List.range_succ_eq_map, List.map_cons, List.map_map, Place.forward_zero]
  refine congrArg (f box.start :: ·) (List.map_congr_left fun k _ => ?_)
  show f (box.start.forward (k + 1)) = f ((box.start.forward 1).forward k)
  rw [Place.forward_forward, Nat.add_comm]

/-- The packet that is loaded carries the critical ones of the messages taken. -/
theorem stowed_drainUpTo (f : Manifest) (box : Outbox) (limit capacity : Nat) (packet : UInt8) :
    f.stowed (box.drainUpTo limit capacity packet).2 packet =
      (((box.drainUpTo limit capacity packet).1.zip
        (f.front box (box.drainUpTo limit capacity packet).1.length)).filter (·.1.critical) :
          Multiset (Message × Nat)) + f.stowed box packet := by
  induction limit generalizing box capacity with
  | zero => exact (zero_add _).symm
  | succ limit ih =>
    simp only [Outbox.drainUpTo]
    split
    · exact (zero_add _).symm
    next m box' hone =>
      obtain ⟨-, hs, -, rfl⟩ := Outbox.drainOne_some_iff.mp hone
      rw [ih, stowed_drainOne hs, List.length_cons, front_succ f box m packet, List.zip_cons_cons,
        List.filter_cons, ← add_assoc, add_comm _ (ite _ _ _)]
      cases hc : m.critical with
      | true => rfl
      | false =>
        simp

end

end Manifest

end Courier
