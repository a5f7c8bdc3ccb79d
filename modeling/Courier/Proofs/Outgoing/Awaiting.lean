import Courier.Proofs.Outgoing.Held

/-!
# Messages in flight wait for their packet

What an acknowledged packet carries is freed when the acknowledgement comes in.
So what is in flight waits for a packet that is not acknowledged, or was already
settled. When an acknowledged packet is settled, nothing is left to be freed.
-/

namespace Courier.Outgoing

/-- Nothing in flight belongs to a packet that is acknowledged and still to be settled. -/
def Awaiting (o : Outgoing) (acked : UInt32) : Prop :=
  ∀ p m packet, o.outbox.slot p = .inFlight m packet →
    packet.toNat < 32 ∧
      (Window.has o.flights.sent packet.toUInt32 = true → Window.has acked packet.toUInt32 = false)

theorem awaiting_empty (acked : UInt32) : ({} : Outgoing).Awaiting acked := by
  intro p m packet hs
  simp [Outbox.slot] at hs

section
variable {o : Outgoing} {acked acked' newly next : UInt32}

theorem Awaiting.confirm (h : o.Awaiting acked) (hring : o.outbox.Ring)
    (hnewly : ∀ i, Window.has newly i = (Window.has acked' i && !Window.has acked i)) :
    (o.confirm newly).2.Awaiting acked' := by
  rw [confirm_eq hring]
  intro p m packet hs
  rw [(released_confirmed hring newly).slot_eq] at hs
  by_cases hp : p ∈ o.confirmedPlaces newly
  · obtain ⟨m', packet', hm, -⟩ := (mem_confirmedPlaces hring).mp hp
    simp [hp, hm, Slot.released] at hs
  · rw [if_neg hp] at hs
    obtain ⟨hlt, hwaits⟩ := h p m packet hs
    refine ⟨hlt, fun hsent => ?_⟩
    -- a packet that was acknowledged just now would have been confirmed
    by_contra hnot
    refine hp ((mem_confirmedPlaces hring).mpr ⟨m, packet, hs, hlt, ?_, hsent⟩)
    rw [hnewly, hwaits hsent, Bool.not_false, Bool.and_true]
    exact Bool.of_not_eq_false hnot

theorem Awaiting.settle (h : o.Awaiting acked) (hring : o.outbox.Ring) (next : UInt32) :
    (o.settle next acked).2.2.Awaiting acked := by
  obtain ⟨-, -, hflights, hinherits⟩ := settle_spec hring next acked
  intro p m packet hs
  obtain ⟨hlt, hwaits⟩ := h _ m packet ((hinherits p).inFlight hs)
  refine ⟨hlt, fun hsent => ?_⟩
  rw [hflights, has_clear, Bool.and_eq_true] at hsent
  exact hwaits hsent.1

theorem Awaiting.pushed {box : Outbox} {f after : Manifest} {number : Nat} {ms : List Message}
    (h : o.Awaiting acked) (hpushed : Manifest.Pushed f after o.outbox box number ms) :
    ({ o with outbox := box } : Outgoing).Awaiting acked := by
  intro p m packet hs
  rcases hpushed.slot_eq p with ⟨q, hslot, -⟩ | ⟨m', -, hslot, -⟩
  · exact h q m packet (hslot.symm.trans hs)
  · cases hslot.symm.trans hs

theorem Awaiting.launch {box : Outbox} {s : UInt32} {ms : List Message} (h : o.Awaiting acked)
    (hdrained : Outbox.Drained o.outbox box (Window.index s).toUInt8 ms) (critical : Bool) :
    ({ outbox := box, flights := o.flights.launch s critical } : Outgoing).Awaiting
      (acked &&& ~~~Window.bit (Window.index s)) := by
  intro p m packet hs
  show _ ∧ (Window.has (o.flights.sent ||| _) _ = true → _)
  rw [Window.has_or, Window.has_and, Window.has_not, Window.has_bit, Window.toNat_index]
  rcases hdrained.inFlight hs with hbefore | ⟨-, rfl, -⟩
  · obtain ⟨hlt, hwaits⟩ := h p m packet hbefore
    refine ⟨hlt, fun hsent => ?_⟩
    rcases Bool.or_eq_true_iff.mp hsent with hsent | hnow
    · rw [hwaits hsent, Bool.false_and]
    · rw [hnow, Bool.not_true, Bool.and_false]
  · rw [UInt8.toNat_toUInt32, Window.toNat_tag]
    exact ⟨by omega, by simp⟩

theorem Awaiting.carried_eq_nil (h : o.Awaiting acked) (hring : o.outbox.Ring)
    (hsent : Window.has o.flights.sent next = true) (hacked : Window.has acked next = true) :
    o.outbox.carried (Window.index next).toUInt8 = [] := by
  refine List.eq_nil_iff_forall_not_mem.mpr fun p hp => ?_
  obtain ⟨m, hm⟩ := hring.mem_carried.mp hp
  obtain ⟨-, hwaits⟩ := h p m _ hm
  rw [Window.has_tag, Window.has_tag, hacked] at hwaits
  cases hwaits hsent

end

end Courier.Outgoing
