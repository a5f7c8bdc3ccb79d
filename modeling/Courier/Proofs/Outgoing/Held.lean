import Courier.Proofs.Manifest
import Courier.Proofs.Outbox.Vitals
import Courier.Proofs.Outgoing

/-!
# Critical messages stay held

A critical message in flight is held as long as its packet is not acknowledged.
`Held` says that every one of them is: its packet was sent, was not settled and
is not in `acked`. No operation on the outgoing messages breaks this, so none
of them loses or doubles a critical message.
-/

namespace Courier

namespace Window

theorem toNat_tag (s : UInt32) : (index s).toUInt8.toNat = s.toNat % 32 := by
  rw [UInt32.toNat_toUInt8, toNat_index]
  omega

theorem has_tag (field s : UInt32) : has field (index s).toUInt8.toUInt32 = has field s :=
  has_congr (by rw [UInt8.toNat_toUInt32, toNat_tag, Nat.mod_mod])

theorem eq_tag {s : UInt32} {packet : UInt8} (h : packet.toNat = s.toNat % 32) :
    packet = (index s).toUInt8 :=
  UInt8.toNat_inj.mp (by rw [toNat_tag, h])

theorem mem_indices {i : UInt32} : i ∈ indices ↔ i.toNat < 32 := by
  simp only [indices, List.mem_map, List.mem_range, size]
  constructor
  · rintro ⟨k, hk, rfl⟩
    rwa [UInt32.toNat_ofNat_of_lt' (Nat.lt_trans hk (by decide))]
  · intro hi
    exact ⟨i.toNat, hi, UInt32.ofNat_toNat⟩

end Window

namespace Outgoing

structure Held (o : Outgoing) (acked : UInt32) : Prop where
  ring : o.outbox.Ring
  held : ∀ {p m packet}, o.outbox.slot p = .inFlight m packet → m.critical = true →
    packet.toNat < 32 ∧ Window.has o.flights.sent packet.toUInt32 = true ∧
      Window.has acked packet.toUInt32 = false

theorem held_empty (acked : UInt32) : ({} : Outgoing).Held acked where
  ring := Outbox.ring_empty
  held {p m packet} hs := by simp [Outbox.slot] at hs

section
variable {o : Outgoing} {acked acked' newly next : UInt32} {p : Place}

theorem Held.mono (h : o.Held acked)
    (hle : ∀ i, Window.has acked i = false → Window.has acked' i = false) : o.Held acked' where
  ring := h.ring
  held hs hc := by
    obtain ⟨hlt, hsent, hacked⟩ := h.held hs hc
    exact ⟨hlt, hsent, hle _ hacked⟩

-- ---------------------------------------------------------------------------
-- Confirming
-- ---------------------------------------------------------------------------

theorem mem_confirmedPlaces (h : o.outbox.Ring) : p ∈ o.confirmedPlaces newly ↔
    ∃ m packet, o.outbox.slot p = .inFlight m packet ∧ packet.toNat < 32 ∧
      Window.has newly packet.toUInt32 = true ∧
      Window.has o.flights.sent packet.toUInt32 = true := by
  simp only [confirmedPlaces, carriedAll, List.mem_flatMap, List.mem_filter, Bool.and_eq_true,
    Window.mem_indices, h.mem_carried]
  constructor
  · rintro ⟨i, ⟨hi, hnewly, hsent⟩, m, hm⟩
    have hcong : i.toUInt8.toUInt32 = i := by
      apply UInt32.toNat_inj.mp
      rw [UInt8.toNat_toUInt32, UInt32.toNat_toUInt8]
      omega
    have hlt : i.toUInt8.toNat < 32 := by
      rw [UInt32.toNat_toUInt8]
      omega
    exact ⟨m, _, hm, hlt, by rwa [hcong], by rwa [hcong]⟩
  · rintro ⟨m, packet, hm, hlt, hnewly, hsent⟩
    have hcong : packet.toUInt32.toUInt8 = packet := UInt8.toUInt8_toUInt32 packet
    refine ⟨packet.toUInt32, ⟨?_, hnewly, hsent⟩, m, by rwa [hcong]⟩
    rwa [UInt8.toNat_toUInt32]

theorem Held.confirm (h : o.Held acked)
    (hnewly : ∀ i, Window.has newly i = (Window.has acked' i && !Window.has acked i)) :
    (o.confirm newly).2.Held acked' := by
  have hreleased := released_confirmed h.ring newly
  rw [confirm_eq h.ring]
  refine ⟨hreleased.ring, ?_⟩
  intro p m packet hs hc
  rw [hreleased.slot_eq] at hs
  by_cases hp : p ∈ o.confirmedPlaces newly
  · obtain ⟨m', packet', hm, -⟩ := (mem_confirmedPlaces h.ring).mp hp
    simp [hp, hm, Slot.released] at hs
  · rw [if_neg hp] at hs
    obtain ⟨hlt, hsent, hacked⟩ := h.held hs hc
    refine ⟨hlt, hsent, ?_⟩
    -- a packet that was acknowledged just now would have been confirmed
    by_contra hnot
    refine hp ((mem_confirmedPlaces h.ring).mpr ⟨m, packet, hs, hlt, ?_, hsent⟩)
    rw [hnewly, hacked, Bool.not_false, Bool.and_true]
    exact Bool.of_not_eq_false hnot

-- ---------------------------------------------------------------------------
-- Settling
-- ---------------------------------------------------------------------------

theorem has_clear (f : Flights) (index i : UInt32) : Window.has (f.clear index).sent i =
    (Window.has f.sent i && !decide (index.toNat % 32 = i.toNat % 32)) := by
  simp only [Flights.clear, Window.has_and, Window.has_not, Window.has_bit]

theorem vitalsOf_dropped (h : o.outbox.Ring) (index : UInt32) :
    vitalsOf ((o.outbox.requeue (o.vital index)).2.releaseAll (o.plain index)).1 = 0 := by
  refine vitalsOf_eq_zero ?_
  intro m hm
  rw [(released_plain h index).messages_eq, List.mem_filterMap] at hm
  obtain ⟨p, hp, hm⟩ := hm
  obtain ⟨m', hplain, hc⟩ := (mem_plain h).mp hp
  have hnot : p ∉ o.vital index := by
    intro hv
    obtain ⟨m'', hvital, hc'⟩ := (mem_vital h).mp hv
    rw [hplain, Slot.inFlight.injEq] at hvital
    rw [hvital.1, hc'] at hc
    cases hc
  rcases (requeued_vital h index).slot_of_notMem hnot with hsame | ⟨m'', hpending⟩
  · rw [hsame, hplain] at hm
    cases hm
    exact hc
  · rw [hpending] at hm
    cases hm

structure Inherits (after before : Slot) : Prop where
  inFlight : ∀ {m packet}, after = .inFlight m packet → before = .inFlight m packet
  pending : ∀ {m}, after = .pending m → before.message? = some m

theorem inherits_self (slot : Slot) : Inherits slot slot :=
  ⟨fun h => h, fun h => h ▸ rfl⟩

theorem inherits_released (slot : Slot) : Inherits slot.released slot := by
  cases slot with
  | inFlight m packet => exact ⟨(nomatch ·), (nomatch ·)⟩
  | _ => exact inherits_self _

theorem inherits_returned (slot : Slot) : Inherits slot.returned slot := by
  cases slot with
  | inFlight m packet => exact ⟨(nomatch ·), fun h => by cases h; rfl⟩
  | _ => exact inherits_self _

theorem Inherits.message? {after before : Slot} {m : Message} (h : Inherits after before)
    (hm : after.message? = some m) : before.message? = some m := by
  cases after with
  | free => cases hm
  | pending m' => cases hm; exact h.pending rfl
  | inFlight m' packet => cases hm; rw [h.inFlight rfl]; rfl

theorem Inherits.trans {first second third : Slot} (h : Inherits first second)
    (h' : Inherits second third) : Inherits first third := by
  refine ⟨fun hs => h'.inFlight (h.inFlight hs), ?_⟩
  intro m hs
  exact h'.message? (h.pending hs)

/-- Settling moves slots only as `origin` says, and empties some. -/
theorem settle_spec (h : o.outbox.Ring) (next acked : UInt32) :
    (o.settle next acked).2.2.outbox.Ring ∧
      (o.settle next acked).2.2.outbox.nextId = o.outbox.nextId ∧
      (o.settle next acked).2.2.flights = o.flights.clear (Window.index next) ∧
      ∀ p, Inherits ((o.settle next acked).2.2.outbox.slot p)
        (o.outbox.slot (o.outbox.origin (o.lostPlaces next acked) p)) := by
  rcases fate_cases o.flights (Window.index next) acked with ⟨hfate, -⟩ | ⟨hfate, -⟩ | ⟨hfate, -⟩
  · obtain ⟨hsettle, hlost, -⟩ := settle_unsent hfate
    rw [hsettle, hlost]
    exact ⟨h, rfl, rfl, fun p => inherits_self _⟩
  · obtain ⟨hsettle, hlost, hsettled⟩ := settle_acknowledged hfate
    rw [hsettle, hlost, hsettled]
    have hreleased := released_carried h (Window.index next).toUInt8
    refine ⟨hreleased.ring, hreleased.nextId_eq, rfl, ?_⟩
    intro p
    show Inherits (Outbox.slot _ p) (o.outbox.slot p)
    rw [hreleased.slot_eq]
    split
    · exact inherits_released _
    · exact inherits_self _
  · obtain ⟨⟨-, hsettle⟩, hlost, -⟩ := settle_lost hfate
    rw [hsettle, hlost]
    have hrequeued := requeued_vital h (Window.index next)
    have hreleased := released_plain h (Window.index next)
    refine ⟨hreleased.ring, hreleased.nextId_eq.trans hrequeued.nextId_eq, rfl, ?_⟩
    intro p
    have hback : Inherits ((o.outbox.requeue (o.vital (Window.index next))).2.slot p)
        (o.outbox.slot (o.outbox.origin (o.vital (Window.index next)) p)) := by
      rw [hrequeued.slot_eq]
      split
      · exact inherits_returned _
      · exact inherits_self _
    refine Inherits.trans ?_ hback
    rw [hreleased.slot_eq]
    split
    · exact inherits_released _
    · exact inherits_self _

theorem Held.settle_clears (h : o.Held acked) {m : Message}
    (hs : (o.settle next acked).2.2.outbox.slot p = .inFlight m (Window.index next).toUInt8) :
    m.critical = false := by
  obtain ⟨-, -, -, hinherits⟩ := settle_spec h.ring next acked
  have hbefore := (hinherits p).inFlight hs
  by_contra hc
  have hc : m.critical = true := Bool.of_not_eq_false hc
  obtain ⟨-, hsent, hacked⟩ := h.held hbefore hc
  rw [Window.has_tag] at hsent hacked
  obtain ⟨⟨-, hsettle⟩, hlost, -⟩ := settle_lost (fate_lost hsent hacked)
  rw [hlost] at hsettle hbefore
  have hvital := (mem_vital h.ring).mpr ⟨m, hbefore, hc⟩
  -- the slot was put back, so it is pending and not in flight
  rw [hsettle] at hs
  change Outbox.slot _ p = _ at hs
  rw [(released_plain h.ring _).slot_eq, (requeued_vital h.ring _).slot_eq, if_pos hvital,
    hbefore] at hs
  split at hs
  · cases hs
  · cases hs

theorem Held.settle (h : o.Held acked) (next : UInt32) : (o.settle next acked).2.2.Held acked := by
  obtain ⟨hring, -, hflights, hinherits⟩ := settle_spec h.ring next acked
  refine ⟨hring, ?_⟩
  intro p m packet hs hc
  obtain ⟨hlt, hsent, hacked⟩ := h.held ((hinherits p).inFlight hs) hc
  refine ⟨hlt, ?_, hacked⟩
  have hne : next.toNat % 32 ≠ packet.toNat := by
    intro e
    rw [Window.eq_tag e.symm] at hs
    rw [h.settle_clears hs] at hc
    cases hc
  rw [hflights, has_clear, hsent, Window.toNat_index, UInt8.toNat_toUInt32]
  simp only [Bool.true_and, Bool.not_eq_true', decide_eq_false_iff_not]
  omega

theorem settle_unsets (h : o.outbox.Ring) (next acked : UInt32) :
    Window.has (o.settle next acked).2.2.flights.sent next = false := by
  obtain ⟨-, -, hflights, -⟩ := settle_spec h next acked
  rw [hflights, has_clear, Window.toNat_index, Nat.mod_mod]
  simp

-- ---------------------------------------------------------------------------
-- Queueing and sending
-- ---------------------------------------------------------------------------

theorem Held.pushed {box : Outbox} {f after : Manifest} {number : Nat} {ms : List Message}
    (h : o.Held acked) (hpushed : Manifest.Pushed f after o.outbox box number ms) :
    ({ o with outbox := box } : Outgoing).Held acked := by
  refine ⟨hpushed.ring, ?_⟩
  intro p m packet hs hc
  rcases hpushed.slot_eq p with ⟨q, hslot, -⟩ | ⟨m', -, hslot, -⟩
  · exact h.held (hslot.symm.trans hs) hc
  · cases hslot.symm.trans hs

/-- The next packet takes a position that carries nothing critical. -/
theorem Held.launch {box : Outbox} {s : UInt32} {ms : List Message} (h : o.Held acked)
    (hclear : Window.has o.flights.sent s = false)
    (hdrained : Outbox.Drained o.outbox box (Window.index s).toUInt8 ms) (critical : Bool) :
    ({ outbox := box, flights := o.flights.launch s critical } : Outgoing).Held
      (acked &&& ~~~Window.bit (Window.index s)) := by
  refine ⟨hdrained.ring, ?_⟩
  intro p m packet hs hc
  show _ ∧ Window.has (o.flights.sent ||| _) _ = true ∧ _
  rw [Window.has_or, Window.has_and, Window.has_not, Window.has_bit, Window.toNat_index]
  rcases hdrained.inFlight hs with hbefore | ⟨-, rfl, -⟩
  · obtain ⟨hlt, hsent, hacked⟩ := h.held hbefore hc
    exact ⟨hlt, by rw [hsent, Bool.true_or], by rw [hacked, Bool.false_and]⟩
  · rw [Window.has_tag, hclear, UInt8.toNat_toUInt32, Window.toNat_tag]
    refine ⟨by omega, by simp, by simp⟩

end

end Outgoing

end Courier
