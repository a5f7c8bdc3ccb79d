import Courier.Proofs.Driven
import Courier.Proofs.Outgoing.Disposal

/-!
# One slot stays spare

Only queueing looks at the number of pending slots, but a packet that is lost
puts its critical messages back as well. If payloads are queued only while the
channel is settled, there is room for them: they stand outside of the pending
slots, and so does what the last packet took (`one_slot_spare`). If payloads are
queued before the channel is settled again, the ring can fill up, and is full
until the next packet is built (`full_only_settled`).
-/

namespace Courier

namespace Outbox

section
variable {box after : Outbox} {packet q : UInt8}

def vitalCount (box : Outbox) (packet : UInt8) : Nat :=
  (box.load packet).countP fun m => m.critical = true

theorem vitalCount_mono (h : after.load packet ≤ box.load packet) :
    after.vitalCount packet ≤ box.vitalCount packet :=
  Multiset.countP_le_of_le _ h

theorem load_drainUpTo (box : Outbox) (limit capacity : Nat) (packet q : UInt8) :
    (box.drainUpTo limit capacity packet).2.load q =
      box.load q + if packet = q then ((box.drainUpTo limit capacity packet).1 : Multiset Message)
        else 0 := by
  induction limit generalizing box capacity with
  | zero =>
    simp [drainUpTo]
  | succ limit ih =>
    simp only [drainUpTo]
    split
    · simp
    next m box' hone =>
      obtain ⟨-, hs, -, rfl⟩ := drainOne_some_iff.mp hone
      have hdrained : (box.drained m packet).load q = box.load q + if packet = q then {m} else 0 :=
        (add_zero _).symm.trans (total_drained (f := Slot.load q) hs packet)
      rw [ih, hdrained, add_assoc]
      split
      · rfl
      · rfl

/-- Two packets carry different slots. -/
theorem card_load_add_le (box : Outbox) (hne : packet ≠ q) :
    (box.load packet).card + (box.load q).card ≤ box.inFlightCount := by
  rw [inFlightCount_eq, load, load, Multiset.card_sum, Multiset.card_sum, ← Finset.sum_add_distrib]
  refine Finset.sum_le_sum fun p _ => ?_
  cases hs : box.slot p with
  | inFlight m r =>
    by_cases hr : r = packet
    · have hother : r ≠ q := fun e => hne (hr.symm.trans e)
      simp [Slot.load, hr, hne, Slot.isInFlight]
    · simp only [Slot.load, if_neg hr, Multiset.card_zero]
      split
      · rfl
      · exact Nat.zero_le _
  | _ => exact Nat.zero_le _

/-- The oldest pending message always fits an empty packet. -/
theorem Ring.drain_pos (h : box.Ring) (hfits : box.Fits) (hl : 0 < box.length) :
    0 < (box.drain Packet.capacity packet).1.length := by
  obtain ⟨m, hm⟩ := (h.pending_iff box.start).mpr (by rwa [Place.offset_eq_zero.mpr rfl])
  have hsize := hfits m ⟨box.start, by rw [hm]; rfl⟩
  have hone : box.drainOne Packet.capacity packet = some (m, box.drained m packet) := by
    refine drainOne_some_iff.mpr ⟨by omega, hm, ?_, rfl⟩
    simp only [Message.wireSize, Message.maxData, Message.headerSize, Packet.capacity,
      Packet.maxSize, Packet.headerSize] at *
    omega
  obtain ⟨n, hn⟩ := Nat.exists_eq_succ_of_ne_zero (Nat.ne_of_gt hl)
  rw [drain, hn]
  simp only [Outbox.drainUpTo, hone]
  exact Nat.succ_pos _

end

end Outbox

namespace Outgoing

section
variable {o : Outgoing} {next acked : UInt32} {packet : UInt8}

theorem load_releaseAll_le (box : Outbox) (places : List Place) (packet : UInt8) :
    (box.releaseAll places).2.load packet ≤ box.load packet :=
  Outbox.total_releaseAll_le (f := Slot.load packet) rfl box places

theorem load_settle_le (o : Outgoing) (next acked : UInt32) (packet : UInt8) :
    (o.settle next acked).2.2.outbox.load packet ≤ o.outbox.load packet := by
  simp only [settle]
  split
  · exact le_refl _
  · exact load_releaseAll_le _ _ packet
  · exact (load_releaseAll_le _ _ packet).trans
      (Outbox.total_requeue_le (f := Slot.load packet) (fun _ => rfl) _ _)

theorem length_messagesAt_vital_le (h : o.outbox.Ring) (index : UInt32) :
    (o.outbox.messagesAt (o.vital index)).length ≤ o.outbox.vitalCount index.toUInt8 := by
  have hall : (o.outbox.messagesAt (o.vital index)).countP (fun m => m.critical = true) =
      (o.outbox.messagesAt (o.vital index)).length :=
    List.countP_eq_length.mpr fun m hm => decide_eq_true (critical_of_mem_vital h hm)
  rw [Outbox.vitalCount, load_sorted h, Multiset.coe_countP, List.countP_append, List.countP_append,
    hall, Nat.add_assoc]
  exact Nat.le_add_right _ _

/-- What settling puts back was critical and in flight in the packet. -/
theorem length_settle_le (h : o.outbox.Ring) (next acked : UInt32) :
    (o.settle next acked).2.2.outbox.length ≤
      o.outbox.length + o.outbox.vitalCount (Window.index next).toUInt8 := by
  rcases fate_cases o.flights (Window.index next) acked with ⟨hfate, -⟩ | ⟨hfate, -⟩ | ⟨hfate, -⟩
  · rw [(settle_unsent hfate).1]
    exact Nat.le_add_right _ _
  · rw [(settle_acknowledged hfate).1, (settle_acknowledged hfate).2.2]
    exact (released_carried h _).length_eq.trans_le (Nat.le_add_right _ _)
  · have hring := (released_plain h (Window.index next)).ring
    have hpending := pending_of_lost h (Window.index next)
    have hvital := length_messagesAt_vital_le h (Window.index next)
    rw [(settle_lost hfate).1.2, (settle_lost hfate).2.1]
    show Outbox.length ((o.outbox.requeue (o.vital (Window.index next))).2.releaseAll _).2 ≤ _
    rw [← hring.length_pending, hpending, List.length_append, h.length_pending, Nat.add_comm]
    exact Nat.add_le_add_left hvital _

theorem Held.vitalCount_eq_zero (h : o.Held acked)
    (hunsent : Window.has o.flights.sent next = false) :
    o.outbox.vitalCount (Window.index next).toUInt8 = 0 := by
  rw [Outbox.vitalCount, h.ring.load_eq, Multiset.coe_countP, List.countP_eq_zero]
  intro m hm
  obtain ⟨p, hp, hmessage⟩ := List.mem_filterMap.mp hm
  obtain ⟨m', hslot⟩ := h.ring.mem_carried.mp hp
  rw [hslot] at hmessage
  obtain rfl : m' = m := Option.some.inj hmessage
  intro hc
  obtain ⟨-, hsent, -⟩ := h.held hslot (of_decide_eq_true hc)
  rw [Window.has_tag, hunsent] at hsent
  cases hsent

end

end Outgoing

namespace Chronicle

/-- Payloads are queued and packets built only while the channel is settled. -/
def Prompt (c : Chronicle) : Action → Prop
  | .enqueue _ | .build _ => c.settled = true
  | _ => True

instance (c : Chronicle) (a : Action) : Decidable (c.Prompt a) :=
  match a with
  | .enqueue _ | .build _ => inferInstanceAs (Decidable (_ = _))
  | .settle | .receive .. | .takeNotices => .isTrue trivial

/-- How many messages can still come back before the next packet is built. -/
def outstanding (c : Chronicle) : Nat :=
  if c.settled then 0 else c.outbox.vitalCount (Window.index c.channel.departures.upcoming).toUInt8

/-- There is room for all that can come back, now and later. -/
structure Spared (c : Chronicle) : Prop where
  few : ∀ packet, c.outbox.vitalCount packet ≤ 31
  room : c.outbox.length + c.outstanding ≤ 31

section
variable {c : Chronicle}

theorem spared_start (peer : Address) (now : Time) : (start peer now).Spared where
  few packet := by
    have hempty : Outbox.load {} packet = 0 :=
      Finset.sum_eq_zero fun p _ => by simp [Outbox.slot, Slot.load]
    show Outbox.vitalCount {} packet ≤ 31
    rw [Outbox.vitalCount, hempty]
    exact Nat.zero_le _
  room := Nat.zero_le _

theorem Spared.settle (h : c.Spared) (hi : c.Intact) : c.settle.Spared := by
  have houtstanding : c.settle.outstanding = 0 := rfl
  refine ⟨fun packet => ?_, ?_⟩
  · rw [outbox, outgoing_settle]
    exact (Outbox.vitalCount_mono (Outgoing.load_settle_le _ _ _ packet)).trans (h.few packet)
  · have hroom := h.room
    have hle :=
      Outgoing.length_settle_le hi.held.ring c.channel.departures.upcoming
        c.channel.departures.acked
    rw [houtstanding, outbox, outgoing_settle]
    cases hsettled : c.settled with
    | false =>
      rw [outstanding, hsettled] at hroom
      exact hle.trans hroom
    | true =>
      have hzero := hi.held.vitalCount_eq_zero (hi.clear hsettled)
      rw [hzero] at hle
      exact hle.trans (Nat.le_of_add_right_le hroom)

theorem Intact.length_enqueue (hi : c.Intact) (hroom : c.outbox.length ≤ 31) (p : Payload) :
    (c.enqueue p).outbox.length ≤ 31 := by
  rcases hi.enqueue_cases p with hsame | ⟨hqueue, hok, hfits⟩
  · rw [hsame]
    exact hroom
  · have hpieces : (p.pieces c.payloads.length).length = Outbox.messagesNeeded p.data.length :=
      Outbox.length_pieces ..
    rw [hqueue, (hi.pushed p hok).length_eq, hpieces]
    exact Nat.le_of_lt_succ hfits

theorem Intact.length_build (hi : c.Intact) (hfits : c.outbox.Fits) (hpos : 0 < c.outbox.length)
    (now : Time) : 0 < (c.channel.build now).1.messages.length := by
  have hring : c.outbox.Ring := hi.held.ring
  exact hring.drain_pos hfits hpos

theorem Spared.enqueue (h : c.Spared) (hi : c.Intact) (hsettled : c.settled = true) (p : Payload) :
    (c.enqueue p).Spared := by
  refine ⟨fun packet => ?_, ?_⟩
  · rw [outbox, channel_enqueue]
    exact (Outbox.vitalCount_mono
      (Outbox.total_enqueue_le (f := Slot.load packet) (fun _ => rfl) _ _ _ _ _)).trans
      (h.few packet)
  · have houtstanding : (c.enqueue p).outstanding = 0 :=
      if_pos ((c.settled_enqueue p).trans hsettled)
    rw [houtstanding]
    exact hi.length_enqueue (Nat.le_of_add_right_le h.room) p

theorem tag_ne_tag_succ (s : UInt32) :
    (Window.index s).toUInt8 ≠ (Window.index (s + 1)).toUInt8 := by
  intro htag
  have hsame := congrArg UInt8.toNat htag
  rw [Window.toNat_tag, Window.toNat_tag, UInt32.toNat_add] at hsame
  have hone : (1 : UInt32).toNat = 1 := rfl
  omega

theorem load_build (c : Chronicle) (now : Time) (packet : UInt8) :
    (c.build now).outbox.load packet =
      c.outbox.load packet + if (Window.index c.channel.departures.upcoming).toUInt8 = packet then
        ((c.channel.build now).1.messages : Multiset Message) else 0 :=
  c.outbox.load_drainUpTo _ _ _ packet

/-- What a packet takes leaves the pending slots, and whatever another packet
carries lies outside of both. -/
theorem Spared.build (h : c.Spared) (hi : c.Intact) (hfits : c.outbox.Fits)
    (hsettled : c.settled = true) (now : Time) : (c.build now).Spared := by
  have hdrained := hi.drained now
  have hlength := hdrained.length_eq
  have hroom : c.outbox.length ≤ 31 := Nat.le_of_add_right_le h.room
  have hfew : ∀ packet, (c.build now).outbox.vitalCount packet ≤ 31 := by
    intro packet
    rw [Outbox.vitalCount, load_build]
    split
    next htag =>
      have hnone : c.outbox.vitalCount packet = 0 :=
        htag ▸ hi.held.vitalCount_eq_zero (hi.clear hsettled)
      have hall :
        ((c.channel.build now).1.messages : Multiset Message).countP (fun m => m.critical = true) ≤
          (c.channel.build now).1.messages.length := Multiset.countP_le_card _ _
      rw [Multiset.countP_add, ← Outbox.vitalCount, hnone]
      omega
    · rw [add_zero]
      exact h.few packet
  refine ⟨hfew, ?_⟩
  show (c.build now).outbox.length +
    (c.build now).outbox.vitalCount (Window.index (c.channel.departures.upcoming + 1)).toUInt8 ≤ 31
  rcases Nat.eq_zero_or_pos c.outbox.length with hempty | hpos
  · have hstill : (c.build now).outbox.length = 0 := by omega
    rw [hstill, Nat.zero_add]
    exact hfew _
  · have hsome := hi.length_build hfits hpos now
    have hshared := hdrained.ring.length_add_inFlightCount_le
    have hapart :=
      (c.build now).outbox.card_load_add_le (tag_ne_tag_succ c.channel.departures.upcoming)
    have hcritical := Multiset.countP_le_card (fun m : Message => m.critical = true)
      ((c.build now).outbox.load (Window.index (c.channel.departures.upcoming + 1)).toUInt8)
    have htaken : (c.channel.build now).1.messages.length ≤
        ((c.build now).outbox.load (Window.index c.channel.departures.upcoming).toUInt8).card := by
      rw [load_build, if_pos rfl, Multiset.card_add, Multiset.coe_card]
      exact Nat.le_add_left _ _
    rw [Outbox.vitalCount]
    omega

theorem Spared.receive (h : c.Spared) (hi : c.Intact) (r : Dispatch) (size : Nat) (now : Time) :
    (c.receive r size now).Spared := by
  obtain ⟨places, hconfirming⟩ := hi.confirming r size now
  have hload (packet : UInt8) :
      (c.receive r size now).outbox.vitalCount packet ≤ c.outbox.vitalCount packet := by
    rw [outbox, hconfirming.outgoing_eq]
    exact Outbox.vitalCount_mono (Outgoing.load_releaseAll_le _ _ packet)
  refine ⟨fun packet => (hload packet).trans (h.few packet), ?_⟩
  refine le_trans ?_ h.room
  rw [hconfirming.released.length_eq, outstanding, outstanding, hconfirming.settled_eq,
    upcoming_receive]
  split
  · exact le_refl _
  · exact Nat.add_le_add_left (hload _) _

theorem Spared.step {a : Action} (h : c.Spared) (hi : c.Intact) (hfits : c.outbox.Fits)
    (hrule : c.Prompt a) : (c.step a).Spared := by
  cases a with
  | settle => exact h.settle hi
  | enqueue p => exact h.enqueue hi hrule p
  | build now => exact h.build hi hfits hrule now
  | receive r size now => exact h.receive hi r size now
  | takeNotices => exact ⟨h.few, h.room⟩

/-- While a slot is spare a prompt channel is also an orderly one. -/
theorem Spared.orderly {a : Action} (h : c.Spared) (hrule : c.Prompt a) : c.Orderly a := by
  cases a with
  | enqueue p => exact Nat.lt_succ_of_le (Nat.le_of_add_right_le h.room)
  | build now => exact hrule
  | _ => trivial

theorem Reachable.spared (h : Reachable Prompt c) : Reachable Orderly c ∧ c.Spared := by
  induction h with
  | start peer now => exact ⟨.start peer now, spared_start peer now⟩
  | step _ hrule ih =>
    obtain ⟨hreach, hspared⟩ := ih
    exact ⟨hreach.step (hspared.orderly hrule), hspared.step hreach.intact hreach.driven.fits hrule⟩

-- ---------------------------------------------------------------------------
-- Queueing at any time
-- ---------------------------------------------------------------------------

/-- A slot is spare until the channel is settled. -/
def SpareUnsettled (c : Chronicle) : Prop := c.settled = false → c.outbox.length ≤ 31

theorem Reachable.spareUnsettled (h : Reachable Orderly c) : c.SpareUnsettled := by
  induction h with
  | start peer now => exact fun hnot => nomatch hnot
  | @step c a hreach hrule ih =>
    have hi := hreach.intact
    cases a with
    | settle => exact fun hnot => nomatch hnot
    | enqueue p => exact fun _ => hi.length_enqueue (Nat.le_of_lt_succ hrule) p
    | build now =>
      have hlength := (hi.drained now).length_eq
      have hle : c.outbox.length ≤ 32 := hi.held.ring.length_le
      show _ → (c.build now).outbox.length ≤ 31
      rcases Nat.eq_zero_or_pos c.outbox.length with hempty | hpos
      · omega
      · have hsome := hi.length_build hreach.driven.fits hpos now
        omega
    | receive r size now =>
      obtain ⟨places, hconfirming⟩ := hi.confirming r size now
      show (c.receive r size now).settled = false → (c.receive r size now).outbox.length ≤ 31
      rw [hconfirming.settled_eq, hconfirming.released.length_eq]
      exact ih
    | takeNotices => exact ih

/-- If payloads are queued at any time, all 32 slots can be pending. But they are
so only from settling to the next packet. -/
theorem full_only_settled (h : Reachable Orderly c) (hfull : c.outbox.length = 32) :
    c.settled = true ∧ c.outbox.next = c.outbox.start := by
  have hring : c.outbox.Ring := h.intact.held.ring
  refine ⟨?_, ?_⟩
  · by_contra hnot
    have hle := h.spareUnsettled (Bool.of_not_eq_true hnot)
    omega
  · rw [hring.next_eq, hfull, Place.forward_size]

/-- In every tick the channel is settled first, and payloads are queued before its
packet is built. Then at most 31 slots are ever pending, the slots left for new
messages and the pending ones are always 31, and the write position meets the
oldest pending message only if there is none. -/
theorem one_slot_spare (h : Reachable Prompt c) :
    c.outbox.length ≤ 31 ∧ c.outbox.pending.length = c.outbox.length ∧
      c.outbox.room + c.outbox.length = 31 ∧
      (c.outbox.next = c.outbox.start → c.outbox.length = 0) := by
  obtain ⟨horderly, hspared⟩ := h.spared
  have hring : c.outbox.Ring := horderly.intact.held.ring
  have hroom : c.outbox.length ≤ 31 := Nat.le_of_add_right_le hspared.room
  have hleft : c.outbox.room + c.outbox.length = 31 := by
    rw [Outbox.room_of_le hroom, Nat.sub_add_cancel hroom]
  refine ⟨hroom, hring.length_pending, hleft, fun hmeet => ?_⟩
  have hoffset := Place.offset_forward c.outbox.start (Nat.lt_succ_of_le hroom)
  rw [← hring.next_eq, hmeet, Place.offset_eq_zero.mpr rfl] at hoffset
  exact hoffset.symm

end

def unheardWindow (early late : List Payload) : List Action :=
  .settle :: early.map .enqueue ++ .build 0 :: (List.replicate 31 [.settle, .build 0]).flatten ++
    late.map .enqueue ++ [.settle]

def allBack : Chronicle :=
  (unheardWindow (List.replicate 31 ⟨.data, true, [7]⟩) []).foldl step
    (start { ip := .v4 0, port := Packet.defaultPort } 0)

theorem one_slot_spare_allBack :
    Reachable Prompt allBack ∧ allBack.outbox.pending.length = 31 ∧ allBack.outbox.room = 0 := by
  have h : Reachable Prompt allBack := .run (.start _ _) (by decide +kernel)
  have hback : allBack.outbox.length = 31 := by decide +kernel
  obtain ⟨-, hpending, hroom, -⟩ := one_slot_spare h
  rw [hback] at hpending hroom
  exact ⟨h, hpending, Nat.add_right_cancel (hroom.trans (Nat.zero_add 31).symm)⟩

/-- One critical message comes back after 31 others were queued too early. -/
theorem no_slot_spare :
    let c := (unheardWindow [⟨.data, true, [7]⟩] (List.replicate 31 ⟨.data, false, [8]⟩)).foldl step
      (start { ip := .v4 0, port := Packet.defaultPort } 0)
    Reachable Orderly c ∧ c.outbox.length = 32 ∧ c.outbox.next = c.outbox.start := by
  refine ⟨.run (.start _ _) (by decide +kernel), ?_⟩
  decide +kernel

end Chronicle

end Courier
