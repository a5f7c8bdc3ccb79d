import Courier.Proofs.Chronicle.Cargo
import Courier.Proofs.Dialogue.Acknowledgement
import Courier.Proofs.Intake

/-!
# What a side returns

A side returns what an intake of the messages in the packets it took in
returns (`Reachable.returns`), and all these are messages of payloads that the
other side queued. What the other side reports as delivered has been taken in
(`Reachable.confirmed_taken`).
-/

namespace Courier

def Delivery.payload (d : Delivery) : Payload :=
  { kind := d.kind, critical := d.critical, data := d.data }

namespace Chronicle

/-- What was returned is what an intake of the messages taken in returns. -/
structure Returns (c : Chronicle) : Prop where
  assembly_eq : c.channel.assembly = (Intake.takeAll c.intake).assembly
  deliveries_eq : c.deliveries = (Intake.takeAll c.intake).deliveries.map (·.1)

theorem Returns.step {c : Chronicle} (h : c.Returns) {a : Action}
    (hlength : ∀ r size now, a = .receive r size now →
      r.numbers.length = r.packet.messages.length) :
    (c.step a).Returns := by
  cases a with
  | settle =>
    obtain ⟨-, -, hassembly, -⟩ := c.channel.settle_spec
    exact ⟨hassembly.trans h.assembly_eq, h.deliveries_eq⟩
  | enqueue p =>
    simp only [Chronicle.step, Chronicle.enqueue, Channel.enqueue]
    split
    · exact ⟨h.assembly_eq, h.deliveries_eq⟩
    · exact ⟨h.assembly_eq, h.deliveries_eq⟩
  | build now => exact ⟨h.assembly_eq, h.deliveries_eq⟩
  | takeNotices => exact ⟨h.assembly_eq, h.deliveries_eq⟩
  | receive r size now =>
    show (c.receive r size now).Returns
    cases haccepted : (c.channel.arrivals.record r.sequence).1.accepted with
    | false =>
      obtain ⟨-, -, -, hassembly, -⟩ := c.channel.receive_refused r.packet size now haccepted
      rw [receive_refused haccepted]
      exact ⟨hassembly.trans h.assembly_eq, h.deliveries_eq⟩
    | true =>
      obtain ⟨-, -, -, hassembly, -⟩ := c.channel.receive_accepted r.packet size now haccepted
      have hmessages : r.cargo.map (·.1) = r.packet.messages := by
        rw [Dispatch.cargo, List.map_fst_zip]
        exact (hlength r size now rfl).ge
      have hintake : (c.accepted ++ [r]).flatMap Dispatch.cargo = c.intake ++ r.cargo := by
        rw [List.flatMap_append, List.flatMap_cons, List.flatMap_nil, List.append_nil]
        rfl
      obtain ⟨hfold, hdeliveries⟩ := (Intake.takeAll c.intake).foldl_take r.cargo
      rw [hmessages, ← h.assembly_eq] at hfold hdeliveries
      rw [receive_accepted haccepted]
      refine ⟨?_, ?_⟩
      · show (c.channel.receive r.packet size now).2.assembly =
          (Intake.takeAll ((c.accepted ++ [r]).flatMap Dispatch.cargo)).assembly
        rw [hassembly, hintake, Intake.takeAll, List.foldl_append]
        exact hfold.symm
      · show c.deliveries ++ _ =
          (Intake.takeAll ((c.accepted ++ [r]).flatMap Dispatch.cargo)).deliveries.map _
        rw [hintake, Intake.takeAll, List.foldl_append, h.deliveries_eq]
        exact hdeliveries.symm

theorem Intact.settled_plain {c : Chronicle} (hi : c.Intact) {x : Nat × Envelope}
    (hx : x ∈ c.confirmations (c.channel.outgoing.settledPlaces c.channel.departures.upcoming
      c.channel.departures.acked)) : x.2.critical = false := by
  obtain ⟨i, hmem, m, packet, hs, rfl⟩ := mem_confirmations.mp hx
  have hring := hi.held.ring
  rcases Outgoing.fate_cases c.channel.outgoing.flights (Window.index c.channel.departures.upcoming)
    c.channel.departures.acked with ⟨hfate, -⟩ | ⟨hfate, -, hacked⟩ | ⟨hfate, -⟩
  · obtain ⟨-, -, hsettled⟩ := Outgoing.settle_unsent hfate
    rw [hsettled] at hmem
    cases hmem
  · obtain ⟨-, -, hsettled⟩ := Outgoing.settle_acknowledged hfate
    rw [hsettled, hring.mem_carried] at hmem
    obtain ⟨m', hm'⟩ := hmem
    have hslot := hs.symm.trans hm'
    rw [Slot.inFlight.injEq] at hslot
    obtain ⟨rfl, rfl⟩ := hslot
    by_contra hc
    obtain ⟨-, -, hnot⟩ := hi.held.held hs (Bool.of_not_eq_false hc)
    rw [Window.has_tag, ← Window.has_index, hacked] at hnot
    cases hnot
  · obtain ⟨-, -, hsettled⟩ := Outgoing.settle_lost hfate
    rw [hsettled] at hmem
    cases hmem

end Chronicle

namespace Channel

theorem newly_reported {c : Channel} {h : Header} {now : Time} {i : UInt32}
    (hi : Window.has (c.newly now h) i = true) :
    (c.departures.sequence - h.ack).toNat < 32 ∧
      Window.has (c.departures.reported h.ack h.ackBits) i = true := by
  obtain ⟨-, hcases⟩ := c.departures.acknowledge_cases h.ack h.ackBits now
  unfold newly at hi
  rcases hcases with ⟨houtcome | houtcome, -⟩ | ⟨houtcome, -⟩ | ⟨houtcome, hgap, -⟩
  · rw [houtcome, Window.has_zero] at hi
    cases hi
  · rw [houtcome, Window.has_zero] at hi
    cases hi
  · rw [houtcome, Window.has_zero] at hi
    cases hi
  · rw [houtcome, Window.has_and, Bool.and_eq_true] at hi
    exact ⟨hgap, hi.1⟩

end Channel

namespace Dialogue

section
variable {rule : Chronicle → Action → Prop} {d : Dialogue} {r : Dispatch}

theorem Reachable.returns (h : d.Reachable Chronicle.Orderly) : d.left.Returns := by
  induction h with
  | start leftPeer rightPeer leftNow rightNow => exact ⟨rfl, rfl⟩
  | @left d a hreach _ hgenuine ih =>
    refine ih.step ?_
    rintro r size now rfl
    exact hreach.right_reachable.labelled.length_numbers r hgenuine
  | right _ _ _ ih => exact ih

theorem Reachable.intake_belongs (h : d.Reachable Chronicle.Orderly) :
    ∀ x ∈ d.left.intake, Payload.Belongs d.right.payloads x := by
  intro x hx
  obtain ⟨r, hr, hx⟩ := List.mem_flatMap.mp hx
  exact h.right_reachable.labelled.cargo r (h.accepted_subset hr) x hx

/-- A packet that the other side heard of was taken in there. -/
theorem Reachable.accepted_of_heard (h : d.Reachable rule) (hcount : d.left.sent.length ≤ 2 ^ 30)
    (hr : r ∈ d.right.sent) {k : Nat} (hk : k < d.left.sent.length)
    (hheard : UInt32.ofNat k ∈ r.heard) : d.left.sent[k] ∈ d.right.accepted := by
  have hsize : UInt32.size = 2 ^ 32 := rfl
  obtain ⟨q, hq, hsequence⟩ := List.mem_map.mp (h.right_reachable.reports.heard_subset r hr hheard)
  obtain ⟨j, hj, rfl, hj'⟩ := h.exists_sent (h.swap.accepted_subset hq)
  have hjk := congrArg UInt32.toNat (hj'.symm.trans hsequence)
  rw [UInt32.toNat_ofNat_of_lt' (by omega), UInt32.toNat_ofNat_of_lt' (by omega)] at hjk
  subst hjk
  exact hq

/-- A critical message that a packet confirms was sent in a packet which the
other side had taken in. -/
theorem Reachable.confirms_accepted (h : d.Reachable Chronicle.Orderly)
    (hcount : d.left.sent.length ≤ 2 ^ 30) (hr : r ∈ d.right.sent) {now : Time} {i : Place}
    {m : Message} {packet : UInt8}
    (hi : i ∈ d.left.channel.outgoing.confirmedPlaces (d.left.channel.newly now r.packet.header))
    (hs : d.left.outbox.slot i = .inFlight m packet) (hc : m.critical = true) :
    ∃ k, ∃ hk : k < d.left.sent.length, d.left.sent.length ≤ k + 32 ∧ k % 32 = packet.toNat ∧
      (m, d.left.manifest i) ∈ d.left.sent[k].cargo ∧ d.left.sent[k] ∈ d.right.accepted := by
  have hring := h.left_reachable.intact.held.ring
  obtain ⟨m', packet', hs', hlt, hnewly, -⟩ := (Outgoing.mem_confirmedPlaces hring).mp hi
  have hslot := hs.symm.trans hs'
  rw [Slot.inFlight.injEq] at hslot
  obtain ⟨rfl, rfl⟩ := hslot
  obtain ⟨k, hk, hrecent, hposition, hcargo⟩ := h.left_reachable.labelled.aboard i m packet hs hc
  obtain ⟨hgap, hreported⟩ := Channel.newly_reported hnewly
  have hsame : packet.toUInt32.toNat % 32 = (UInt32.ofNat k).toNat % 32 := by
    rw [UInt8.toNat_toUInt32, UInt32.toNat_ofNat']
    omega
  rw [Window.has_congr hsame, h.reported_iff hcount hr hgap hk hrecent] at hreported
  exact ⟨k, hk, hrecent, hposition, hcargo, h.accepted_of_heard hcount hr hk hreported⟩

theorem Reachable.confirms_taken (h : d.Reachable Chronicle.Orderly)
    (hcount : d.left.sent.length ≤ 2 ^ 30) (hr : r ∈ d.right.sent) {now : Time} {x : Nat × Envelope}
    (hx : x ∈ d.left.confirmations
      (d.left.channel.outgoing.confirmedPlaces (d.left.channel.newly now r.packet.header)))
    (hc : x.2.critical = true) : ∃ m, (m, x.1) ∈ d.right.intake ∧ m.envelope = x.2 := by
  obtain ⟨i, hmem, m, packet, hs, rfl⟩ := Chronicle.mem_confirmations.mp hx
  obtain ⟨k, hk, -, -, hcargo, haccepted⟩ := h.confirms_accepted hcount hr hmem hs hc
  exact ⟨m, List.mem_flatMap.mpr ⟨_, haccepted, hcargo⟩, rfl⟩

theorem intake_subset_step (c : Chronicle) (a : Action) : c.intake ⊆ (c.step a).intake := by
  intro x hx
  obtain ⟨r, hr, hx⟩ := List.mem_flatMap.mp hx
  exact List.mem_flatMap.mpr ⟨r, (c.accepted_prefix_step a).subset hr, hx⟩

/-- Every critical message reported as delivered was taken in by the other side. -/
theorem Reachable.confirmed_taken (h : d.Reachable Chronicle.Orderly)
    (hcount : d.left.sent.length ≤ 2 ^ 30) :
    ∀ x ∈ d.left.confirmed, x.2.critical = true →
    ∃ m, (m, x.1) ∈ d.right.intake ∧ m.envelope = x.2 := by
  induction h with
  | start leftPeer rightPeer leftNow rightNow => exact fun x hx => nomatch hx
  | @left d a hreach hrule hgenuine ih =>
    have hbefore : d.left.sent.length ≤ 2 ^ 30 :=
      Nat.le_trans (d.left.sent_prefix_step a).length_le hcount
    have ih := ih hbefore
    intro x hx hc
    cases a with
    | settle =>
      rcases List.mem_append.mp hx with hx | hx
      · exact ih x hx hc
      · rw [hreach.left_reachable.intact.settled_plain hx] at hc
        cases hc
    | enqueue p =>
      refine ih x ?_ hc
      rcases hreach.left_reachable.intact.enqueue_cases p with hsame | ⟨hqueue, -⟩
      · change x ∈ (d.left.enqueue p).confirmed at hx
        rwa [hsame] at hx
      · change x ∈ (d.left.enqueue p).confirmed at hx
        rwa [hqueue] at hx
    | build now => exact ih x hx hc
    | receive r size now =>
      change x ∈ (d.left.receive r size now).confirmed at hx
      cases haccepted : (d.left.channel.arrivals.record r.sequence).1.accepted with
      | false =>
        rw [Chronicle.receive_refused haccepted] at hx
        exact ih x hx hc
      | true =>
        rw [Chronicle.receive_accepted haccepted] at hx
        rcases List.mem_append.mp hx with hx | hx
        · exact ih x hx hc
        · exact hreach.confirms_taken hbefore hgenuine hx hc
    | takeNotices => exact ih x hx hc
  | @right d a hreach _ _ ih =>
    intro x hx hc
    obtain ⟨m, hm, henvelope⟩ := ih hcount x hx hc
    exact ⟨m, intake_subset_step _ _ hm, henvelope⟩

end

end Dialogue

end Courier
