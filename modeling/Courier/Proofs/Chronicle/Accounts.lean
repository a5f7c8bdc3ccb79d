import Courier.Proofs.Chronicle.Conservation
import Courier.Proofs.Outbox.Totals
import Courier.Proofs.Outgoing.Awaiting
import Courier.Proofs.Outgoing.Disposal

/-!
# The counters agree with the notices

`Accounts` says of one operation that counters grow by what its notices report,
and that a message which is delivered, requeued or dropped was in flight. The
one place that frees messages and does not count them finds none (`Awaiting`).
So over a whole history counters and notices agree, and no transmission of a
message is counted twice (`messages_accounted`).
-/

namespace Courier

namespace Notice

@[simp] def isLost : Notice → Bool
  | .lost .. => true
  | _ => false

@[simp] def isDelivered : Notice → Bool
  | .delivered _ => true
  | _ => false

@[simp] def isRequeued : Notice → Bool
  | .requeued _ => true
  | _ => false

@[simp] def isDropped : Notice → Bool
  | .dropped _ => true
  | _ => false

end Notice

@[ext] structure Tally where
  lost : Nat := 0
  delivered : Nat := 0
  requeued : Nat := 0
  dropped : Nat := 0

namespace Tally

instance : Add Tally :=
  ⟨fun t u =>
    ⟨t.lost + u.lost, t.delivered + u.delivered, t.requeued + u.requeued, t.dropped + u.dropped⟩⟩

/-- The messages that are no longer in flight. -/
def resolved (t : Tally) : Nat := t.delivered + t.requeued + t.dropped

theorem add_assoc (t u v : Tally) : t + u + v = t + (u + v) :=
  Tally.ext (Nat.add_assoc ..) (Nat.add_assoc ..) (Nat.add_assoc ..) (Nat.add_assoc ..)

theorem resolved_add (t u : Tally) : (t + u).resolved = t.resolved + u.resolved := by
  show t.delivered + u.delivered + (t.requeued + u.requeued) + (t.dropped + u.dropped) = _
  simp only [resolved]
  omega

end Tally

def tallyOf (notices : List Notice) : Tally where
  lost := notices.countP Notice.isLost
  delivered := notices.countP Notice.isDelivered
  requeued := notices.countP Notice.isRequeued
  dropped := notices.countP Notice.isDropped

def Traffic.tally (t : Traffic) : Tally where
  lost := t.packetsLost
  delivered := t.messagesDelivered
  requeued := t.messagesRequeued
  dropped := t.messagesDropped

def Loss.tally (loss : Loss) : Tally where
  lost := 1
  requeued := loss.requeued
  dropped := loss.dropped

theorem tallyOf_append (first second : List Notice) :
    tallyOf (first ++ second) = tallyOf first + tallyOf second :=
  Tally.ext List.countP_append List.countP_append List.countP_append List.countP_append

theorem tallyOf_delivered (ms : List Message) :
    tallyOf (ms.map fun m => .delivered m.envelope) = { delivered := ms.length } := by
  simp [tallyOf, Function.comp_def]

theorem tallyOf_lost (sequence : UInt32) (critical : Bool) (again gone : List Message) :
    tallyOf (.lost sequence critical :: again.map (fun m => .requeued m.envelope) ++
        gone.map fun m => .dropped m.envelope) =
      { lost := 1, requeued := again.length, dropped := gone.length } := by
  simp [tallyOf, Function.comp_def, List.countP_cons]

namespace Outgoing

section
variable {o : Outgoing} {next acked : UInt32}

theorem confirm_accounts (h : o.outbox.Ring) (newly : UInt32) :
    tallyOf (o.confirm newly).1 = { delivered := (o.confirm newly).1.length } ∧
      (o.confirm newly).2.outbox.inFlightCount + (o.confirm newly).1.length =
        o.outbox.inFlightCount := by
  rw [confirm_eq h, tallyOf_delivered, List.length_map]
  exact ⟨rfl, o.outbox.inFlightCount_releaseAll _⟩

theorem lose_accounts (h : o.outbox.Ring) (sequence index : UInt32) (critical : Bool) :
    tallyOf (o.lose sequence index critical).2.1 = (o.lose sequence index critical).1.tally ∧
      (o.lose sequence index critical).2.2.outbox.inFlightCount +
        (o.lose sequence index critical).1.tally.resolved = o.outbox.inFlightCount := by
  have hrequeued := o.outbox.inFlightCount_requeue (o.vital index)
  have hgone := (o.outbox.requeue (o.vital index)).2.inFlightCount_releaseAll (o.plain index)
  refine ⟨?_, ?_⟩
  · refine (tallyOf_lost sequence critical (o.outbox.messagesAt (o.vital index)) _).trans ?_
    rw [length_messagesAt_vital h]
    rfl
  · show Outbox.inFlightCount ((o.outbox.requeue (o.vital index)).2.releaseAll (o.plain index)).2 +
      (0 + (o.outbox.requeue (o.vital index)).1 +
        ((o.outbox.requeue (o.vital index)).2.releaseAll (o.plain index)).1.length) = _
    omega

/-- What settling reports is what it counts, and what it takes out of flight. -/
theorem settle_accounts (h : o.outbox.Ring) (hawaiting : o.Awaiting acked) (next : UInt32) :
    tallyOf (o.settle next acked).2.1 = (o.settle next acked).1.elim {} Loss.tally ∧
      (o.settle next acked).2.2.outbox.inFlightCount +
        (tallyOf (o.settle next acked).2.1).resolved =
        o.outbox.inFlightCount := by
  rcases fate_cases o.flights (Window.index next) acked with ⟨hfate, -⟩ | ⟨hfate, hsent, hacked⟩
    | ⟨hfate, -⟩
  · rw [(settle_unsent hfate).1]
    exact ⟨rfl, rfl⟩
  · obtain ⟨hsettle, -, hsettled⟩ := settle_acknowledged hfate
    rw [Window.has_index] at hsent hacked
    rw [hsettle, hsettled, hawaiting.carried_eq_nil h hsent hacked]
    exact ⟨rfl, rfl⟩
  · let cleared : Outgoing := { o with flights := o.flights.clear (Window.index next) }
    have hring : cleared.outbox.Ring := h
    obtain ⟨htally, hcount⟩ := lose_accounts hring (next - 32) (Window.index next)
      (o.flights.fate (Window.index next) acked == .sentCritical)
    have hsettle : o.settle next acked =
        let lost := cleared.lose (next - 32) (Window.index next)
          (o.flights.fate (Window.index next) acked == .sentCritical)
        (some lost.1, lost.2) := by
      rcases hfate with hfate | hfate
      · simp only [settle, hfate, cleared]
      · simp only [settle, hfate, cleared]
    rw [hsettle]
    exact ⟨htally, htally ▸ hcount⟩

end

end Outgoing

namespace Channel

section
variable {c : Channel}

/-- The counters grew by what the notices `new` report, and what was reported was
in flight or was sent since. -/
structure Accounts (before after : Channel) (new : List Notice) : Prop where
  notices_eq : after.notices = before.notices ++ new
  tally_eq : after.traffic.tally = before.traffic.tally + tallyOf new
  balance : after.outbox.inFlightCount + (tallyOf new).resolved + before.traffic.messagesSent ≤
    before.outbox.inFlightCount + after.traffic.messagesSent

theorem Accounts.unchanged {after : Channel} {new : List Notice}
    (hnotices : after.notices = c.notices ++ new) (hnew : tallyOf new = {})
    (htally : after.traffic.tally = c.traffic.tally)
    (hsent : after.traffic.messagesSent = c.traffic.messagesSent) (hbox : after.outbox = c.outbox) :
    c.Accounts after new := by
  refine ⟨hnotices, ?_, ?_⟩
  · rw [htally, hnew]
    rfl
  · rw [hbox, hnew, hsent]
    exact Nat.le_refl _

theorem Accounts.trans {before middle after : Channel} {first second : List Notice}
    (h : before.Accounts middle first) (h' : middle.Accounts after second) :
    before.Accounts after (first ++ second) := by
  refine ⟨?_, ?_, ?_⟩
  · rw [h'.notices_eq, h.notices_eq, List.append_assoc]
  · rw [h'.tally_eq, h.tally_eq, tallyOf_append, Tally.add_assoc]
  · have hfirst := h.balance
    have hsecond := h'.balance
    rw [tallyOf_append, Tally.resolved_add]
    omega

theorem settle_accounts (h : c.outbox.Ring) (hawaiting : c.outgoing.Awaiting c.departures.acked) :
    ∃ new, c.Accounts c.settle.2 new := by
  obtain ⟨htally, hcount⟩ := Outgoing.settle_accounts h hawaiting c.departures.upcoming
  cases hsettle : c.outgoing.settle c.departures.upcoming c.departures.acked with
  | mk loss? rest =>
    obtain ⟨notices, outgoing⟩ := rest
    simp only [hsettle] at htally hcount
    refine ⟨notices, ?_⟩
    simp only [settle, hsettle]
    cases loss? with
    | none => exact ⟨rfl, by rw [htally]; rfl, Nat.le_of_eq (congrArg (· + _) hcount)⟩
    | some loss => exact ⟨rfl, by rw [htally]; rfl, Nat.le_of_eq (congrArg (· + _) hcount)⟩

theorem acknowledge_accounts (h : c.outbox.Ring) (header : Header) (now : Time) :
    ∃ new, c.Accounts (c.acknowledge header now) new := by
  simp only [acknowledge]
  cases (c.departures.acknowledge header.ack header.ackBits now).1 with
  | applied newly =>
    obtain ⟨htally, hcount⟩ := Outgoing.confirm_accounts h newly
    refine ⟨(c.outgoing.confirm newly).1, rfl, by rw [htally]; rfl, ?_⟩
    rw [htally]
    exact Nat.le_of_eq (congrArg (· + _) hcount)
  | desync gap => exact ⟨[.resync (.ackDesync gap)], .unchanged rfl rfl rfl rfl rfl⟩
  | ahead => exact ⟨[.resync (.ackAhead header.ack _)], .unchanged rfl rfl rfl rfl rfl⟩
  | stale => exact ⟨[], .unchanged (List.append_nil _).symm rfl rfl rfl rfl⟩

theorem take_accounts (h : c.outbox.Ring) (p : Packet) (size : Nat) (now : Time) :
    ∃ new, c.Accounts (c.take p size now).2 new := by
  obtain ⟨new, hnotices, htally, hbalance⟩ := acknowledge_accounts (c := ({ c with
    traffic := { c.traffic with
      packetsReceived := c.traffic.packetsReceived + 1
      bytesReceived := c.traffic.bytesReceived + size } } : Channel).touch now) h p.header now
  exact ⟨new, hnotices, htally, hbalance⟩

theorem receive_accounts (h : c.outbox.Ring) (p : Packet) (size : Nat) (now : Time) :
    ∃ new, c.Accounts (c.receive p size now).2 new := by
  let recorded : Channel := { c with arrivals := (c.arrivals.record p.header.sequence).2 }
  have hrecorded : c.Accounts recorded [] := .unchanged (List.append_nil _).symm rfl rfl rfl rfl
  have hring : recorded.outbox.Ring := h
  simp only [receive]
  cases (c.arrivals.record p.header.sequence).1 with
  | duplicate => exact ⟨[], .unchanged (List.append_nil _).symm rfl rfl rfl rfl⟩
  | stale => exact ⟨[], .unchanged (List.append_nil _).symm rfl rfl rfl rfl⟩
  | resync gap =>
    have hnoted :
        recorded.Accounts (recorded.note [.resync (.receiveGap gap)]) [.resync (.receiveGap gap)] :=
      .unchanged rfl rfl rfl rfl rfl
    obtain ⟨new, htaken⟩ :=
      take_accounts (c := recorded.note [.resync (.receiveGap gap)]) hring p size now
    exact ⟨_, (hrecorded.trans hnoted).trans htaken⟩
  | fresh =>
    obtain ⟨new, htaken⟩ := take_accounts hring p size now
    exact ⟨_, hrecorded.trans htaken⟩
  | late =>
    obtain ⟨new, htaken⟩ := take_accounts hring p size now
    exact ⟨_, hrecorded.trans htaken⟩

theorem enqueue_accounts (c : Channel) (kind : Kind) (critical : Bool) (payload : Bytes) :
    c.Accounts (c.enqueue kind critical payload).2 [] :=
  ⟨(List.append_nil _).symm, rfl,
    Nat.add_le_add_right (c.outbox.inFlightCount_enqueue kind critical payload c.departures.acked)
      _⟩

theorem build_accounts (c : Channel) (now : Time) : c.Accounts (c.build now).2 [] := by
  refine ⟨(List.append_nil _).symm, rfl, ?_⟩
  show (c.outbox.drain _ _).2.inFlightCount + 0 + _ ≤
    c.outbox.inFlightCount + (_ + (c.outbox.drain _ _).1.length)
  rw [Outbox.drain, Outbox.inFlightCount_drainUpTo]
  omega

end

end Channel

namespace Chronicle

section
variable {c c' : Chronicle}

theorem awaiting_receive (h : c.channel.outgoing.Awaiting c.channel.departures.acked)
    (hi : c.Intact) (r : Dispatch) (size : Nat) (now : Time) :
    (c.receive r size now).channel.outgoing.Awaiting
      (c.receive r size now).channel.departures.acked := by
  rw [channel_receive]
  cases haccepted : (c.channel.arrivals.record r.sequence).1.accepted with
  | false =>
    obtain ⟨-, hdepartures, -, -, houtgoing, -⟩ :=
      c.channel.receive_refused r.packet size now haccepted
    rw [houtgoing, hdepartures]
    exact h
  | true =>
    obtain ⟨-, hdepartures, -, -, houtgoing, -⟩ :=
      c.channel.receive_accepted r.packet size now haccepted
    rw [houtgoing, hdepartures]
    exact h.confirm hi.held.ring (c.channel.has_newly now _)

theorem awaiting_step (h : c.channel.outgoing.Awaiting c.channel.departures.acked) (hi : c.Intact)
    (a : Action) : (c.step a).channel.outgoing.Awaiting (c.step a).channel.departures.acked := by
  cases a with
  | settle =>
    show c.settle.channel.outgoing.Awaiting c.settle.channel.departures.acked
    rw [outgoing_settle, departures_settle]
    exact h.settle hi.held.ring _
  | enqueue p =>
    show (c.enqueue p).channel.outgoing.Awaiting (c.enqueue p).channel.departures.acked
    rcases hi.enqueue_cases p with hsame | ⟨hqueue, hok, -⟩
    · rw [hsame]
      exact h
    · rw [hqueue]
      exact Outgoing.Awaiting.pushed (o := { c.channel.outgoing with
        outbox := { c.outbox with nextId := c.outbox.nextId + 1 } }) h (hi.pushed p hok)
  | build now => exact h.launch (hi.drained now) _
  | receive r size now => exact awaiting_receive h hi r size now
  | takeNotices => exact h

theorem Reachable.awaiting (h : Reachable Orderly c) :
    c.channel.outgoing.Awaiting c.channel.departures.acked := by
  induction h with
  | start peer now => exact Outgoing.awaiting_empty _
  | step hreach _ ih => exact awaiting_step ih hreach.intact _

/-- The counters agree with the notices, and what was sent covers all that is
in flight or was. -/
structure Booked (c : Chronicle) : Prop where
  tally_eq : c.channel.traffic.tally = tallyOf c.notices
  resolved_le :
    c.channel.traffic.tally.resolved + c.outbox.inFlightCount ≤ c.channel.traffic.messagesSent

theorem Booked.accounts (h : c.Booked) {new : List Notice}
    (hnew : c.channel.Accounts c'.channel new) (htaken : c'.taken = c.taken) : c'.Booked := by
  have hnotices : c'.notices = c.notices ++ new := by
    rw [notices, notices, htaken, hnew.notices_eq, List.append_assoc]
  refine ⟨?_, ?_⟩
  · rw [hnew.tally_eq, h.tally_eq, hnotices, tallyOf_append]
  · have hle := h.resolved_le
    have hbalance := hnew.balance
    rw [hnew.tally_eq, Tally.resolved_add]
    show _ + c'.channel.outbox.inFlightCount ≤ _
    change _ + c.channel.outbox.inFlightCount ≤ _ at hle
    omega

theorem Booked.step (h : c.Booked) (hreach : Reachable Orderly c) (a : Action) :
    (c.step a).Booked := by
  have hring : c.channel.outbox.Ring := hreach.intact.held.ring
  cases a with
  | settle =>
    obtain ⟨new, hnew⟩ := Channel.settle_accounts hring hreach.awaiting
    exact h.accounts hnew rfl
  | enqueue p =>
    have hnew := c.channel.enqueue_accounts p.kind p.critical p.data
    rw [← channel_enqueue] at hnew
    exact h.accounts hnew (c.taken_enqueue p)
  | build now => exact h.accounts (c.channel.build_accounts now) rfl
  | receive r size now =>
    obtain ⟨new, hnew⟩ := Channel.receive_accounts hring r.packet size now
    rw [← channel_receive] at hnew
    exact h.accounts hnew (c.taken_receive r size now)
  | takeNotices =>
    have hnotices : c.takeNotices.notices = c.notices := List.append_nil _
    exact ⟨by rw [show (c.step .takeNotices).notices = _ from hnotices]; exact h.tally_eq,
      h.resolved_le⟩

theorem Reachable.booked (h : Reachable Orderly c) : c.Booked := by
  induction h with
  | start peer now => exact ⟨rfl, Nat.zero_le _⟩
  | step hreach _ ih => exact ih.step hreach _

/-- However an orderly used channel is driven, and whatever packets it takes in,
its counters are the numbers of the notices that it has given. Messages that were
delivered, requeued or dropped, and those in flight, are not more than were sent. -/
theorem messages_accounted (h : Reachable Orderly c) :
    let t := c.channel.traffic
    t.packetsLost = c.notices.countP Notice.isLost ∧
      t.messagesDelivered = c.notices.countP Notice.isDelivered ∧
      t.messagesRequeued = c.notices.countP Notice.isRequeued ∧
      t.messagesDropped = c.notices.countP Notice.isDropped ∧
      t.messagesDelivered + t.messagesRequeued + t.messagesDropped + c.outbox.inFlightCount ≤
        t.messagesSent := by
  have htally := h.booked.tally_eq
  exact ⟨congrArg Tally.lost htally, congrArg Tally.delivered htally,
    congrArg Tally.requeued htally, congrArg Tally.dropped htally, h.booked.resolved_le⟩

end

def settledUp : Chronicle :=
  [.settle, .build 0,
    .receive
      ⟨⟨{ protocol := Packet.protocolId, count := 0, sequence := 0, ack := 32, ackBits := 1 }, []⟩,
      [], []⟩
      Packet.maxSize 0,
    .takeNotices, .enqueue ⟨.data, false, [1]⟩, .settle, .build 0].foldl step mixed

theorem messages_accounted_settledUp :
    Reachable Orderly settledUp ∧ settledUp.notices.countP Notice.isLost = 2 ∧
      settledUp.notices.countP Notice.isDelivered = 2 ∧
      settledUp.notices.countP Notice.isRequeued = 1 ∧
      settledUp.notices.countP Notice.isDropped = 1 ∧ settledUp.outbox.inFlightCount = 1 ∧
      settledUp.channel.traffic.messagesSent = 5 ∧ 2 + 1 + 1 + 1 ≤ 5 := by
  have h : Reachable Orderly settledUp :=
    .run (.run (.start _ _) (by decide +kernel)) (by decide +kernel)
  obtain ⟨hlost, hdelivered, hrequeued, hdropped, hle⟩ := messages_accounted h
  have hcounters : settledUp.channel.traffic.counters =
      [0, 1, 2, 0, 0, 0, 508, 5, 0, 2, 1, 1, 0] := by decide +kernel
  have hflight : settledUp.outbox.inFlightCount = 1 := by decide +kernel
  simp only [Traffic.counters, List.cons.injEq] at hcounters
  obtain ⟨-, -, clost, -, -, -, -, csent, -, cdelivered, crequeued, cdropped, -⟩ := hcounters
  rw [clost] at hlost
  rw [cdelivered] at hdelivered hle
  rw [crequeued] at hrequeued hle
  rw [cdropped] at hdropped hle
  rw [hflight, csent] at hle
  exact ⟨h, hlost.symm, hdelivered.symm, hrequeued.symm, hdropped.symm, hflight, csent, hle⟩

end Chronicle

end Courier
