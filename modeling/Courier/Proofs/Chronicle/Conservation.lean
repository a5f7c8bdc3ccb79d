import Courier.Proofs.Chronicle
import Courier.Proofs.Outgoing.Held

/-!
# Critical messages are conserved

`Intact` is what an orderly used channel keeps up: every critical message in
flight is held, and the position of the next packet is free once the channel is
settled. Under it each step moves critical messages between pending, in flight
and confirmed (`Balanced`), and notices report what was confirmed (`Reported`).
So none is lost or doubled (`critical_conserved`).
-/

namespace Courier

def criticalOf (es : List Envelope) : Multiset Envelope := es.filter (·.critical)

@[simp] theorem criticalOf_append (first second : List Envelope) :
    criticalOf (first ++ second) = criticalOf first + criticalOf second := by
  simp only [criticalOf, List.filter_append, Multiset.coe_add]

theorem criticalOf_map (ms : List Message) :
    criticalOf (ms.map (·.envelope)) = (vitalsOf ms).map (·.envelope) := by
  simp only [criticalOf, vitalsOf, List.filter_map, Multiset.map_coe]
  rfl

namespace Outgoing

section
variable {o : Outgoing}

theorem settle_delivers (h : o.outbox.Ring) (next acked : UInt32) :
    deliveredOf (o.settle next acked).2.1 =
      ((o.settledPlaces next acked).filterMap fun i => (o.outbox.slot i).inFlight?).map
        (·.envelope) := by
  rcases fate_cases o.flights (Window.index next) acked with ⟨hfate, -⟩ | ⟨hfate, -⟩ | ⟨hfate, -⟩
  · obtain ⟨hsettle, -, hsettled⟩ := settle_unsent hfate
    rw [hsettle, hsettled]
    rfl
  · obtain ⟨hsettle, -, hsettled⟩ := settle_acknowledged hfate
    rw [hsettle, hsettled, deliveredOf_delivered, (released_carried h _).messages_eq]
  · obtain ⟨⟨hnotices, -⟩, -, hsettled⟩ := settle_lost hfate
    rw [hnotices, hsettled]
    refine List.filterMap_eq_nil_iff.mpr ?_
    intro notice hn
    simp only [List.cons_append, List.mem_cons, List.mem_append, List.mem_map] at hn
    rcases hn with rfl | ⟨m, -, rfl⟩ | ⟨m, -, rfl⟩
    · rfl
    · rfl
    · rfl

theorem vitals_settle (h : o.outbox.Ring) (next acked : UInt32) :
    (o.settle next acked).2.2.outbox.vitals +
      vitalsOf ((o.settledPlaces next acked).filterMap fun i => (o.outbox.slot i).inFlight?) =
        o.outbox.vitals := by
  rcases fate_cases o.flights (Window.index next) acked with ⟨hfate, -⟩ | ⟨hfate, -⟩ | ⟨hfate, -⟩
  · obtain ⟨hsettle, -, hsettled⟩ := settle_unsent hfate
    rw [hsettle, hsettled]
    exact add_zero _
  · obtain ⟨hsettle, -, hsettled⟩ := settle_acknowledged hfate
    rw [hsettle, hsettled, ← (released_carried h _).messages_eq]
    exact Outbox.vitals_releaseAll _ _
  · obtain ⟨⟨-, hsettle⟩, hlost, hsettled⟩ := settle_lost hfate
    have hall := Outbox.vitals_releaseAll (o.outbox.requeue (o.vital (Window.index next))).2
      (o.plain (Window.index next))
    rw [vitalsOf_dropped h, Outbox.vitals_requeue] at hall
    rw [hsettle, hsettled, hlost]
    exact hall

end

end Outgoing

namespace Chronicle

/-- All messages of the payloads that were queued. -/
def queued (c : Chronicle) : List Message :=
  c.payloads.zipIdx.flatMap fun (p, number) => p.pieces number

section
variable {c : Chronicle}

theorem queued_append (c : Chronicle) (p : Payload) :
    ({ c with payloads := c.payloads ++ [p] } : Chronicle).queued =
      c.queued ++ p.pieces c.payloads.length := by
  simp only [queued, List.zipIdx_append, List.flatMap_append, List.zipIdx_cons, List.zipIdx_nil,
    List.flatMap_cons, List.flatMap_nil, List.append_nil, Nat.zero_add]

def queue (c : Chronicle) (p : Payload) : Chronicle :=
  let box := { c.outbox with nextId := c.outbox.nextId + 1 }
  let ms := p.pieces c.payloads.length
  let acked := c.channel.departures.acked
  { c with
    channel :=
      { c.channel with
        outgoing := { c.channel.outgoing with outbox := (Outbox.pushAll acked box ms).2 } }
    payloads := c.payloads ++ [p]
    manifest := c.manifest.pushAll acked c.payloads.length box ms }

structure Intact (c : Chronicle) : Prop where
  held : c.channel.outgoing.Held c.channel.departures.acked
  nextId_eq : c.outbox.nextId = UInt8.ofNat c.payloads.length
  clear : c.settled = true →
    Window.has c.channel.outgoing.flights.sent c.channel.departures.upcoming = false

/-- Either nothing happens, or the whole payload is queued and fits. -/
theorem Intact.enqueue_cases (h : c.Intact) (p : Payload) :
    c.enqueue p = c ∨
      (c.enqueue p = c.queue p ∧
        (Outbox.pushAll c.channel.departures.acked { c.outbox with nextId := c.outbox.nextId + 1 }
          (p.pieces c.payloads.length)).1 = .ok () ∧
        c.outbox.length + Outbox.messagesNeeded p.data.length < Outbox.capacity) := by
  have hcases := h.held.ring.enqueue_cases p.kind p.critical p.data c.channel.departures.acked
  rcases hcases with ⟨e, herror⟩ | ⟨hok, hall, hfits⟩
  · left
    simp only [enqueue, Channel.enqueue, herror]
  · right
    have hid : c.channel.outgoing.outbox.nextId = UInt8.ofNat c.payloads.length := h.nextId_eq
    refine ⟨?_, ?_, hfits⟩
    · simp only [enqueue, Channel.enqueue, hok, queue, Payload.pieces, ← hid]
      rfl
    · simp only [Payload.pieces, ← hid]
      exact hall

theorem intact_start (peer : Address) (now : Time) : (start peer now).Intact where
  held := Outgoing.held_empty _
  nextId_eq := rfl
  clear _ := Window.has_zero _

theorem outgoing_settle (c : Chronicle) : c.settle.channel.outgoing =
    (c.channel.outgoing.settle c.channel.departures.upcoming c.channel.departures.acked).2.2 :=
  c.channel.settle_spec.2.2.2.1

theorem departures_settle (c : Chronicle) : c.settle.channel.departures = c.channel.departures :=
  c.channel.settle_spec.1

def verdicts (c : Chronicle) : List Notice :=
  (c.channel.outgoing.settle c.channel.departures.upcoming c.channel.departures.acked).2.1

theorem notices_settle (c : Chronicle) : c.settle.notices = c.notices ++ c.verdicts := by
  obtain ⟨-, -, -, -, hnotices⟩ := c.channel.settle_spec
  show c.taken ++ c.channel.settle.2.notices = _
  rw [hnotices, ← List.append_assoc]
  rfl

theorem Intact.settle (h : c.Intact) : c.settle.Intact := by
  obtain ⟨-, hid, -⟩ :=
    Outgoing.settle_spec h.held.ring c.channel.departures.upcoming c.channel.departures.acked
  refine ⟨?_, ?_, ?_⟩
  · rw [departures_settle, outgoing_settle]
    exact h.held.settle _
  · rw [outbox, outgoing_settle, hid]
    exact h.nextId_eq
  · intro _
    rw [departures_settle, outgoing_settle]
    exact Outgoing.settle_unsets h.held.ring _ _

theorem Intact.pushed (h : c.Intact) (p : Payload)
    (hok :
      (Outbox.pushAll c.channel.departures.acked { c.outbox with nextId := c.outbox.nextId + 1 }
        (p.pieces c.payloads.length)).1 = .ok ()) :
    Manifest.Pushed c.manifest (c.queue p).manifest { c.outbox with nextId := c.outbox.nextId + 1 }
      (c.queue p).outbox c.payloads.length (p.pieces c.payloads.length) := by
  exact Manifest.pushed_pushAll _ (h.held.ring.withNextId _) hok

theorem Intact.enqueue (h : c.Intact) (p : Payload) : (c.enqueue p).Intact := by
  rcases h.enqueue_cases p with hsame | ⟨hqueue, hok, -⟩
  · rw [hsame]
    exact h
  · rw [hqueue]
    have hpushed := h.pushed p hok
    refine ⟨?_, ?_, h.clear⟩
    · have hheld : ({ c.channel.outgoing with
          outbox := { c.outbox with nextId := c.outbox.nextId + 1 } } : Outgoing).Held
            c.channel.departures.acked :=
        ⟨h.held.ring.withNextId _, h.held.held⟩
      exact hheld.pushed hpushed
    · rw [hpushed.nextId_eq]
      show c.outbox.nextId + 1 = UInt8.ofNat (c.payloads ++ [p]).length
      rw [h.nextId_eq, List.length_append, UInt8.ofNat_add]
      rfl

theorem Intact.drained (h : c.Intact) (now : Time) :
    Outbox.Drained c.outbox (c.build now).outbox
      (Window.index c.channel.departures.upcoming).toUInt8
      (c.channel.build now).1.messages :=
  h.held.ring.drainUpTo _ _ _

theorem Intact.build (h : c.Intact) (hsettled : c.settled = true) (now : Time) :
    (c.build now).Intact := by
  have hdrained := h.drained now
  refine ⟨?_, ?_, fun hs => nomatch hs⟩
  · exact h.held.launch (h.clear hsettled) hdrained _
  · rw [hdrained.nextId_eq]
    exact h.nextId_eq

theorem Intact.receive (h : c.Intact) (r : Dispatch) (size : Nat) (now : Time) :
    (c.receive r size now).Intact := by
  cases haccepted : (c.channel.arrivals.record r.sequence).1.accepted with
  | false =>
    obtain ⟨-, hdepartures, -, -, houtgoing, -⟩ :=
      c.channel.receive_refused r.packet size now haccepted
    rw [c.receive_refused haccepted]
    refine ⟨?_, ?_, ?_⟩
    · rw [houtgoing, hdepartures]
      exact h.held
    · show (c.channel.receive r.packet size now).2.outgoing.outbox.nextId = _
      rw [houtgoing]
      exact h.nextId_eq
    · rw [houtgoing, hdepartures]
      exact h.clear
  | true =>
    obtain ⟨-, hdepartures, -, -, houtgoing, -⟩ :=
      c.channel.receive_accepted r.packet size now haccepted
    obtain ⟨hsequence, -⟩ :=
      c.channel.departures.acknowledge_cases r.packet.header.ack r.packet.header.ackBits now
    have hconfirm := Outgoing.confirm_eq h.held.ring (c.channel.newly now r.packet.header)
    have hreleased := Outgoing.released_confirmed h.held.ring (c.channel.newly now r.packet.header)
    rw [c.receive_accepted haccepted]
    refine ⟨?_, ?_, ?_⟩
    · rw [houtgoing, hdepartures]
      -- what is reported is confirmed at once, and what is taken back is held again
      exact h.held.confirm (c.channel.has_newly now _)
    · show (c.channel.receive r.packet size now).2.outgoing.outbox.nextId = _
      rw [houtgoing, hconfirm]
      exact hreleased.nextId_eq.trans h.nextId_eq
    · rw [houtgoing, hdepartures, hconfirm]
      simp only [Departures.upcoming, hsequence]
      exact h.clear

theorem Intact.step (h : c.Intact) {a : Action} (hrule : c.Orderly a) : (c.step a).Intact := by
  cases a with
  | settle => exact h.settle
  | enqueue p => exact h.enqueue p
  | build now => exact h.build hrule now
  | receive r size now => exact h.receive r size now
  | takeNotices => exact ⟨h.held, h.nextId_eq, h.clear⟩

theorem Reachable.intact (h : Reachable Orderly c) : c.Intact := by
  induction h with
  | start peer now => exact intact_start peer now
  | step _ hrule ih => exact ih.step hrule

-- ---------------------------------------------------------------------------
-- Confirmed messages and notices
-- ---------------------------------------------------------------------------

/-- The messages at `places` leave the ring and are confirmed. Nothing else changes
of what the channel sends. -/
structure Confirming (c c' : Chronicle) (places : List Place) : Prop where
  outgoing_eq :
    c'.channel.outgoing = { c.channel.outgoing with outbox := (c.outbox.releaseAll places).2 }
  released : Outbox.Released c.outbox c'.outbox places (c.outbox.releaseAll places).1
  settled_eq : c'.settled = c.settled
  payloads_eq : c'.payloads = c.payloads
  manifest_eq : c'.manifest = c.manifest
  sent_eq : c'.sent = c.sent
  confirmed_eq : c'.confirmed = c.confirmed ++ c.confirmations places
  delivered_eq : deliveredOf c'.notices =
    deliveredOf c.notices ++ (c.outbox.releaseAll places).1.map (·.envelope)

theorem Intact.confirming (h : c.Intact) (r : Dispatch) (size : Nat) (now : Time) :
    ∃ places, Confirming c (c.receive r size now) places := by
  have hring : c.channel.outgoing.outbox.Ring := h.held.ring
  cases haccepted : (c.channel.arrivals.record r.sequence).1.accepted with
  | false =>
    obtain ⟨-, -, -, -, houtgoing, hnotices⟩ :=
      c.channel.receive_refused r.packet size now haccepted
    rw [c.receive_refused haccepted]
    refine ⟨[], houtgoing, ?_, rfl, rfl, rfl, rfl, (List.append_nil _).symm, ?_⟩
    · show Outbox.Released _ (c.channel.receive r.packet size now).2.outgoing.outbox _ _
      rw [houtgoing]
      exact hring.releaseAll List.nodup_nil
    · show deliveredOf (c.taken ++ (c.channel.receive r.packet size now).2.notices) = _
      rw [hnotices]
      exact (List.append_nil _).symm
  | true =>
    obtain ⟨-, -, -, -, houtgoing, hnotices⟩ :=
      c.channel.receive_accepted r.packet size now haccepted
    have hconfirm := Outgoing.confirm_eq hring (c.channel.newly now r.packet.header)
    rw [hconfirm] at houtgoing hnotices
    rw [c.receive_accepted haccepted]
    refine ⟨_, houtgoing, ?_, rfl, rfl, rfl, rfl, rfl, ?_⟩
    · show Outbox.Released _ (c.channel.receive r.packet size now).2.outgoing.outbox _ _
      rw [houtgoing]
      exact Outgoing.released_confirmed hring _
    · show deliveredOf (c.taken ++ (c.channel.receive r.packet size now).2.notices) = _
      rw [deliveredOf_append, hnotices, deliveredOf_delivered, ← List.append_assoc,
        ← deliveredOf_append]
      rfl

theorem map_confirmations (c : Chronicle) (places : List Place) :
    (c.confirmations places).map (·.2) =
      (places.filterMap fun i => (c.outbox.slot i).inFlight?).map (·.envelope) := by
  simp only [confirmations, List.map_filterMap, Option.map_map]
  rfl

theorem mem_confirmations {places : List Place} {x : Nat × Envelope} :
    x ∈ c.confirmations places ↔
      ∃ i ∈ places, ∃ m packet, c.outbox.slot i = .inFlight m packet ∧
      x = (c.manifest i, m.envelope) := by
  simp only [confirmations, List.mem_filterMap, Option.map_eq_some_iff]
  refine exists_congr fun i => and_congr_right fun _ => ?_
  constructor
  · rintro ⟨m, hm, rfl⟩
    cases hs : c.outbox.slot i with
    | inFlight m' packet =>
      rw [hs] at hm
      obtain rfl := Option.some.inj hm
      exact ⟨m', packet, rfl, rfl⟩
    | _ => rw [hs] at hm; cases hm
  · rintro ⟨m, packet, hs, rfl⟩
    exact ⟨m, by rw [hs]; rfl, rfl⟩

def Reported (c : Chronicle) : Prop := c.confirmed.map (·.2) = deliveredOf c.notices

theorem Reported.settle (h : c.Reported) (hi : c.Intact) : c.settle.Reported := by
  show (c.confirmed ++ _).map (·.2) = deliveredOf c.settle.notices
  rw [notices_settle, deliveredOf_append, verdicts, Outgoing.settle_delivers hi.held.ring,
    List.map_append, h, map_confirmations]
  rfl

theorem Reported.enqueue (h : c.Reported) (hi : c.Intact) (p : Payload) :
    (c.enqueue p).Reported := by
  rcases hi.enqueue_cases p with hsame | ⟨hqueue, -⟩
  · rw [hsame]
    exact h
  · rw [hqueue]
    exact h

theorem Reported.receive (h : c.Reported) (hi : c.Intact) (r : Dispatch) (size : Nat) (now : Time) :
    (c.receive r size now).Reported := by
  obtain ⟨places, hconfirming⟩ := hi.confirming r size now
  unfold Reported at h ⊢
  rw [hconfirming.confirmed_eq, hconfirming.delivered_eq, List.map_append, map_confirmations, h,
    hconfirming.released.messages_eq]

theorem Reported.takeNotices (h : c.Reported) : c.takeNotices.Reported := by
  have hnotices : c.takeNotices.notices = c.notices := List.append_nil _
  unfold Reported at h ⊢
  rw [hnotices]
  exact h

theorem Reported.step (h : c.Reported) (hi : c.Intact) (a : Action) : (c.step a).Reported := by
  cases a with
  | settle => exact h.settle hi
  | enqueue p => exact h.enqueue hi p
  | build now => exact h
  | receive r size now => exact h.receive hi r size now
  | takeNotices => exact h.takeNotices

theorem Reachable.reported (h : Reachable Orderly c) : c.Reported := by
  induction h with
  | start peer now => rfl
  | step hreach _ ih => exact ih.step hreach.intact _

-- ---------------------------------------------------------------------------
-- The balance of critical messages
-- ---------------------------------------------------------------------------

/-- What was queued is in the ring or was confirmed. -/
def Balanced (c : Chronicle) : Prop :=
  criticalOf (c.queued.map (·.envelope)) =
    c.outbox.vitals.map (·.envelope) + criticalOf (c.confirmed.map (·.2))

theorem balanced_start (peer : Address) (now : Time) : (start peer now).Balanced := by
  show _ = Multiset.map _ (Outbox.vitals {}) + _
  rw [Outbox.vitals_empty]
  rfl

/-- Confirming takes out of the ring exactly the messages at `places`. -/
theorem Balanced.confirmed {c' : Chronicle} (h : c.Balanced) (places : List Place)
    (hqueued : c'.queued = c.queued)
    (hvitals : c'.outbox.vitals + vitalsOf (places.filterMap fun i => (c.outbox.slot i).inFlight?) =
      c.outbox.vitals)
    (hconfirmed : c'.confirmed = c.confirmed ++ c.confirmations places) : c'.Balanced := by
  unfold Balanced at h ⊢
  rw [hqueued, h, ← hvitals, hconfirmed, List.map_append, map_confirmations, criticalOf_append,
    criticalOf_map, Multiset.map_add, add_assoc, add_comm (Multiset.map _ (vitalsOf _))]

theorem Balanced.settle (h : c.Balanced) (hi : c.Intact) : c.settle.Balanced := by
  refine h.confirmed _ rfl ?_ rfl
  rw [outbox, outgoing_settle]
  exact Outgoing.vitals_settle hi.held.ring _ _

theorem Balanced.enqueue (h : c.Balanced) (hi : c.Intact) (p : Payload) :
    (c.enqueue p).Balanced := by
  rcases hi.enqueue_cases p with hsame | ⟨hqueue, hok, -⟩
  · rw [hsame]
    exact h
  · have hring := hi.held.ring
    have hvitals :
        (c.queue p).outbox.vitals = c.outbox.vitals + vitalsOf (p.pieces c.payloads.length) :=
      Outbox.vitals_pushAll _ (hring.withNextId _)
        (fun _ _ _ hs hc => (hi.held.held hs hc).2.2) hok
    have hqueued : (c.queue p).queued = c.queued ++ p.pieces c.payloads.length := c.queued_append p
    rw [hqueue]
    unfold Balanced at h ⊢
    rw [hqueued, hvitals, List.map_append, criticalOf_append, h, criticalOf_map, Multiset.map_add,
      add_right_comm]
    rfl

theorem Balanced.build (h : c.Balanced) (now : Time) : (c.build now).Balanced := by
  have hvitals : (c.build now).outbox.vitals = c.outbox.vitals := Outbox.vitals_drainUpTo _ _ _ _
  unfold Balanced at h ⊢
  rw [hvitals]
  exact h

theorem Balanced.receive (h : c.Balanced) (hi : c.Intact) (r : Dispatch) (size : Nat) (now : Time) :
    (c.receive r size now).Balanced := by
  obtain ⟨places, hconfirming⟩ := hi.confirming r size now
  refine h.confirmed places ?_ ?_ hconfirming.confirmed_eq
  · rw [queued, hconfirming.payloads_eq]
    rfl
  · rw [outbox, hconfirming.outgoing_eq, ← hconfirming.released.messages_eq]
    exact Outbox.vitals_releaseAll _ _

theorem Balanced.step (h : c.Balanced) (hi : c.Intact) (a : Action) : (c.step a).Balanced := by
  cases a with
  | settle => exact h.settle hi
  | enqueue p => exact h.enqueue hi p
  | build now => exact h.build now
  | receive r size now => exact h.receive hi r size now
  | takeNotices => exact h

theorem Reachable.balanced (h : Reachable Orderly c) : c.Balanced := by
  induction h with
  | start peer now => exact balanced_start peer now
  | step hreach _ ih => exact ih.step hreach.intact _

/-- However an orderly used channel is driven, and whatever packets it takes in,
every critical message of the payloads queued is either pending, or in flight,
or was reported as delivered. -/
theorem critical_conserved (h : Reachable Orderly c) :
    criticalOf (c.queued.map (·.envelope)) =
      criticalOf (c.outbox.pending.map (·.envelope)) +
        criticalOf (c.outbox.inFlight.map (·.envelope)) +
        criticalOf (deliveredOf c.notices) := by
  have hring : c.outbox.Ring := h.intact.held.ring
  have hbalance := h.balanced
  unfold Balanced at hbalance
  rw [hbalance, h.reported, hring.vitals_eq, Multiset.map_add, criticalOf_map, criticalOf_map]

end

def unheard : Chronicle :=
  (.enqueue { kind := .data, critical := true, data := [7] } ::
      ((List.replicate 32 [.settle, .build 0]).flatten ++ [.settle])).foldl step
    (start { ip := .v4 0, port := Packet.defaultPort } 0)

theorem critical_conserved_unheard :
    Reachable Orderly unheard ∧ unheard.outbox.pending = [⟨.data, true, 0, 0, [7]⟩] ∧
      criticalOf (unheard.queued.map (·.envelope)) =
        criticalOf (unheard.outbox.pending.map (·.envelope)) +
          criticalOf (unheard.outbox.inFlight.map (·.envelope)) +
          criticalOf (deliveredOf unheard.notices) := by
  have h : Reachable Orderly unheard := .run (.start _ _) (by decide +kernel)
  exact ⟨h, by decide +kernel, critical_conserved h⟩

end Chronicle

end Courier
