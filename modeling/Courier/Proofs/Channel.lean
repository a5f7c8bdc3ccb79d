import Courier.Channel
import Courier.Proofs.Departures
import Courier.Proofs.Outgoing

/-!
# What each operation of a channel changes

Apart from counters and times a channel consists of its two windows, its
outgoing messages, the payloads it puts together and its notices. `settle_spec`,
`receive_refused` and `receive_accepted` say what becomes of each of them.
-/

namespace Courier

def Notice.delivered? : Notice → Option Envelope
  | .delivered e => some e
  | _ => none

/-- The messages that notices report as delivered. -/
def deliveredOf (notices : List Notice) : List Envelope := notices.filterMap Notice.delivered?

@[simp] theorem deliveredOf_append (first second : List Notice) :
    deliveredOf (first ++ second) = deliveredOf first ++ deliveredOf second :=
  List.filterMap_append

@[simp] theorem deliveredOf_delivered (ms : List Message) :
    deliveredOf (ms.map fun m => .delivered m.envelope) = ms.map (·.envelope) := by
  simp only [deliveredOf, List.filterMap_map]
  exact congrFun List.filterMap_eq_map ms

namespace Channel

section
variable (c : Channel) (p : Packet) (size : Nat) (now : Time)

/-- The positions that the acknowledgement fields of a packet newly acknowledge. -/
def newly (h : Header) : UInt32 :=
  match (c.departures.acknowledge h.ack h.ackBits now).1 with
  | .applied newly => newly
  | _ => 0

theorem has_newly (h : Header) (i : UInt32) : Window.has (c.newly now h) i =
    (Window.has (c.departures.acknowledge h.ack h.ackBits now).2.acked i &&
      !Window.has c.departures.acked i) := by
  obtain ⟨-, hcases⟩ := c.departures.acknowledge_cases h.ack h.ackBits now
  unfold newly
  rcases hcases with ⟨houtcome | houtcome, hacked⟩ | ⟨houtcome, hacked⟩ | ⟨houtcome, -, hacked⟩
  · rw [houtcome, hacked, Window.has_zero, Bool.and_not_self]
  · rw [houtcome, hacked, Window.has_zero, Bool.and_not_self]
  · rw [houtcome, hacked, Window.has_zero, Bool.false_and]
  · rw [houtcome, hacked, Window.has_and, Window.has_not]

theorem settle_spec :
    c.settle.2.departures = c.departures ∧ c.settle.2.arrivals = c.arrivals ∧
      c.settle.2.assembly = c.assembly ∧
      c.settle.2.outgoing = (c.outgoing.settle c.departures.upcoming c.departures.acked).2.2 ∧
      c.settle.2.notices =
        c.notices ++ (c.outgoing.settle c.departures.upcoming c.departures.acked).2.1 := by
  simp only [settle]
  split <;> exact ⟨rfl, rfl, rfl, rfl, rfl⟩

theorem confirm_zero (o : Outgoing) : o.confirm 0 = ([], o) := by
  have h : (Window.indices.filter fun i => Window.has 0 i && Window.has o.flights.sent i) = [] := by
    simp
  rw [Outgoing.confirm, h]
  rfl

/-- Only `confirm` touches the outgoing messages. -/
theorem acknowledge_spec (h : Header) :
    (c.acknowledge h now).departures = (c.departures.acknowledge h.ack h.ackBits now).2 ∧
      (c.acknowledge h now).arrivals = c.arrivals ∧ (c.acknowledge h now).assembly = c.assembly ∧
      (c.acknowledge h now).outgoing = (c.outgoing.confirm (c.newly now h)).2 ∧
      deliveredOf (c.acknowledge h now).notices =
        deliveredOf c.notices ++ deliveredOf (c.outgoing.confirm (c.newly now h)).1 := by
  have hnone (r : Resync) : deliveredOf (c.notices ++ [.resync r]) = deliveredOf c.notices := by
    rw [deliveredOf_append]
    exact List.append_nil _
  simp only [acknowledge, newly]
  cases (c.departures.acknowledge h.ack h.ackBits now).1 with
  | applied newly => exact ⟨rfl, rfl, rfl, rfl, deliveredOf_append _ _⟩
  | desync gap =>
    rw [confirm_zero]
    exact ⟨rfl, rfl, rfl, rfl, (hnone _).trans (List.append_nil _).symm⟩
  | ahead =>
    rw [confirm_zero]
    exact ⟨rfl, rfl, rfl, rfl, (hnone _).trans (List.append_nil _).symm⟩
  | stale =>
    rw [confirm_zero]
    exact ⟨rfl, rfl, rfl, rfl, (List.append_nil _).symm⟩

theorem acknowledge_notices (h : Header) :
    ∃ new, (c.acknowledge h now).notices = c.notices ++ new ∧
      ∀ n ∈ new, (∃ e, n = .delivered e) ∨ ∃ r, n = .resync r := by
  simp only [acknowledge]
  cases (c.departures.acknowledge h.ack h.ackBits now).1 with
  | applied newly => exact ⟨_, rfl, fun n hn => .inl (Outgoing.mem_deliverAll hn)⟩
  | desync gap => exact ⟨[.resync (.ackDesync gap)], rfl, by simp⟩
  | ahead => exact ⟨[.resync (.ackAhead h.ack _)], rfl, by simp⟩
  | stale => exact ⟨[], (List.append_nil _).symm, by simp⟩

theorem receive_notices :
    ∃ new, (c.receive p size now).2.notices = c.notices ++ new ∧
      ∀ n ∈ new, (∃ e, n = .delivered e) ∨ ∃ r, n = .resync r := by
  have htake (d : Channel) : ∃ new, (d.take p size now).2.notices = d.notices ++ new ∧
      ∀ n ∈ new, (∃ e, n = .delivered e) ∨ ∃ r, n = .resync r :=
    acknowledge_notices _ now p.header
  simp only [receive]
  cases (c.arrivals.record p.header.sequence).1 with
  | fresh => exact htake _
  | late => exact htake _
  | duplicate => exact ⟨[], (List.append_nil _).symm, by simp⟩
  | stale => exact ⟨[], (List.append_nil _).symm, by simp⟩
  | resync gap =>
    obtain ⟨new, hnew, hkind⟩ := htake
      ({ c with arrivals := (c.arrivals.record p.header.sequence).2 }.note
        [.resync (.receiveGap gap)])
    refine ⟨.resync (.receiveGap gap) :: new, ?_, by simpa using hkind⟩
    exact hnew.trans (List.append_assoc _ _ _)

theorem receive_refused (h : (c.arrivals.record p.header.sequence).1.accepted = false) :
    (c.receive p size now).1 = [] ∧ (c.receive p size now).2.departures = c.departures ∧
      (c.receive p size now).2.arrivals = c.arrivals ∧
      (c.receive p size now).2.assembly = c.assembly ∧
      (c.receive p size now).2.outgoing = c.outgoing ∧
      (c.receive p size now).2.notices = c.notices := by
  have harrivals := c.arrivals.record_refused p.header.sequence h
  revert h
  simp only [receive]
  cases (c.arrivals.record p.header.sequence).1 with
  | duplicate => exact fun _ => ⟨rfl, rfl, harrivals, rfl, rfl, rfl⟩
  | stale => exact fun _ => ⟨rfl, rfl, harrivals, rfl, rfl, rfl⟩
  | _ => exact fun h => nomatch h

/-- An accepted packet is recorded, its acknowledgement applied and its messages taken in. -/
theorem receive_accepted (h : (c.arrivals.record p.header.sequence).1.accepted = true) :
    (c.receive p size now).1 = (c.assembly.acceptAll p.messages).1 ∧
      (c.receive p size now).2.departures =
        (c.departures.acknowledge p.header.ack p.header.ackBits now).2 ∧
      (c.receive p size now).2.arrivals = (c.arrivals.record p.header.sequence).2 ∧
      (c.receive p size now).2.assembly = (c.assembly.acceptAll p.messages).2 ∧
      (c.receive p size now).2.outgoing = (c.outgoing.confirm (c.newly now p.header)).2 ∧
      deliveredOf (c.receive p size now).2.notices =
        deliveredOf c.notices ++ deliveredOf (c.outgoing.confirm (c.newly now p.header)).1 := by
  have htake (d : Channel) : (d.take p size now).1 = (d.assembly.acceptAll p.messages).1 ∧
      (d.take p size now).2.departures =
        (d.departures.acknowledge p.header.ack p.header.ackBits now).2 ∧
      (d.take p size now).2.arrivals = d.arrivals ∧
      (d.take p size now).2.assembly = (d.assembly.acceptAll p.messages).2 ∧
      (d.take p size now).2.outgoing = (d.outgoing.confirm (d.newly now p.header)).2 ∧
      deliveredOf (d.take p size now).2.notices =
        deliveredOf d.notices ++ deliveredOf (d.outgoing.confirm (d.newly now p.header)).1 := by
    obtain ⟨hdepartures, harrivals, hassembly, houtgoing, hnotices⟩ := acknowledge_spec
      (({ d with
        traffic := { d.traffic with
          packetsReceived := d.traffic.packetsReceived + 1
          bytesReceived := d.traffic.bytesReceived + size } } : Channel).touch now) now p.header
    simp only [take, hassembly]
    exact ⟨rfl, hdepartures, harrivals, rfl, houtgoing, hnotices⟩
  revert h
  simp only [receive]
  cases (c.arrivals.record p.header.sequence).1 with
  | fresh => exact fun _ => htake _
  | late => exact fun _ => htake _
  | resync gap =>
    intro _
    obtain ⟨hdeliveries, hdepartures, harrivals, hassembly, houtgoing, hnotices⟩ := htake
      ({ c with arrivals := (c.arrivals.record p.header.sequence).2 }.note
        [.resync (.receiveGap gap)])
    refine ⟨hdeliveries, hdepartures, harrivals, hassembly, houtgoing, hnotices.trans ?_⟩
    show deliveredOf (c.notices ++ [.resync (.receiveGap gap)]) ++ _ = _
    rw [deliveredOf_append]
    exact congrArg (· ++ _) (List.append_nil _)
  | _ => exact fun h => nomatch h

end

end Channel

end Courier
