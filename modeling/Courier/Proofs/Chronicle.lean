import Courier.Proofs.Channel
import Courier.Proofs.Manifest
import Courier.Proofs.Payload

/-!
# A channel and its history

A chronicle is a channel together with what happened to it: the payloads it
accepted, the packets it built and took in, and what it returned. The history
numbers payloads without wrapping around, and has no influence on the channel.
-/

namespace Courier

/-- A packet as its sender remembers it. -/
structure Dispatch where
  packet : Packet
  /-- Which payload each message belongs to. -/
  numbers : List Nat
  /-- The packets that its sender had taken in before. -/
  heard : List UInt32
  deriving DecidableEq, Repr

namespace Dispatch

def sequence (r : Dispatch) : UInt32 := r.packet.header.sequence

/-- The messages, each with the number of its payload. -/
def cargo (r : Dispatch) : List (Message × Nat) := r.packet.messages.zip r.numbers

end Dispatch

inductive Action where
  | settle
  | enqueue (p : Payload)
  | build (now : Time)
  | receive (r : Dispatch) (size : Nat) (now : Time)
  | takeNotices

structure Chronicle where
  channel : Channel
  /-- Whether the channel was settled since it last built a packet. -/
  settled : Bool := true
  /-- All payloads that were queued. -/
  payloads : List Payload := []
  /-- Which of them the message in each slot of the outbox belongs to. -/
  manifest : Manifest := fun _ => 0
  sent : List Dispatch := []
  accepted : List Dispatch := []
  deliveries : List Delivery := []
  /-- All messages reported as delivered, with the numbers of their payloads. -/
  confirmed : List (Nat × Envelope) := []
  taken : List Notice := []

namespace Chronicle

def start (peer : Address) (now : Time) : Chronicle := { channel := .fresh peer now }

def outbox (c : Chronicle) : Outbox := c.channel.outgoing.outbox

def heard (c : Chronicle) : List UInt32 := c.accepted.map (·.sequence)

/-- The messages taken in, each with the number of its payload. -/
def intake (c : Chronicle) : List (Message × Nat) := c.accepted.flatMap (·.cargo)

def notices (c : Chronicle) : List Notice := c.taken ++ c.channel.notices

/-- What notices say about the messages at `places`. -/
def confirmations (c : Chronicle) (places : List Place) : List (Nat × Envelope) :=
  places.filterMap fun i => (c.outbox.slot i).inFlight?.map fun m => (c.manifest i, m.envelope)

def settle (c : Chronicle) : Chronicle :=
  let d := c.channel.departures
  { c with
    channel := c.channel.settle.2
    settled := true
    manifest := c.manifest.requeue c.outbox (c.channel.outgoing.lostPlaces d.upcoming d.acked)
    confirmed :=
      c.confirmed ++ c.confirmations (c.channel.outgoing.settledPlaces d.upcoming d.acked) }

def enqueue (c : Chronicle) (p : Payload) : Chronicle :=
  let (result, channel) := c.channel.enqueue p.kind p.critical p.data
  match result with
  | .error _ => { c with channel }
  | .ok id =>
    { c with
      channel
      payloads := c.payloads ++ [p]
      manifest := c.manifest.pushAll c.channel.departures.acked c.payloads.length
        { c.outbox with nextId := id + 1 } (p.pieces c.payloads.length) }

def build (c : Chronicle) (now : Time) : Chronicle :=
  let (packet, channel) := c.channel.build now
  { c with
    channel
    settled := false
    sent := c.sent ++
      [{ packet, numbers := c.manifest.front c.outbox packet.messages.length, heard := c.heard }] }

def receive (c : Chronicle) (r : Dispatch) (size : Nat) (now : Time) : Chronicle :=
  let (deliveries, channel) := c.channel.receive r.packet size now
  if (c.channel.arrivals.record r.sequence).1.accepted then
    let newly := c.channel.newly now r.packet.header
    { c with
      channel
      accepted := c.accepted ++ [r]
      deliveries := c.deliveries ++ deliveries
      confirmed := c.confirmed ++ c.confirmations (c.channel.outgoing.confirmedPlaces newly) }
  else { c with channel, deliveries := c.deliveries ++ deliveries }

def takeNotices (c : Chronicle) : Chronicle :=
  let (notices, channel) := c.channel.takeNotices
  { c with channel, taken := c.taken ++ notices }

def step (c : Chronicle) : Action → Chronicle
  | .settle => c.settle
  | .enqueue p => c.enqueue p
  | .build now => c.build now
  | .receive r size now => c.receive r size now
  | .takeNotices => c.takeNotices

theorem channel_enqueue (c : Chronicle) (p : Payload) :
    (c.enqueue p).channel = (c.channel.enqueue p.kind p.critical p.data).2 := by
  simp only [enqueue]
  split
  · rfl
  · rfl

theorem taken_enqueue (c : Chronicle) (p : Payload) : (c.enqueue p).taken = c.taken := by
  simp only [enqueue]
  split
  · rfl
  · rfl

theorem settled_enqueue (c : Chronicle) (p : Payload) : (c.enqueue p).settled = c.settled := by
  simp only [enqueue]
  split
  · rfl
  · rfl

theorem channel_receive (c : Chronicle) (r : Dispatch) (size : Nat) (now : Time) :
    (c.receive r size now).channel = (c.channel.receive r.packet size now).2 := by
  simp only [receive]
  split
  · rfl
  · rfl

theorem taken_receive (c : Chronicle) (r : Dispatch) (size : Nat) (now : Time) :
    (c.receive r size now).taken = c.taken := by
  simp only [receive]
  split
  · rfl
  · rfl

theorem receive_refused {c : Chronicle} {r : Dispatch}
    (h : (c.channel.arrivals.record r.sequence).1.accepted = false) (size : Nat) (now : Time) :
    c.receive r size now = { c with channel := (c.channel.receive r.packet size now).2 } := by
  obtain ⟨hnone, -⟩ := c.channel.receive_refused r.packet size now h
  simp only [receive, h, hnone, List.append_nil]
  rfl

theorem receive_accepted {c : Chronicle} {r : Dispatch}
    (h : (c.channel.arrivals.record r.sequence).1.accepted = true) (size : Nat) (now : Time) :
    c.receive r size now =
      { c with
        channel := (c.channel.receive r.packet size now).2
        accepted := c.accepted ++ [r]
        deliveries := c.deliveries ++ (c.channel.assembly.acceptAll r.packet.messages).1
        confirmed := c.confirmed ++ c.confirmations
          (c.channel.outgoing.confirmedPlaces (c.channel.newly now r.packet.header)) } := by
  obtain ⟨hdeliveries, -⟩ := c.channel.receive_accepted r.packet size now h
  simp only [receive, h, hdeliveries]
  rfl

theorem upcoming_receive (c : Chronicle) (r : Dispatch) (size : Nat) (now : Time) :
    (c.receive r size now).channel.departures.upcoming = c.channel.departures.upcoming := by
  rw [channel_receive]
  cases haccepted : (c.channel.arrivals.record r.sequence).1.accepted with
  | false =>
    obtain ⟨-, hdepartures, -⟩ := c.channel.receive_refused r.packet size now haccepted
    rw [hdepartures]
  | true =>
    obtain ⟨-, hdepartures, -⟩ := c.channel.receive_accepted r.packet size now haccepted
    obtain ⟨hsequence, -⟩ :=
      c.channel.departures.acknowledge_cases r.packet.header.ack r.packet.header.ackBits now
    rw [hdepartures, Departures.upcoming, hsequence]
    rfl

-- Packets are only ever added, at the end of what was sent and of what was accepted.

theorem sent_prefix_step (c : Chronicle) (a : Action) : c.sent <+: (c.step a).sent := by
  cases a with
  | enqueue p =>
    simp only [step, enqueue]
    split
    · exact List.prefix_rfl
    · exact List.prefix_rfl
  | build now => exact List.prefix_append _ _
  | receive r size now =>
    simp only [step, receive]
    split
    · exact List.prefix_rfl
    · exact List.prefix_rfl
  | _ => exact List.prefix_rfl

theorem accepted_prefix_step (c : Chronicle) (a : Action) : c.accepted <+: (c.step a).accepted := by
  cases a with
  | enqueue p =>
    simp only [step, enqueue]
    split
    · exact List.prefix_rfl
    · exact List.prefix_rfl
  | receive r size now =>
    simp only [step, receive]
    split
    · exact List.prefix_append _ _
    · exact List.prefix_rfl
  | _ => exact List.prefix_rfl

theorem mem_accepted_step {c : Chronicle} {a : Action} {r : Dispatch}
    (hr : r ∈ (c.step a).accepted) : r ∈ c.accepted ∨ ∃ size now, a = .receive r size now := by
  cases a with
  | settle => exact .inl hr
  | enqueue p =>
    simp only [step, enqueue] at hr
    split at hr
    · exact .inl hr
    · exact .inl hr
  | build now => exact .inl hr
  | receive q size now =>
    simp only [step, receive] at hr
    split at hr
    · rcases List.mem_append.mp hr with hr | hr
      · exact .inl hr
      · rw [List.mem_singleton.mp hr]
        exact .inr ⟨size, now, rfl⟩
    · exact .inl hr
  | takeNotices => exact .inl hr

/-- Payloads are queued only while the outbox is not full of pending messages. -/
def Roomy (c : Chronicle) : Action → Prop
  | .enqueue _ => c.outbox.length < Outbox.capacity
  | _ => True

/-- The channel is also settled between any two packets that it builds. -/
def Orderly (c : Chronicle) : Action → Prop
  | .build _ => c.settled = true
  | a => c.Roomy a

theorem Orderly.roomy {c : Chronicle} {a : Action} (h : c.Orderly a) : c.Roomy a := by
  cases a with
  | enqueue p => exact h
  | _ => trivial

instance (c : Chronicle) (a : Action) : Decidable (c.Roomy a) :=
  match a with
  | .enqueue _ => inferInstanceAs (Decidable (_ < _))
  | .settle | .build _ | .receive .. | .takeNotices => .isTrue trivial

instance (c : Chronicle) (a : Action) : Decidable (c.Orderly a) :=
  match a with
  | .build _ => inferInstanceAs (Decidable (_ = _))
  | .enqueue _ => inferInstanceAs (Decidable (_ < _))
  | .settle | .receive .. | .takeNotices => .isTrue trivial

inductive Reachable (rule : Chronicle → Action → Prop) : Chronicle → Prop
  | start (peer : Address) (now : Time) : Reachable rule (.start peer now)
  | step {c : Chronicle} {a : Action} : Reachable rule c → rule c a → Reachable rule (c.step a)

def Legal (rule : Chronicle → Action → Prop) : Chronicle → List Action → Prop
  | _, [] => True
  | c, a :: rest => rule c a ∧ (c.step a).Legal rule rest

instance instDecidableLegal (rule : Chronicle → Action → Prop) [∀ c a, Decidable (rule c a)] :
    (c : Chronicle) → (as : List Action) → Decidable (c.Legal rule as)
  | _, [] => .isTrue trivial
  | c, a :: rest =>
    have := instDecidableLegal rule (c.step a) rest
    inferInstanceAs (Decidable (_ ∧ _))

theorem Reachable.run {rule : Chronicle → Action → Prop} {c : Chronicle} (h : Reachable rule c)
    {as : List Action} (hlegal : c.Legal rule as) : Reachable rule (as.foldl Chronicle.step c) := by
  induction as generalizing c with
  | nil => exact h
  | cons a rest ih =>
    obtain ⟨hrule, hlegal⟩ := hlegal
    exact ih (h.step hrule) hlegal

end Chronicle

end Courier
