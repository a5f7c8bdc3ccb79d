import Courier.Proofs.Dialogue.Delivery

/-!
# No message is confirmed by mistake

A message in flight names the packet that carries it by a window position only,
and every position is used again after 32 packets. Still a critical message
always names the packet that it is in, and it is released as delivered only
when the other side has accepted this packet (`released_only_accepted`).
-/

namespace Courier

namespace Chronicle

/-- The last 32 packets built. -/
def recent (c : Chronicle) : List Dispatch := c.sent.drop (c.sent.length - Window.size)

/-- The slots that an action releases as delivered. -/
def released (c : Chronicle) : Action → List Place
  | .settle =>
    c.channel.outgoing.settledPlaces c.channel.departures.upcoming c.channel.departures.acked
  | .receive r _ now =>
    if (c.channel.arrivals.record r.sequence).1.accepted then
      c.channel.outgoing.confirmedPlaces (c.channel.newly now r.packet.header)
    else []
  | _ => []

section
variable {c : Chronicle} {r : Dispatch}

theorem mem_recent :
    r ∈ c.recent ↔ ∃ k, ∃ hk : k < c.sent.length, c.sent.length ≤ k + 32 ∧ c.sent[k] = r := by
  simp only [recent, Window.size, List.mem_drop_iff_getElem]
  constructor
  · rintro ⟨j, hj, rfl⟩
    exact ⟨c.sent.length - 32 + j, by omega, by omega, rfl⟩
  · rintro ⟨k, hk, hrecent, rfl⟩
    refine ⟨k - (c.sent.length - 32), by omega, ?_⟩
    congr 1
    omega

theorem Reports.eq_of_position (h : c.Reports) {q : Dispatch} (hq : q ∈ c.recent)
    (hr : r ∈ c.recent) (hposition : q.position = r.position) : q = r := by
  obtain ⟨j, hj, hjrecent, rfl⟩ := mem_recent.mp hq
  obtain ⟨k, hk, hkrecent, rfl⟩ := mem_recent.mp hr
  have hsame := congrArg UInt8.toNat hposition
  rw [h.toNat_position hj, h.toNat_position hk] at hsame
  obtain rfl : j = k := by omega
  rfl

theorem confirmed_step (c : Chronicle) (a : Action) :
    (c.step a).confirmed = c.confirmed ++ c.confirmations (c.released a) := by
  cases a with
  | settle => rfl
  | enqueue p =>
    simp only [step, enqueue]
    split
    · exact (List.append_nil _).symm
    · exact (List.append_nil _).symm
  | build now => exact (List.append_nil _).symm
  | receive r size now =>
    simp only [step, receive, released]
    split
    · rfl
    · exact (List.append_nil _).symm
  | takeNotices => exact (List.append_nil _).symm

theorem Reachable.deliveredOf_step (h : Reachable Orderly c) {a : Action} (ha : c.Orderly a) :
    deliveredOf (c.step a).notices =
      deliveredOf c.notices ++
        ((c.released a).filterMap fun i => (c.outbox.slot i).inFlight?).map (·.envelope) := by
  have hbefore : c.confirmed.map (·.2) = deliveredOf c.notices := h.reported
  have hafter : (c.step a).confirmed.map (·.2) = deliveredOf (c.step a).notices :=
    (h.step ha).reported
  rw [← hafter, confirmed_step, List.map_append, hbefore, map_confirmations]

end

end Chronicle

namespace Dialogue

section
variable {d : Dialogue}

/-- A critical message in flight is in the packet that it names. -/
theorem Reachable.aboard_recent (h : d.Reachable Chronicle.Orderly) {i : Place} {m : Message}
    {packet : UInt8} (hs : d.left.outbox.slot i = .inFlight m packet) (hc : m.critical = true) :
    ∃ r ∈ d.left.recent, r.position = packet ∧ m ∈ r.packet.messages := by
  have hreports := h.left_reachable.reports
  obtain ⟨k, hk, hrecent, hposition, hcargo⟩ := h.left_reachable.labelled.aboard i m packet hs hc
  refine ⟨_, Chronicle.mem_recent.mpr ⟨k, hk, hrecent, rfl⟩, ?_, (List.of_mem_zip hcargo).1⟩
  exact UInt8.toNat_inj.mp (by rw [hreports.toNat_position hk, hposition])

theorem Reachable.released_accepted (h : d.Reachable Chronicle.Orderly)
    (hcount : d.left.sent.length ≤ 2 ^ 30) {a : Action} (hgenuine : Genuine d.right a) {i : Place}
    {m : Message} {packet : UInt8} (hi : i ∈ d.left.released a)
    (hs : d.left.outbox.slot i = .inFlight m packet) (hc : m.critical = true) :
    (d.left.step a).outbox.slot i = .free ∧
      ∃ r ∈ d.left.recent, r.position = packet ∧ m ∈ r.packet.messages ∧ r ∈ d.right.accepted := by
  have hintact := h.left_reachable.intact
  cases a with
  | settle =>
    have hplain :=
      hintact.settled_plain (Chronicle.mem_confirmations.mpr ⟨i, hi, m, packet, hs, rfl⟩)
    cases hplain.symm.trans hc
  | enqueue p => cases hi
  | build now => cases hi
  | takeNotices => cases hi
  | receive r size now =>
    simp only [Chronicle.released] at hi
    split at hi
    next haccepted =>
      obtain ⟨-, -, -, -, houtgoing, -⟩ :=
        d.left.channel.receive_accepted r.packet size now haccepted
      have hreleased :=
        Outgoing.released_confirmed hintact.held.ring (d.left.channel.newly now r.packet.header)
      refine ⟨?_, ?_⟩
      · show (d.left.receive r size now).channel.outgoing.outbox.slot i = _
        rw [Chronicle.receive_accepted haccepted, houtgoing, Outgoing.confirm_eq hintact.held.ring,
          hreleased.slot_eq, if_pos hi]
        show (d.left.outbox.slot i).released = _
        rw [hs]
        rfl
      · obtain ⟨k, hk, hrecent, hposition, hcargo, htaken⟩ :=
          h.confirms_accepted hcount hgenuine hi hs hc
        have hmember := Chronicle.mem_recent.mpr ⟨k, hk, hrecent, rfl⟩
        refine ⟨_, hmember, ?_, (List.of_mem_zip hcargo).1, htaken⟩
        exact UInt8.toNat_inj.mp (by rw [h.left_reachable.reports.toNat_position hk, hposition])
    next => cases hi

/-- A critical message in flight is in the one packet among the last 32 that it
names. Whatever a side does, the messages newly reported as delivered are those
in the slots that it releases, and a critical one among them was in a packet
that the other side accepted. -/
theorem released_only_accepted (h : d.Reachable Chronicle.Orderly)
    (hcount : d.left.sent.length ≤ 2 ^ 30) :
    (∀ i m packet, d.left.outbox.slot i = .inFlight m packet → m.critical = true →
      ∃ r ∈ d.left.recent, r.position = packet ∧ m ∈ r.packet.messages ∧
        ∀ q ∈ d.left.recent, q.position = packet → q = r) ∧
    ∀ a, d.left.Orderly a → Genuine d.right a →
      deliveredOf (d.left.step a).notices =
          deliveredOf d.left.notices ++
            ((d.left.released a).filterMap fun i => (d.left.outbox.slot i).inFlight?).map
              (·.envelope) ∧
        ∀ i ∈ d.left.released a, ∀ m packet, d.left.outbox.slot i = .inFlight m packet →
          m.critical = true →
          (d.left.step a).outbox.slot i = .free ∧
            ∃ r ∈ d.left.recent, r.position = packet ∧ m ∈ r.packet.messages ∧
            r ∈ d.right.accepted := by
  have hreports := h.left_reachable.reports
  refine ⟨?_, ?_⟩
  · intro i m packet hs hc
    obtain ⟨r, hr, hposition, hm⟩ := h.aboard_recent hs hc
    exact ⟨r, hr, hposition, hm, fun q hq hp =>
        hreports.eq_of_position hq hr (hp.trans hposition.symm)⟩
  · intro a ha hgenuine
    refine ⟨h.left_reachable.deliveredOf_step ha, ?_⟩
    intro i hi m packet hs hc
    exact h.released_accepted hcount hgenuine hi hs hc

end

open Turn

def secondTry : Dialogue :=
  ([queue true [7]] ++ (List.replicate 33 tick).flatten ++ [toRight 32] ++ tock).foldl play quiet

def lateAnswer : Dispatch :=
  { packet :=
      { header :=
        { protocol := Packet.protocolId, count := 0, sequence := 0, ack := 32, ackBits := 1 }
        messages := [] }
    numbers := []
    heard := [32] }

theorem released_only_accepted_secondTry :
    secondTry.left.released (.receive lateAnswer 0 0) = [Place.origin] ∧
      ∃ r ∈ secondTry.left.recent, r.position = 0 ∧ ⟨.data, true, 0, 0, [7]⟩ ∈ r.packet.messages ∧
        r ∈ secondTry.right.accepted := by
  have h : secondTry.Reachable Chronicle.Orderly := .playAll (.start _ _ _ _) (by decide +kernel)
  have hreleased : secondTry.left.released (.receive lateAnswer 0 0) = [Place.origin] := by
    decide +kernel
  have haction := (released_only_accepted h (by decide +kernel)).2 (.receive lateAnswer 0 0) trivial
    (by decide +kernel : lateAnswer ∈ secondTry.right.sent)
  exact ⟨hreleased, (haction.2 Place.origin (by rw [hreleased]; exact List.mem_singleton_self _) _ 0
    (by decide +kernel) (by decide +kernel)).2⟩

end Dialogue

end Courier
