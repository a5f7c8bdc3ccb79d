import Courier.Proofs.Chronicle.Reports
import Courier.Proofs.Dialogue

/-!
# Acknowledgements are exact

Right after a side applied what a packet reports, it holds a recent packet for
acknowledged if and only if the other side had taken that in before it built
the packet.
-/

namespace Courier.Dialogue

section
variable {rule : Chronicle → Action → Prop} {d : Dialogue} {r : Dispatch}

theorem Reachable.exists_sent (h : d.Reachable rule) (hr : r ∈ d.left.sent) :
    ∃ k, ∃ hk : k < d.left.sent.length, d.left.sent[k] = r ∧ r.sequence = UInt32.ofNat k := by
  obtain ⟨k, hk, rfl⟩ := List.getElem_of_mem hr
  exact ⟨k, hk, rfl, h.left_reachable.reports.sequence_eq k hk⟩

theorem Reachable.heard_sent (h : d.Reachable rule) (hr : r ∈ d.right.sent) {s : UInt32}
    (hs : s ∈ r.heard) : ∃ k < d.left.sent.length, s = UInt32.ofNat k := by
  have hheard := h.right_reachable.reports.heard_subset r hr hs
  obtain ⟨q, hq, rfl⟩ := List.mem_map.mp hheard
  obtain ⟨k, hk, -, hsequence⟩ := h.exists_sent (h.swap.accepted_subset hq)
  exact ⟨k, hk, hsequence⟩

theorem Reachable.report (h : d.Reachable rule) (hcount : d.left.sent.length ≤ 2 ^ 30)
    (hr : r ∈ d.right.sent) :
    ∃ (a : Arrivals) (reference : Int),
      a.Tracks reference (r.heard.map fun s => (s.toNat : Int)) ∧ reference < 2 ^ 30 ∧
        r.packet.header.ack = a.newest ∧ r.packet.header.ackBits = a.seen := by
  obtain ⟨a, hfollows, hack, hbits⟩ := h.right_reachable.reports.report r hr
  have hsmall : ∀ s ∈ r.heard, s.toNat < 2 ^ 30 := by
    intro s hs
    obtain ⟨k, hk, rfl⟩ := h.heard_sent hr hs
    have hsize : UInt32.size = 2 ^ 32 := rfl
    rw [UInt32.toNat_ofNat_of_lt' (by omega)]
    omega
  obtain ⟨reference, htracks, hlt, -⟩ := hfollows hsmall
  exact ⟨a, reference, htracks, hlt, hack, hbits⟩

theorem mem_map_toNat {heard : List UInt32} {s : Nat} (hs : s < 2 ^ 32) :
    (s : Int) ∈ heard.map (fun t => (t.toNat : Int)) ↔ UInt32.ofNat s ∈ heard := by
  have hsize : UInt32.size = 2 ^ 32 := rfl
  rw [List.mem_map]
  constructor
  · rintro ⟨t, ht, heq⟩
    rwa [← Int.ofNat_inj.mp heq, UInt32.ofNat_toNat]
  · intro ht
    exact ⟨_, ht, by rw [UInt32.toNat_ofNat_of_lt' (by omega)]⟩

theorem Reachable.reported_iff (h : d.Reachable rule) (hcount : d.left.sent.length ≤ 2 ^ 30)
    (hr : r ∈ d.right.sent)
    (hgap : (d.left.channel.departures.sequence - r.packet.header.ack).toNat < 32) {s : Nat}
    (hs : s < d.left.sent.length) (hrecent : d.left.sent.length ≤ s + 32) :
    Window.has (d.left.channel.departures.reported r.packet.header.ack r.packet.header.ackBits)
      (UInt32.ofNat s) = true ↔ UInt32.ofNat s ∈ r.heard := by
  obtain ⟨a, reference, htracks, href, hack, hbits⟩ := h.report hcount hr
  rw [hack] at hgap
  rw [hack, hbits, ← mem_map_toNat (by omega)]
  exact Departures.acked_iff htracks href hcount h.left_reachable.reports.upcoming_eq hgap hs
    hrecent

/-- Whenever a side takes in a packet and applies what it reports, the side
holds each of its last 32 packets for acknowledged if and only if the other side
had taken that in when it built the packet. -/
theorem acknowledged_iff_heard {newly : UInt32} {s size : Nat} {now : Time}
    (h : d.Reachable Chronicle.Roomy) (hcount : d.left.sent.length ≤ 2 ^ 30) (hr : r ∈ d.right.sent)
    (haccepted : (d.left.channel.arrivals.record r.sequence).1.accepted = true)
    (happlied :
      (d.left.channel.departures.acknowledge r.packet.header.ack r.packet.header.ackBits now).1 =
      .applied newly)
    (hs : s < d.left.sent.length) (hrecent : d.left.sent.length ≤ s + 32) :
    (d.left.receive r size now).channel.departures.isAcked (Window.index (UInt32.ofNat s)) = true ↔
      UInt32.ofNat s ∈ r.heard := by
  obtain ⟨-, hdepartures, -⟩ := d.left.channel.receive_accepted r.packet size now haccepted
  obtain ⟨-, hcases⟩ := d.left.channel.departures.acknowledge_cases r.packet.header.ack
    r.packet.header.ackBits now
  rw [happlied] at hcases
  rcases hcases with ⟨hnot | hnot, -⟩ | ⟨hnot, -⟩ | ⟨-, hgap, hacked⟩
  · cases hnot
  · cases hnot
  · cases hnot
  · rw [Chronicle.receive_accepted haccepted]
    show Window.has (d.left.channel.receive r.packet size now).2.departures.acked _ = true ↔ _
    rw [hdepartures, hacked, Window.has_index]
    exact h.reported_iff hcount hr hgap hs hrecent

end

def greeting : Dialogue := [.left (.build 0), .toRight 0, .right (.build 0)].foldl play quiet

def answer : Dispatch :=
  { packet :=
      { header :=
          { protocol := Packet.protocolId, count := 0, sequence := 0, ack := 0,
            ackBits := 0xFFFFFFFF }
        messages := [] }
    numbers := []
    heard := [0] }

theorem acknowledged_iff_heard_answer :
    answer ∈ greeting.right.sent ∧
      ((greeting.left.receive answer 0 0).channel.departures.isAcked
        (Window.index (UInt32.ofNat 0)) = true ↔
        UInt32.ofNat 0 ∈ answer.heard) := by
  have h : greeting.Reachable Chronicle.Orderly := .playAll (.start _ _ _ _) (by decide +kernel)
  have hanswer : answer ∈ greeting.right.sent := by decide +kernel
  exact ⟨hanswer, acknowledged_iff_heard (h.mono fun _ _ ha => ha.roomy) (by decide +kernel) hanswer
    (by decide +kernel) (by decide +kernel : _ = AckOutcome.applied 1) (by decide +kernel)
    (by decide +kernel)⟩

end Courier.Dialogue
