import Courier.Proofs.Reception
import Courier.Proofs.Transport

/-!
# Two counters that nothing depends on

A guest counts the datagrams that it did not take in, and never reads these two
counters. Two guests that agree up to them do the same (`Agree.finish`), and a
datagram that is not taken in makes no other difference (`Agree.ignore`).
-/

namespace Courier

namespace Channel

def recount (c : Channel) (duplicate malformed : Nat) : Channel :=
  { c with
    traffic := { c.traffic with packetsDuplicate := duplicate, packetsMalformed := malformed } }

section
variable (c : Channel) (duplicate malformed : Nat) (now : Time)

theorem settle_recount :
    (c.recount duplicate malformed).settle.2 = c.settle.2.recount duplicate malformed := by
  have hsame : (c.recount duplicate malformed).outgoing.settle
        (c.recount duplicate malformed).departures.upcoming
        (c.recount duplicate malformed).departures.acked =
      c.outgoing.settle c.departures.upcoming c.departures.acked := rfl
  simp only [settle, hsame]
  cases (c.outgoing.settle c.departures.upcoming c.departures.acked).1 with
  | none => rfl
  | some loss => rfl

theorem setPhase_recount (phase : Phase) :
    (c.recount duplicate malformed).setPhase phase =
      (c.setPhase phase).recount duplicate malformed := by
  have hsame : (c.recount duplicate malformed).phase = c.phase := rfl
  simp only [setPhase, hsame]
  split
  · rfl
  · rfl

theorem enqueue_recount (kind : Kind) (critical : Bool) (payload : Bytes) :
    (c.recount duplicate malformed).enqueue kind critical payload =
      ((c.enqueue kind critical payload).1,
        (c.enqueue kind critical payload).2.recount duplicate malformed) := rfl

theorem note_recount (notices : List Notice) : (c.recount duplicate malformed).note notices =
    (c.note notices).recount duplicate malformed := rfl

theorem take_recount (p : Packet) (size : Nat) : (c.recount duplicate malformed).take p size now =
    ((c.take p size now).1, (c.take p size now).2.recount duplicate malformed) := by
  simp only [take, acknowledge, touch, recount]
  cases (c.departures.acknowledge p.header.ack p.header.ackBits now).1 with
  | applied newly => rfl
  | desync gap => rfl
  | ahead => rfl
  | stale => rfl

/-- A packet that is refused changes one of the counters, and no packet reads them. -/
theorem receive_recount (p : Packet) (size : Nat) :
    ∃ duplicate', (c.recount duplicate malformed).receive p size now =
      ((c.receive p size now).1, (c.receive p size now).2.recount duplicate' malformed) := by
  have hsame : (c.recount duplicate malformed).arrivals = c.arrivals := rfl
  have hrecorded (arrivals : Arrivals) : { c.recount duplicate malformed with arrivals } =
      ({ c with arrivals } : Channel).recount duplicate malformed := rfl
  simp only [receive, hsame]
  cases (c.arrivals.record p.header.sequence).1 with
  | fresh =>
    dsimp only
    rw [hrecorded]
    exact ⟨duplicate, take_recount _ duplicate malformed now p size⟩
  | resync gap =>
    dsimp only
    rw [hrecorded, note_recount]
    exact ⟨duplicate, take_recount _ duplicate malformed now p size⟩
  | late =>
    dsimp only
    rw [hrecorded]
    exact ⟨duplicate, take_recount _ duplicate malformed now p size⟩
  | duplicate => exact ⟨duplicate + 1, rfl⟩
  | stale => exact ⟨duplicate + 1, rfl⟩

theorem receive_ignored {p : Packet} (h : (c.arrivals.record p.header.sequence).1.accepted = false)
    (size : Nat) :
    (c.receive p size now).1 = [] ∧
      ∃ duplicate, (c.receive p size now).2 = c.recount duplicate c.traffic.packetsMalformed := by
  have harrivals := c.arrivals.record_refused p.header.sequence h
  simp only [receive, harrivals]
  generalize (c.arrivals.record p.header.sequence).1 = result at h
  cases result with
  | duplicate => exact ⟨rfl, _, rfl⟩
  | stale => exact ⟨rfl, _, rfl⟩
  | fresh => cases h
  | resync gap => cases h
  | late => cases h

theorem dispatched_recount : (c.recount duplicate malformed).dispatched now =
    (c.dispatched now).recount duplicate malformed := by
  have hsame : ((c.recount duplicate malformed).build now).1 = (c.build now).1 := rfl
  simp only [dispatched, hsame]
  split
  · rfl
  · rfl

end

end Channel

namespace Guest

def recount (g : Guest) (duplicate malformed : Nat) : Guest :=
  { g with channel := g.channel.recount duplicate malformed }

def Agree (g g' : Guest) : Prop := ∃ duplicate malformed, g' = g.recount duplicate malformed

/-- The datagram holds a packet of the server that the channel does not refuse. -/
def accepts (g : Guest) (d : Datagram) : Bool :=
  d.source == g.server &&
    match Packet.decode d.bytes with
    | .error _ => false
    | .ok p => (g.channel.arrivals.record p.header.sequence).1.accepted

def finish (g : Guest) (deliveries : List Delivery) (now : Time) : Guest :=
  ((deliveries.foldl handle g).expire now).proceed

section
variable {g g' : Guest} {d : Datagram} {now : Time}

theorem agree_self (g : Guest) : g.Agree g := ⟨_, _, rfl⟩

theorem Agree.use (hg : g.Agree g') (u : GuestUse) : (g.use u).Agree (g'.use u) := by
  obtain ⟨duplicate, malformed, rfl⟩ := hg
  refine ⟨duplicate, malformed, ?_⟩
  cases u with
  | send kind critical payload => rfl
  | takeEvents => rfl
  | stop => rfl

theorem Agree.settled (hg : g.Agree g') : g.settled.Agree g'.settled := by
  obtain ⟨duplicate, malformed, rfl⟩ := hg
  refine ⟨duplicate, malformed, ?_⟩
  simp only [Guest.settled, recount, Channel.settle_recount]

theorem Agree.hear (hg : g.Agree g') (d : Datagram) (now : Time) :
    (g'.hear d now).1 = (g.hear d now).1 ∧ (g.hear d now).2.Agree (g'.hear d now).2 := by
  obtain ⟨duplicate, malformed, rfl⟩ := hg
  have hsame : (g.recount duplicate malformed).server = g.server := rfl
  simp only [Guest.hear, Channel.accept, hsame]
  split
  · cases Packet.decode d.bytes with
    | error e => exact ⟨rfl, duplicate, malformed + 1, rfl⟩
    | ok p =>
      obtain ⟨duplicate', hreceive⟩ :=
        g.channel.receive_recount duplicate malformed now p d.bytes.length
      have hreceive : (g.recount duplicate malformed).channel.receive p d.bytes.length now = _ :=
        hreceive
      simp only [Except.map, hreceive]
      exact ⟨trivial, duplicate', malformed, rfl⟩
  · exact ⟨rfl, duplicate, malformed, rfl⟩

theorem hear_ignored (hd : g.accepts d = false) (now : Time) :
    (g.hear d now).1 = [] ∧ g.Agree (g.hear d now).2 := by
  simp only [Guest.hear, Channel.accept]
  split
  next hsource =>
    cases hdecode : Packet.decode d.bytes with
    | error e => exact ⟨rfl, g.channel.traffic.packetsDuplicate, _, rfl⟩
    | ok p =>
      simp only [accepts, hsource, beq_self_eq_true, Bool.true_and, hdecode] at hd
      obtain ⟨hnone, duplicate, hchannel⟩ := g.channel.receive_ignored now hd d.bytes.length
      simp only [Except.map, hnone, hchannel]
      exact ⟨trivial, duplicate, _, rfl⟩
  · exact ⟨rfl, g.agree_self⟩

theorem Agree.trans {g'' : Guest} (hg : g.Agree g') (hg' : g'.Agree g'') : g.Agree g'' := by
  obtain ⟨_, _, rfl⟩ := hg
  obtain ⟨duplicate, malformed, rfl⟩ := hg'
  exact ⟨duplicate, malformed, rfl⟩

theorem Agree.accepts (hg : g.Agree g') (d : Datagram) : g'.accepts d = g.accepts d := by
  obtain ⟨_, _, rfl⟩ := hg
  rfl

theorem Agree.ignore (hg : g.Agree g') (hd : g.accepts d = false) (now : Time) :
    (g'.hear d now).1 = [] ∧ g.Agree (g'.hear d now).2 := by
  rw [← hg.accepts d] at hd
  obtain ⟨hnone, hsame⟩ := hear_ignored hd now
  exact ⟨hnone, hg.trans hsame⟩

theorem Agree.handle (hg : g.Agree g') (x : Delivery) : (g.handle x).Agree (g'.handle x) := by
  obtain ⟨duplicate, malformed, rfl⟩ := hg
  have hsame : (g.recount duplicate malformed).phase = g.phase := rfl
  have hemitted (e : GuestEvent) :
      (g.recount duplicate malformed).emit e = (g.emit e).recount duplicate malformed := rfl
  have hchanged (k : Guest) (phase : Phase) :
    (k.recount duplicate malformed).channel.setPhase phase =
      (k.channel.setPhase phase).recount duplicate malformed :=
        k.channel.setPhase_recount duplicate malformed phase
  refine ⟨duplicate, malformed, ?_⟩
  simp only [Guest.handle, hsame, hemitted, hchanged]
  split
  · split
    · rfl
    · split
      · split
        · rfl
        · rfl
      · rfl
  · rfl

theorem Agree.handleAll (hg : g.Agree g') (xs : List Delivery) :
    (xs.foldl Guest.handle g).Agree (xs.foldl Guest.handle g') := by
  induction xs generalizing g g' with
  | nil => exact hg
  | cons x rest ih => exact ih (hg.handle x)

theorem Agree.expire (hg : g.Agree g') (now : Time) : (g.expire now).Agree (g'.expire now) := by
  obtain ⟨duplicate, malformed, rfl⟩ := hg
  have hsame : (g.recount duplicate malformed).channel.isTimedOut now
      (g.recount duplicate malformed).config.timeout =
      g.channel.isTimedOut now g.config.timeout := rfl
  simp only [Guest.expire, hsame]
  split
  · exact ⟨0, 0, rfl⟩
  · exact ⟨duplicate, malformed, rfl⟩

theorem Agree.proceed (hg : g.Agree g') : g.proceed.Agree g'.proceed := by
  obtain ⟨duplicate, malformed, rfl⟩ := hg
  have hphase : (g.recount duplicate malformed).phase = g.phase := rfl
  have hrejected : (g.recount duplicate malformed).rejected = g.rejected := rfl
  have hcredentials : (g.recount duplicate malformed).credentials = g.credentials := rfl
  have hchannel : (g.recount duplicate malformed).channel = g.channel.recount duplicate malformed :=
    rfl
  refine ⟨duplicate, malformed, ?_⟩
  simp only [Guest.proceed, hphase, hrejected, hcredentials, hchannel, Channel.enqueue_recount,
    Channel.setPhase_recount]
  generalize g.channel.enqueue .credentials true g.credentials.encode = queued
  obtain ⟨result, channel⟩ := queued
  split
  · split
    · rfl
    · cases result with
      | ok id =>
        exact congrArg (fun c => { g with channel := c })
          (channel.setPhase_recount _ _ .asking)
      | error e => rfl
  · rfl
  · rfl
  · rfl

theorem Agree.finish (hg : g.Agree g') (xs : List Delivery) (now : Time) :
    (g.finish xs now).Agree (g'.finish xs now) :=
  ((hg.handleAll xs).expire now).proceed

end

end Guest

end Courier
