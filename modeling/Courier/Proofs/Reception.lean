import Courier.Proofs.Host.Sides
import Courier.Proofs.Meeting
import Courier.Proofs.Network

/-!
# What is heard is what the decoder accepts

Hosts and guests take the datagrams of a tick one by one from a simulated
network. One that fits the buffer is processed exactly if its bytes are a packet,
and is otherwise only counted (`Endpoint.heard_as_decoded`). Of a longer one just
the front is seen, and that may be a packet although the whole is none
(`Endpoint.oversized_heard`).
-/

namespace Courier

/-- A datagram is processed exactly if its bytes are a packet, with all of them
counted, and otherwise discarded. -/
structure AsDecoded (bytes : Bytes) (processed : Packet → Nat → Prop)
    (discarded : Prop) : Prop where
  processed_iff : (∃ p size, processed p size) ↔ ∃ p, Packet.decode bytes = .ok p
  processed_whole : ∀ p, Packet.decode bytes = .ok p → processed p bytes.length
  discarded_else : ∀ e, Packet.decode bytes = .error e → discarded

theorem AsDecoded.of_apart {bytes : Bytes} {processed : Packet → Nat → Prop} {discarded : Prop}
    (hok : ∀ p, Packet.decode bytes = .ok p → processed p bytes.length)
    (herror : ∀ e, Packet.decode bytes = .error e → discarded)
    (hapart : ∀ p size, processed p size → ¬ discarded) : AsDecoded bytes processed discarded := by
  refine ⟨⟨fun ⟨p, size, hp⟩ => ?_, fun ⟨p, hp⟩ => ⟨p, _, hok p hp⟩⟩, hok, herror⟩
  cases hdecode : Packet.decode bytes with
  | ok q => exact ⟨q, rfl⟩
  | error e => exact absurd (herror e hdecode) (hapart p size hp)

theorem Datagram.cut_of_le {d : Datagram} {size : Nat} (h : d.bytes.length ≤ size) :
    d.cut size = d := by
  rw [cut, List.take_of_length_le h]

namespace Channel

variable (c : Channel)

/-- The number of packets that were processed, those seen before included. -/
def handled : Nat := c.traffic.packetsReceived + c.traffic.packetsDuplicate

@[simp] theorem handled_recordMalformed : c.recordMalformed.handled = c.handled := rfl

theorem handled_acknowledge (h : Header) (now : Time) :
    (c.acknowledge h now).handled = c.handled := by
  simp only [acknowledge]
  cases (c.departures.acknowledge h.ack h.ackBits now).1 with
  | applied newly => rfl
  | desync gap => rfl
  | ahead => rfl
  | stale => rfl

theorem handled_take (p : Packet) (size : Nat) (now : Time) :
    (c.take p size now).2.handled = c.handled + 1 :=
  (handled_acknowledge _ p.header now).trans (Nat.add_right_comm ..)

theorem handled_receive (p : Packet) (size : Nat) (now : Time) :
    (c.receive p size now).2.handled = c.handled + 1 := by
  simp only [receive]
  cases (c.arrivals.record p.header.sequence).1 with
  | fresh => exact handled_take _ p size now
  | late => exact handled_take _ p size now
  | resync gap => exact handled_take _ p size now
  | duplicate => rfl
  | stale => rfl

end Channel

-- ---------------------------------------------------------------------------
-- Hosts
-- ---------------------------------------------------------------------------

namespace Host

variable {σ δ : Type}

/-- A host that has heard the first `i` datagrams of a tick, with the deliveries
that wait to be handled. -/
def hearing [Transport σ] (h : Host δ) (net : σ) (now : Time) (i : Nat) :
    List (Address × Delivery) × Host δ :=
  h.settled.hearAll now ((Transport.receive net Packet.maxSize).1.datagrams.take i)

def countMalformed (h : Host δ) (source : Address) : Host δ :=
  match h.channel? source with
  | some c => h.setChannel c.recordMalformed
  | none => { h with malformed := h.malformed + 1 }

/-- The packet was received on the channel of its sender, which was created for
it if there was none. -/
structure Processed (source : Address) (p : Packet) (size : Nat) (now : Time)
    (x y : List (Address × Delivery) × Host δ) : Prop where
  deliveries_eq :
    y.1 = x.1 ++ (((x.2.channel? source).getD (.fresh source now)).receive p size now).1.map
      (source, ·)
  channel_eq :
    y.2.channel? source =
      some (((x.2.channel? source).getD (.fresh source now)).receive p size now).2
  others_eq : ∀ other, other ≠ source → y.2.channel? other = x.2.channel? other

/-- Nothing but a counter of malformed datagrams changed. -/
def Discarded (source : Address) (x y : List (Address × Delivery) × Host δ) : Prop :=
  y = (x.1, x.2.countMalformed source)

section
variable {h : Host δ} {source : Address} {d : Datagram} {p : Packet} {now : Time}
  {x y : List (Address × Delivery) × Host δ}

theorem hearAll_append (h : Host δ) (now : Time) (first second : List Datagram) :
    h.hearAll now (first ++ second) =
      ((h.hearAll now first).1 ++ ((h.hearAll now first).2.hearAll now second).1,
      ((h.hearAll now first).2.hearAll now second).2) := by
  induction first generalizing h with
  | nil => rfl
  | cons d rest ih => simp [Host.hearAll, ih]

theorem hearing_succ [Transport σ] {net : σ} {i : Nat}
    (hd : (Transport.receive net Packet.maxSize).1.datagrams[i]? = some d) :
    h.hearing net now (i + 1) =
      ((h.hearing net now i).1 ++ ((h.hearing net now i).2.hear d now).1.map (d.source, ·),
      ((h.hearing net now i).2.hear d now).2) := by
  simp only [hearing, List.take_add_one, hd, Option.toList_some, hearAll_append]
  simp [Host.hearAll]

theorem absorb_hearing [Transport σ] [Doorman δ] (h : Host δ) (net : σ) (now : Time) :
    let inflow := (Transport.receive net Packet.maxSize).1
    let heard := h.hearing net now inflow.datagrams.length
    h.absorb inflow now = (heard.1.foldl (fun h (peer, d) => h.handle peer d)
      (inflow.failure.elim heard.2 fun text =>
        heard.2.emit (.failed none (.transport text)))).expire now := by
  simp only [hearing, List.take_length]
  rfl

theorem channel?_countMalformed (h : Host δ) (source other : Address) :
    (h.countMalformed source).channel? other =
    if other = source then (h.channel? source).map (·.recordMalformed) else h.channel? other := by
  cases hc : h.channel? source with
  | none =>
    simp only [countMalformed, hc, Option.map_none]
    split
    next ho => exact ho ▸ hc
    · rfl
  | some c =>
    have hpeer : c.recordMalformed.peer = c.peer := rfl
    simp only [countMalformed, hc, Option.map_some]
    exact channel?_of_set hc hpeer rfl other

theorem Processed.not_discarded {size : Nat} (hp : Processed source p size now x y) :
    ¬ Discarded source x y := by
  rintro rfl
  have hchannel := hp.channel_eq
  rw [channel?_countMalformed, if_pos rfl] at hchannel
  cases hc : x.2.channel? source with
  | none => simp [hc] at hchannel
  | some c =>
    simp only [hc, Option.map_some, Option.getD_some, Option.some.injEq] at hchannel
    have hhandled := congrArg Channel.handled hchannel
    rw [Channel.handled_recordMalformed, Channel.handled_receive] at hhandled
    exact absurd hhandled (Nat.ne_of_lt (Nat.lt_succ_self _))

theorem processed_hear (hdecode : Packet.decode d.bytes = .ok p) (hroom : x.2.HasRoomFor d.source) :
    Processed d.source p d.bytes.length now x
      (x.1 ++ (x.2.hear d now).1.map (d.source, ·), (x.2.hear d now).2) := by
  have hothers : ∀ other, other ≠ d.source →
      (x.2.hear d now).2.channel? other = x.2.channel? other :=
    fun other hne => (unseen_hear (Ne.symm hne)).channel_eq
  revert hothers
  simp only [hear, hdecode]
  rcases hroom.obtain? now with ⟨c, hc, hobtain⟩ | ⟨hnone, hobtain⟩
  · rw [hobtain]
    have hpeer := (c.quiet_receive p d.bytes.length now).peer_eq
    refine fun hothers => ⟨?_, ?_, hothers⟩
    · rw [hc]
      rfl
    · rw [hc]
      exact (channel?_of_set hc hpeer rfl d.source).trans (if_pos rfl)
  · rw [hobtain]
    have hpeer := ((Channel.fresh d.source now).quiet_receive p d.bytes.length now).peer_eq
    refine fun hothers => ⟨?_, ?_, hothers⟩
    · rw [hnone]
      rfl
    · rw [hnone]
      exact (channel?_of_created hnone hpeer rfl d.source).trans (if_pos rfl)

theorem discarded_hear {e : PacketError} (hdecode : Packet.decode d.bytes = .error e) :
    Discarded d.source x (x.1 ++ (x.2.hear d now).1.map (d.source, ·), (x.2.hear d now).2) := by
  simp only [Discarded, hear, hdecode, countMalformed]
  cases x.2.channel? d.source with
  | none => simp
  | some c => simp

theorem hear_asDecoded (hroom : (Packet.decode d.bytes).isOk = true → x.2.HasRoomFor d.source)
    (hy : y = (x.1 ++ (x.2.hear d now).1.map (d.source, ·), (x.2.hear d now).2)) :
    AsDecoded d.bytes (Processed d.source · · now x y) (Discarded d.source x y) := by
  subst hy
  refine .of_apart (fun p hdecode => ?_) (fun e hdecode => discarded_hear hdecode) fun p size hp =>
    hp.not_discarded
  exact processed_hear hdecode (hroom (by rw [hdecode]; rfl))

end

end Host

-- ---------------------------------------------------------------------------
-- Guests
-- ---------------------------------------------------------------------------

namespace Guest

variable {σ : Type}

def settled (g : Guest) : Guest := { g with channel := g.channel.settle.2 }

/-- A guest that has heard the first `i` datagrams of a tick, with the deliveries
that wait to be handled. -/
def hearing [Transport σ] (g : Guest) (net : σ) (now : Time) (i : Nat) : List Delivery × Guest :=
  g.settled.hearAll now ((Transport.receive net Packet.maxSize).1.datagrams.take i)

def Processed (p : Packet) (size : Nat) (now : Time) (x y : List Delivery × Guest) : Prop :=
  let received := x.2.channel.receive p size now
  y = (x.1 ++ received.1, { x.2 with channel := received.2 })

def Discarded (x y : List Delivery × Guest) : Prop :=
  y = (x.1, { x.2 with channel := x.2.channel.recordMalformed })

section
variable {g : Guest} {d : Datagram} {now : Time} {x y : List Delivery × Guest}

theorem hearAll_append (g : Guest) (now : Time) (first second : List Datagram) :
    g.hearAll now (first ++ second) =
      ((g.hearAll now first).1 ++ ((g.hearAll now first).2.hearAll now second).1,
      ((g.hearAll now first).2.hearAll now second).2) := by
  induction first generalizing g with
  | nil => rfl
  | cons d rest ih => simp [Guest.hearAll, ih]

theorem hearing_succ [Transport σ] {net : σ} {i : Nat}
    (hd : (Transport.receive net Packet.maxSize).1.datagrams[i]? = some d) :
    g.hearing net now (i + 1) = ((g.hearing net now i).1 ++ ((g.hearing net now i).2.hear d now).1,
      ((g.hearing net now i).2.hear d now).2) := by
  simp only [hearing, List.take_add_one, hd, Option.toList_some, hearAll_append]
  simp [Guest.hearAll]

theorem absorb_hearing [Transport σ] (g : Guest) (net : σ) (now : Time) :
    let inflow := (Transport.receive net Packet.maxSize).1
    let heard := g.hearing net now inflow.datagrams.length
    g.absorb inflow now = ((heard.1.foldl handle
      (inflow.failure.elim heard.2 fun text => heard.2.emit (.failed (.transport text)))).expire
        now).proceed := by
  simp only [hearing, List.take_length]
  rfl

theorem server_hearAll (g : Guest) (now : Time) (datagrams : List Datagram) :
    (g.hearAll now datagrams).2.server = g.server := by
  induction datagrams generalizing g with
  | nil => rfl
  | cons d rest ih => exact (ih _).trans (g.server_hear d now)

theorem server_hearing [Transport σ] (g : Guest) (net : σ) (now : Time) (i : Nat) :
    (g.hearing net now i).2.server = g.server :=
  (server_hearAll ..).trans g.channel.quiet_settle.peer_eq

theorem Processed.not_discarded {p : Packet} {size : Nat} (hp : Processed p size now x y) :
    ¬ Discarded x y := by
  intro hdiscarded
  have hhandled := congrArg (fun y => y.2.channel.handled) (hp.symm.trans hdiscarded)
  simp only [Channel.handled_receive, Channel.handled_recordMalformed] at hhandled
  exact absurd hhandled (Nat.succ_ne_self _)

theorem hear_asDecoded (hsource : d.source = x.2.server)
    (hy : y = (x.1 ++ (x.2.hear d now).1, (x.2.hear d now).2)) :
    AsDecoded d.bytes (Processed · · now x y) (Discarded x y) := by
  subst hy
  refine .of_apart (fun p hdecode => ?_) (fun e hdecode => ?_) fun p size hp => hp.not_discarded
  · simp only [Processed, Guest.hear, if_pos hsource, Channel.accept, hdecode, Except.map]
  · simp only [Discarded, Guest.hear, if_pos hsource, Channel.accept, hdecode, Except.map,
      List.append_nil]

end

end Guest

-- ---------------------------------------------------------------------------
-- On a simulated network
-- ---------------------------------------------------------------------------

namespace Endpoint

section
variable {n : Network} {addr : Address} {d : Datagram} {i : Nat}

theorem host_hears_cut {δ : Type} (harrived : (n.arrived addr)[i]? = some d) (h : Host δ)
    (now : Time) :
    let e : Endpoint := { network := n, addr }
    ((Packet.decode (d.cut Packet.maxSize).bytes).isOk = true →
      (h.hearing e now i).2.HasRoomFor d.source) →
      AsDecoded (d.cut Packet.maxSize).bytes
        (Host.Processed d.source · · now (h.hearing e now i) (h.hearing e now (i + 1)))
        (Host.Discarded d.source (h.hearing e now i) (h.hearing e now (i + 1))) :=
  fun hroom => Host.hear_asDecoded (d := d.cut Packet.maxSize) hroom
    (Host.hearing_succ (Network.received_of_arrived harrived Packet.maxSize))

theorem guest_hears_cut (harrived : (n.arrived addr)[i]? = some d) (g : Guest)
    (hserver : d.source = g.server) (now : Time) :
    let e : Endpoint := { network := n, addr }
    AsDecoded (d.cut Packet.maxSize).bytes
      (Guest.Processed · · now (g.hearing e now i) (g.hearing e now (i + 1)))
      (Guest.Discarded (g.hearing e now i) (g.hearing e now (i + 1))) :=
  Guest.hear_asDecoded (d := d.cut Packet.maxSize) (hserver.trans (g.server_hearing ..).symm)
    (Guest.hearing_succ (Network.received_of_arrived harrived Packet.maxSize))

end

/-- Whatever has arrived at the address of a host or a guest was sent there. If it
fits the buffer, it is heard as decoding it whole says: by a host that has room
for a channel of its sender if it needs one, and by a guest if its server sent it. -/
theorem heard_as_decoded {n : Network} {sent : List Offer} (hn : n.Carries sent) {addr : Address}
    {i : Nat} {d : Datagram} (harrived : (n.arrived addr)[i]? = some d)
    (hfits : d.bytes.length ≤ Packet.maxSize) (now : Time) :
    let e : Endpoint := { network := n, addr }
    ⟨d.source, addr, d.bytes⟩ ∈ sent ∧
      (∀ {δ : Type} (h : Host δ),
        ((Packet.decode d.bytes).isOk = true → (h.hearing e now i).2.HasRoomFor d.source) →
          AsDecoded d.bytes
            (Host.Processed d.source · · now (h.hearing e now i) (h.hearing e now (i + 1)))
            (Host.Discarded d.source (h.hearing e now i) (h.hearing e now (i + 1)))) ∧
      ∀ g : Guest, d.source = g.server →
        AsDecoded d.bytes (Guest.Processed · · now (g.hearing e now i) (g.hearing e now (i + 1)))
          (Guest.Discarded (g.hearing e now i) (g.hearing e now (i + 1))) := by
  have hwhole := Datagram.cut_of_le hfits
  refine ⟨hn.genuine.of_arrived harrived, fun h hroom => ?_, fun g hserver => ?_⟩
  · have hheard := host_hears_cut harrived h now
    rw [hwhole] at hheard
    exact hheard hroom
  · have hheard := guest_hears_cut harrived g hserver now
    rwa [hwhole] at hheard

open Daybook (visitor greeting)
open Meeting (lobby)

def greeted : Bytes := greeting.encode.toOption.getD []

def opened : Network := { now := 0, inboxes := [(lobby, [])] }

theorem carries_opened : opened.Carries [] := (Network.Carries.start 0 .standard).bind rfl

def host : Host OpenDoor := .make {} {}

def guest : Guest where
  config := {}
  credentials := { user := "anonymous", password := "1234" }
  channel := .fresh visitor 0

def noisy : Network := (opened.send visitor lobby greeted).send visitor lobby [8, 0, 1]

theorem heard_as_decoded_noisy :
    let e : Endpoint := { network := noisy, addr := lobby }
    noisy.Carries [⟨visitor, lobby, [8, 0, 1]⟩, ⟨visitor, lobby, greeted⟩] ∧
      noisy.arrived lobby =
        [{ source := visitor, bytes := greeted }, { source := visitor, bytes := [8, 0, 1] }] ∧
      Packet.decode greeted = .ok greeting ∧ Packet.decode [8, 0, 1] = .error (.tooShort 3) ∧
      (Host.Processed visitor greeting 508 0 (host.hearing e 0 0) (host.hearing e 0 1) ∧
        Host.Discarded visitor (host.hearing e 0 1) (host.hearing e 0 2)) ∧
      Guest.Processed greeting 508 0 (guest.hearing e 0 0) (guest.hearing e 0 1) ∧
        Guest.Discarded (guest.hearing e 0 1) (guest.hearing e 0 2) := by
  have hcarries : noisy.Carries [⟨visitor, lobby, [8, 0, 1]⟩, ⟨visitor, lobby, greeted⟩] :=
    (carries_opened.send visitor lobby greeted).send visitor lobby [8, 0, 1]
  have harrived : noisy.arrived lobby =
      [{ source := visitor, bytes := greeted }, { source := visitor, bytes := [8, 0, 1] }] := by
        decide +kernel
  have hok : Packet.decode greeted = .ok greeting := by decide +kernel
  have herror : Packet.decode [8, 0, 1] = .error (.tooShort 3) := by decide +kernel
  obtain ⟨-, hhost, hguest⟩ :=
    heard_as_decoded hcarries (i := 0) (by rw [harrived]; rfl) (by decide +kernel) 0
  obtain ⟨-, hhost', hguest'⟩ :=
    heard_as_decoded hcarries (i := 1) (by rw [harrived]; rfl) (by decide +kernel) 0
  have hsize : greeted.length = 508 := by decide +kernel
  refine ⟨hcarries, harrived, hok, herror, ⟨?_, ?_⟩, ?_, ?_⟩
  · exact hsize ▸ (hhost host fun _ => by decide +kernel).processed_whole greeting hok
  · exact (hhost' host fun hpacket => by rw [herror] at hpacket; cases hpacket).discarded_else _
      herror
  · exact hsize ▸ (hguest guest rfl).processed_whole greeting hok
  · exact (hguest' guest rfl).discarded_else _ herror

def oversized : Network := opened.send visitor lobby (greeted ++ [0])

/-- One byte more than fits: the greeting is heard all the same. -/
theorem oversized_heard :
    let e : Endpoint := { network := oversized, addr := lobby }
    oversized.Carries [⟨visitor, lobby, greeted ++ [0]⟩] ∧
      oversized.arrived lobby = [{ source := visitor, bytes := greeted ++ [0] }] ∧
      Packet.decode (greeted ++ [0]) = .error (.tooLong 509) ∧
      (Host.Processed visitor greeting 508 0 (host.hearing e 0 0) (host.hearing e 0 1) ∧
        ¬ Host.Discarded visitor (host.hearing e 0 0) (host.hearing e 0 1)) ∧
      Guest.Processed greeting 508 0 (guest.hearing e 0 0) (guest.hearing e 0 1) ∧
        ¬ Guest.Discarded (guest.hearing e 0 0) (guest.hearing e 0 1) := by
  have harrived : oversized.arrived lobby = [{ source := visitor, bytes := greeted ++ [0] }] := by
    decide +kernel
  let d : Datagram := { source := visitor, bytes := greeted ++ [0] }
  have hcut : Packet.decode (d.cut Packet.maxSize).bytes = .ok greeting := by decide +kernel
  have hsize : (d.cut Packet.maxSize).bytes.length = 508 := by decide +kernel
  have hfirst : (oversized.arrived lobby)[0]? = some d := by rw [harrived]; rfl
  have hhost :=
    (host_hears_cut hfirst host 0 fun _ => by decide +kernel).processed_whole greeting hcut
  have hguest := (guest_hears_cut hfirst guest rfl 0).processed_whole greeting hcut
  refine ⟨carries_opened.send visitor lobby (greeted ++ [0]), harrived, by decide +kernel, ⟨?_, ?_⟩,
    ?_, ?_⟩
  · exact hsize ▸ hhost
  · exact hhost.not_discarded
  · exact hsize ▸ hguest
  · exact hguest.not_discarded

end Endpoint

end Courier
