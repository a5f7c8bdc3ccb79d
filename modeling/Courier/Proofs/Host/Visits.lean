import Courier.Proofs.Host.Sides

/-!
# When a host last heard of a peer

A visit of a peer begins when a channel is created for it and ends when that
channel is removed; both is told. In between the host remembers when it last
accepted a packet of the peer. `act_visit` lists all that a move can do to a
visit. A host never has more channels than it was configured for.
-/

namespace Courier

namespace HostEvent

def bounds (peer : Address) : HostEvent → Bool
  | .connected other | .timedOut other => other == peer
  | _ => false

def comings (peer : Address) (events : List HostEvent) : List HostEvent :=
  events.filter (·.bounds peer)

section
variable {peer : Address} {events : List HostEvent}

@[simp] theorem comings_append (first second : List HostEvent) :
    comings peer (first ++ second) = comings peer first ++ comings peer second :=
  List.filter_append first second

theorem comings_eq_nil (h : ∀ e ∈ events, e.bounds peer = false) : comings peer events = [] :=
  List.filter_eq_nil_iff.mpr fun e he => by simp [h e he]

theorem comings_about (events : List HostEvent) :
    comings peer (about peer events) = comings peer events := by
  rw [comings, about, List.filter_filter]
  refine List.filter_congr fun e _ => ?_
  cases e with
  | connected other => simp [bounds, peer?]
  | timedOut other => simp [bounds, peer?]
  | _ => rfl

end

end HostEvent

-- ---------------------------------------------------------------------------
-- Channels
-- ---------------------------------------------------------------------------

namespace Channel

section
variable (c : Channel) (p : Packet) (size : Nat) (now : Time)

theorem lastReceived_settle : c.settle.2.lastReceived = c.lastReceived := by
  simp only [settle]
  split
  · rfl
  · rfl

theorem lastReceived_acknowledge (h : Header) :
    (c.acknowledge h now).lastReceived = c.lastReceived := by
  simp only [acknowledge]
  cases (c.departures.acknowledge h.ack h.ackBits now).1 with
  | _ => rfl

theorem lastReceived_receive : (c.receive p size now).2.lastReceived =
    if (c.arrivals.record p.header.sequence).1.accepted then now else c.lastReceived := by
  have htake (d : Channel) : (d.take p size now).2.lastReceived = now :=
    lastReceived_acknowledge _ now p.header
  simp only [receive]
  cases (c.arrivals.record p.header.sequence).1 with
  | fresh => exact htake _
  | resync gap => exact htake _
  | late => exact htake _
  | duplicate => rfl
  | stale => rfl

theorem lastReceived_transmit {σ : Type} [Transport σ] (net : σ) :
    (c.transmit net now).2.1.lastReceived = c.lastReceived := by
  simp only [transmit]
  split
  · rfl
  · split
    · rfl
    · rfl

end

end Channel

namespace Host

open HostEvent (about bounds comings)

variable {σ δ : Type}

/-- When a packet of the peer was last accepted on its channel. -/
def lastHeard? (h : Host δ) (peer : Address) : Option Time := (h.channel? peer).map (·.lastReceived)

/-- The datagram holds a packet, its source has a channel or finds room for one,
and there the packet is not refused. -/
def accepts (h : Host δ) (d : Datagram) (now : Time) : Bool :=
  match Packet.decode d.bytes, (h.roster.obtain? d.source now).1 with
  | .ok p, .ok (c, _) => (c.arrivals.record p.header.sequence).1.accepted
  | _, _ => false

def heardAt? (h : Host δ) (peer : Address) : HostMove σ → Option Time
  | .hear d now => if d.source = peer ∧ h.accepts d now = true then some now else none
  | _ => none

/-- All that a move can do to the visit of a peer, with what is told about it. -/
inductive Visit (h : Host δ) (peer : Address) (m : HostMove σ) :
    Option Time → Option Time → List HostEvent → Prop
  | absent : h.heardAt? peer m = none → Visit h peer m none none []
  | opened {now : Time} : h.heardAt? peer m = some now →
      Visit h peer m none (some now) [.connected peer]
  | heard {t now : Time} : h.heardAt? peer m = some now → Visit h peer m (some t) (some now) []
  | stayed {t : Time} : h.heardAt? peer m = none →
      (∀ now, m = .expire now → ¬ h.roster.timeout < now.since t) →
    Visit h peer m (some t) (some t) []
  | closed {t now : Time} : m = .expire now → h.roster.timeout < now.since t →
    Visit h peer m (some t) none [.timedOut peer]

structure Still (peer : Address) (h k : Host δ) : Prop where
  lastHeard_eq : k.lastHeard? peer = h.lastHeard? peer
  comings_eq : comings peer k.events = comings peer h.events

section
variable {peer other : Address} {h k : Host δ} {c c' : Channel} {e : HostEvent} {d : Datagram}
  {now : Time}

theorem still_self (h : Host δ) : Still peer h h := ⟨rfl, rfl⟩

theorem Still.emit (hk : Still peer h k) (he : e.bounds peer = false) :
    Still peer h (k.emit e) := by
  have hnone : comings peer [e] = [] := HostEvent.comings_eq_nil (by simpa using he)
  refine ⟨hk.lastHeard_eq, ?_⟩
  rw [Host.emit, HostEvent.comings_append, hnone, List.append_nil]
  exact hk.comings_eq

theorem Still.of_unseen (hk : Unseen peer h k) : Still peer h k := by
  refine ⟨by rw [lastHeard?, lastHeard?, hk.channel_eq], ?_⟩
  rw [← HostEvent.comings_about k.events, hk.about_eq, HostEvent.comings_about]

theorem still_set (hc : h.channel? other = some c) (hpeer : c'.peer = c.peer)
    (hlast : c'.lastReceived = c.lastReceived) : Still peer h (h.setChannel c') := by
  refine ⟨?_, rfl⟩
  rw [lastHeard?, channel?_of_set hc hpeer rfl]
  split
  next heq => rw [lastHeard?, heq, hc, Option.map_some, Option.map_some, hlast]
  · rfl

theorem still_map {f : Channel → Channel} (hpeer : ∀ c, (f c).peer = c.peer)
    (hlast : ∀ c, (f c).lastReceived = c.lastReceived) :
    Still peer h { h with roster := h.roster.map f } := by
  refine ⟨?_, rfl⟩
  show ((h.roster.map f).find? peer).map (·.lastReceived) = _
  rw [Roster.find?_map _ hpeer, Option.map_map]
  exact congrArg (Option.map · _) (funext hlast)

theorem visit_of_eq {m : HostMove σ} (hlast : k.lastHeard? peer = h.lastHeard? peer)
    (hheard : h.heardAt? peer m = none) (hm : ∀ now, m ≠ .expire now) :
    Visit h peer m (h.lastHeard? peer) (k.lastHeard? peer) [] := by
  rw [hlast]
  cases h.lastHeard? peer with
  | none => exact .absent hheard
  | some t => exact .stayed hheard fun now heq => absurd heq (hm now)

theorem Still.visit {m : HostMove σ} (hk : Still peer h k) (hheard : h.heardAt? peer m = none)
    (hm : ∀ now, m ≠ .expire now) : ∃ x, comings peer k.events = comings peer h.events ++ x ∧
      Visit h peer m (h.lastHeard? peer) (k.lastHeard? peer) x :=
  ⟨[], by rw [hk.comings_eq, List.append_nil], visit_of_eq hk.lastHeard_eq hheard hm⟩

-- ---------------------------------------------------------------------------
-- Datagrams
-- ---------------------------------------------------------------------------

theorem still_turnAway (h : Host δ) (other : Address) (reason : String) (now : Time) :
    Still peer h (h.turnAway other reason now) := by
  simp only [turnAway]
  split
  · exact h.still_self
  · exact .emit ⟨rfl, rfl⟩ rfl

theorem still_hear (hrefused : h.accepts d now = false) : Still peer h (h.hear d now).2 := by
  simp only [accepts] at hrefused
  simp only [hear]
  cases hdecode : Packet.decode d.bytes with
  | error e =>
    cases hc : h.channel? d.source with
    | none => exact ⟨rfl, rfl⟩
    | some c => exact still_set hc rfl rfl
  | ok packet =>
    rcases h.roster.obtain?_cases d.source now with ⟨e, hobtain⟩ | ⟨c, hc, hobtain⟩ | ⟨-, hobtain⟩
    · simp only [hobtain]
      exact h.still_turnAway d.source e.message now
    · simp only [hdecode, hobtain] at hrefused
      simp only [hobtain]
      refine still_set hc (c.quiet_receive packet _ now).peer_eq ?_
      rw [Channel.lastReceived_receive, hrefused, if_neg Bool.false_ne_true]
    · -- the first packet of a channel is never refused
      have hfirst :
          ((Channel.fresh d.source now).arrivals.record packet.header.sequence).1 = .fresh := rfl
      simp [hdecode, hobtain, hfirst, Arrival.accepted] at hrefused

/-- A packet that is accepted opens a visit or prolongs it. -/
theorem hear_accepted (haccepts : h.accepts d now = true) :
    (h.hear d now).2.lastHeard? d.source = some now ∧
      (h.hear d now).2.events =
        h.events ++ if (h.lastHeard? d.source).isSome then [] else [.connected d.source] := by
  simp only [accepts] at haccepts
  simp only [hear]
  cases hdecode : Packet.decode d.bytes with
  | error e => simp [hdecode] at haccepts
  | ok packet =>
    rcases h.roster.obtain?_cases d.source now with ⟨e, hobtain⟩ | ⟨c, hc, hobtain⟩
      | ⟨hnone, hobtain⟩
    · simp [hdecode, hobtain] at haccepts
    · simp only [hdecode, hobtain] at haccepts
      have hchannel : h.channel? d.source = some c := hc
      have hlast : (c.receive packet d.bytes.length now).2.lastReceived = now := by
        rw [Channel.lastReceived_receive, if_pos haccepts]
      simp only [hobtain]
      constructor
      · rw [lastHeard?, channel?_of_set hchannel (c.quiet_receive packet _ now).peer_eq rfl,
          if_pos rfl, Option.map_some, hlast]
      · simp [lastHeard?, hchannel, setChannel]
    · simp only [hdecode, hobtain] at haccepts
      have hchannel : h.channel? d.source = none := hnone
      have hlast : ((Channel.fresh d.source now).receive packet d.bytes.length now).2.lastReceived =
          now := by
        rw [Channel.lastReceived_receive, if_pos haccepts]
      simp only [hobtain, if_true]
      constructor
      · rw [lastHeard?,
          channel?_of_created hchannel (Channel.quiet_receive _ packet _ now).peer_eq rfl,
          if_pos rfl, Option.map_some, hlast]
      · simp [lastHeard?, hchannel, setChannel, Host.emit]

theorem hear_visit (h : Host δ) (d : Datagram) (now : Time) (peer : Address) :
    ∃ x, comings peer (h.hear d now).2.events = comings peer h.events ++ x ∧
      Visit h peer (.hear d now : HostMove σ) (h.lastHeard? peer)
        ((h.hear d now).2.lastHeard? peer) x := by
  by_cases hheard : d.source = peer ∧ h.accepts d now = true
  · obtain ⟨rfl, haccepts⟩ := hheard
    obtain ⟨hlast, hevents⟩ := hear_accepted haccepts
    have hheard : h.heardAt? d.source (.hear d now : HostMove σ) = some now := by
      simp [heardAt?, haccepts]
    rw [hlast, hevents, HostEvent.comings_append]
    cases h.lastHeard? d.source with
    | none => exact ⟨_, rfl, by simpa [comings, bounds] using .opened hheard⟩
    | some t => exact ⟨_, rfl, .heard hheard⟩
  · refine Still.visit ?_ (if_neg hheard) (by simp)
    by_cases hsource : d.source = peer
    · exact still_hear (by simpa [hsource] using hheard)
    · exact .of_unseen (unseen_hear hsource)

/-- Exactly the channels that were silent for too long are removed. -/
theorem expire_visit (hd : h.roster.Distinct) (now : Time) (peer : Address) :
    ∃ x, comings peer (h.expire now).events = comings peer h.events ++ x ∧
      Visit h peer (.expire now : HostMove σ) (h.lastHeard? peer)
        ((h.expire now).lastHeard? peer) x := by
  have hchannel : (h.expire now).channel? peer =
      (h.channel? peer).filter fun c => !c.isTimedOut now h.roster.timeout := by
    rw [channel?, (h.expire_spec now).1, hd.find?_expire]
    rfl
  have hfarewell : comings peer (h.farewell now) = (h.channel? peer).toList.flatMap fun c =>
      if c.isTimedOut now h.roster.timeout then comings peer [.timedOut c.peer] else [] := by
    rw [← HostEvent.comings_about, about_farewell hd]
    cases h.channel? peer with
    | none => rfl
    | some c =>
      simp only [Option.toList_some, List.flatMap_singleton]
      split
      · rw [HostEvent.comings_append, HostEvent.comings_eq_nil, List.nil_append]
        simp [bounds]
      · rfl
  refine ⟨_, by rw [events_expire, HostEvent.comings_append, hfarewell], ?_⟩
  rw [lastHeard?, lastHeard?, hchannel]
  cases hc : h.channel? peer with
  | none => exact .absent rfl
  | some c =>
    have hpeer : c.peer = peer := Roster.peer_of_find? hc
    simp only [Option.toList_some, List.flatMap_singleton, Option.filter_some]
    cases hsilent : c.isTimedOut now h.roster.timeout with
    | true =>
      have hover : h.roster.timeout < now.since c.lastReceived := by
        simpa [Channel.isTimedOut] using hsilent
      simpa [hpeer, comings, bounds] using Visit.closed rfl hover
    | false =>
      have hkept : ¬ h.roster.timeout < now.since c.lastReceived := by
        simpa [Channel.isTimedOut] using hsilent
      refine .stayed rfl fun _ heq => ?_
      obtain rfl := HostMove.expire.inj heq
      exact hkept

-- ---------------------------------------------------------------------------
-- All other moves
-- ---------------------------------------------------------------------------

theorem still_send (h : Host δ) (kind : Kind) (critical : Bool) (payload : Bytes) :
    Still peer h (h.send other kind critical payload).2 := by
  rcases h.send_cases other kind critical payload with hsend | ⟨c, hc, hsend⟩
  · rw [hsend]
    exact h.still_self
  · rw [hsend]
    exact still_set hc rfl rfl

theorem still_broadcast (h : Host δ) (kind : Kind) (critical : Bool) (payload : Bytes) :
    Still peer h (h.broadcast kind critical payload).2 := by
  simp only [broadcast, List.map_map]
  refine still_map (fun c => ?_) fun c => ?_
  · simp only [Function.comp_apply]
    split
    · rfl
    · rfl
  · simp only [Function.comp_apply]
    split
    · rfl
    · rfl

theorem still_collect (h : Host δ) (ticks : Nat) : Still peer h { h.collect with ticks } := by
  have hnotices :
      comings peer (h.roster.channels.flatMap fun c => c.notices.map (.notice c.peer)) = [] := by
    refine HostEvent.comings_eq_nil fun e he => ?_
    obtain ⟨c, -, hc⟩ := List.mem_flatMap.mp he
    obtain ⟨n, -, rfl⟩ := List.mem_map.mp hc
    rfl
  have htaken : Still peer h { h with roster := h.roster.map fun c => c.takeNotices.2 } :=
    still_map (fun c => rfl) fun c => rfl
  refine ⟨htaken.lastHeard_eq, ?_⟩
  simp only [collect, HostEvent.comings_append, hnotices, List.append_nil]

section
variable [Transport σ]

theorem still_transmit (h : Host δ) (net : σ) (now : Time) :
    Still peer h (h.transmit net now).1 := by
  have hrel : List.Forall₂ (fun c c' => c'.peer = c.peer ∧ c'.lastReceived = c.lastReceived)
      h.roster.channels (transmitAll now h.roster.channels net).2.1 :=
    forall₂_transmitAll
      (fun c net => ⟨(c.quiet_transmit net now).peer_eq, c.lastReceived_transmit now net⟩) _ net
  have hnone : comings peer (transmitAll now h.roster.channels net).1 = [] := by
    refine HostEvent.comings_eq_nil fun e he => ?_
    obtain ⟨other, text, rfl⟩ := failed_of_mem_transmitAll he
    rfl
  constructor
  · have hfound : h.roster.find? peer = none ∧ (h.transmit net now).1.roster.find? peer = none ∨
        ∃ c c', h.roster.find? peer = some c ∧ (h.transmit net now).1.roster.find? peer = some c' ∧
          (c'.peer = c.peer ∧ c'.lastReceived = c.lastReceived) :=
      Roster.find?_forall₂ hrel (fun _ _ hc => hc.1) peer
    rcases hfound with ⟨hc, hc'⟩ | ⟨c, c', hc, hc', -, hlast⟩
    · rw [lastHeard?, lastHeard?, channel?, channel?, hc, hc']
    · rw [lastHeard?, lastHeard?, channel?, channel?, hc, hc', Option.map_some, Option.map_some,
        hlast]
  · rw [transmit, HostEvent.comings_append, hnone, List.append_nil]

end

section
variable [Doorman δ]

theorem still_review (credentials : Credentials) (hc : h.channel? other = some c) :
    Still peer h (h.review c credentials) := by
  have hset {door : δ} (c' : Channel) (hpeer : c'.peer = c.peer)
      (hlast : c'.lastReceived = c.lastReceived) :
      Still peer h (Host.setChannel { h with doorman := door } c') := by
    have hstill : Still peer h (h.setChannel c') := still_set hc hpeer hlast
    exact ⟨hstill.lastHeard_eq, hstill.comings_eq⟩
  simp only [review]
  split
  · exact hset _ (by simp) (by simp [Channel.enqueue, Channel.lastReceived_setPhase])
  · exact (hset _ (by simp) (by simp [Channel.enqueue, Channel.lastReceived_setPhase])).emit rfl

theorem still_handle (h : Host δ) (delivery : Delivery) :
    Still peer h (h.handle other delivery) := by
  rw [handle]
  cases hc : h.channel? other with
  | none => exact h.still_self
  | some c =>
    dsimp only
    split
    · split
      · split
        · exact h.still_self.emit rfl
        · exact still_review _ hc
      · exact h.still_self
    · split
      · exact h.still_self.emit rfl
      · split
        · exact (still_set hc (by simp) (c.lastReceived_setPhase .playing)).emit rfl
        · exact h.still_self

end

end

-- ---------------------------------------------------------------------------
-- Every move
-- ---------------------------------------------------------------------------

section
variable [Transport σ] [Doorman δ] {h : Host δ}

theorem act_visit (hd : h.roster.Distinct) {m : HostMove σ} (htake : m ≠ .takeEvents)
    (peer : Address) :
    ∃ x, comings peer (h.act m).events = comings peer h.events ++ x ∧
      Visit h peer m (h.lastHeard? peer) ((h.act m).lastHeard? peer) x := by
  cases m with
  | settle =>
    exact Still.visit (still_map (fun c => c.quiet_settle.peer_eq) Channel.lastReceived_settle) rfl
      (by simp)
  | hear d now => exact h.hear_visit d now peer
  | fail text => exact Still.visit (h.still_self.emit rfl) rfl (by simp)
  | handle other d => exact Still.visit (h.still_handle d) rfl (by simp)
  | expire now => exact expire_visit hd now peer
  | transmit net now => exact Still.visit (h.still_transmit net now) rfl (by simp)
  | collect => exact Still.visit (h.still_collect _) rfl (by simp)
  | send other kind critical payload =>
    exact Still.visit (h.still_send kind critical payload) rfl (by simp)
  | broadcast kind critical payload =>
    exact Still.visit (h.still_broadcast kind critical payload) rfl (by simp)
  | takeEvents => exact absurd rfl htake
  | stop => exact Still.visit ⟨rfl, rfl⟩ rfl (by simp)

end

-- ---------------------------------------------------------------------------
-- Limits
-- ---------------------------------------------------------------------------

structure Configured (config : HostConfig) (h : Host δ) : Prop where
  config_eq : h.config = config
  capacity_eq : h.roster.capacity = config.maxPeers
  timeout_eq : h.roster.timeout = config.timeout
  size_le : h.roster.size ≤ config.maxPeers

section
variable {config : HostConfig} {h k : Host δ}

theorem configured_make (config : HostConfig) (doorman : δ) :
    Configured config (Host.make config doorman) :=
  ⟨rfl, rfl, rfl, Nat.zero_le _⟩

theorem Configured.of_eq (hh : Configured config h) (hconfig : k.config = h.config)
    (hroster : k.roster = h.roster) : Configured config k where
  config_eq := hconfig.trans hh.config_eq
  capacity_eq := hroster ▸ hh.capacity_eq
  timeout_eq := hroster ▸ hh.timeout_eq
  size_le := hroster ▸ hh.size_le

theorem Configured.emit (hh : Configured config h) (e : HostEvent) : Configured config (h.emit e) :=
  hh.of_eq rfl rfl

theorem Configured.set (hh : Configured config h) (c : Channel) :
    Configured config (h.setChannel c) :=
  { hh with size_le := by simpa [setChannel] using hh.size_le }

theorem Configured.channels (hh : Configured config h) {channels : List Channel}
    (hsize : channels.length ≤ h.roster.channels.length) :
    Configured config { h with roster := { h.roster with channels } } :=
  { hh with size_le := hsize.trans hh.size_le }

theorem Configured.turnAway (hh : Configured config h) (other : Address) (reason : String)
    (now : Time) : Configured config (h.turnAway other reason now) := by
  simp only [Host.turnAway]
  split
  · exact hh
  · exact hh.of_eq rfl rfl

theorem Configured.hear (hh : Configured config h) (d : Datagram) (now : Time) :
    Configured config (h.hear d now).2 := by
  simp only [Host.hear]
  cases Packet.decode d.bytes with
  | error e =>
    cases h.channel? d.source with
    | none => exact hh.of_eq rfl rfl
    | some c => exact hh.set _
  | ok packet =>
    cases hc : h.roster.find? d.source with
    | some c =>
      have hobtain : h.roster.obtain? d.source now = (.ok (c, false), h.roster) := by
        simp [Roster.obtain?, hc]
      simp only [hobtain]
      exact hh.set _
    | none =>
      by_cases hfull : h.roster.capacity ≤ h.roster.size
      · have hobtain : h.roster.obtain? d.source now = (.error ⟨h.roster.capacity⟩, h.roster) := by
          simp [Roster.obtain?, hc, hfull]
        simp only [hobtain]
        exact hh.turnAway _ _ _
      · have hobtain : h.roster.obtain? d.source now = (.ok (.fresh d.source now, true),
            { h.roster with channels := h.roster.channels ++ [.fresh d.source now] }) := by
          simp [Roster.obtain?, hc, hfull]
        have hgrown : Configured config
            { h with
              roster := { h.roster with
                channels := h.roster.channels ++ [.fresh d.source now] } } := by
          refine { hh with size_le := ?_ }
          rw [← hh.capacity_eq]
          simpa [Roster.size] using Nat.succ_le_of_lt (Nat.not_le.mp hfull)
        simp only [hobtain, if_true]
        exact (hgrown.emit _).set _

theorem config_retire_all (h : Host δ) (expired : List Channel) :
    (expired.foldl retire h).config = h.config := by
  induction expired generalizing h with
  | nil => rfl
  | cons c rest ih => exact ih _

theorem Configured.expire (hh : Configured config h) (now : Time) :
    Configured config (h.expire now) := by
  have hkept : Configured config { h with roster := (h.roster.expire now).2 } := by
    simp only [Roster.expire, List.partition_eq_filter_filter]
    exact hh.channels (List.length_filter_le _ _)
  exact hkept.of_eq (config_retire_all _ _) (h.expire_spec now).1

variable [Doorman δ]

theorem Configured.review (hh : Configured config h) (c : Channel) (credentials : Credentials) :
    Configured config (h.review c credentials) := by
  have hanswered (door : δ) : Configured config { h with doorman := door } := hh.of_eq rfl rfl
  simp only [Host.review]
  split
  · exact (hanswered _).set _
  · exact ((hanswered _).set _).emit _

theorem Configured.handle (hh : Configured config h) (peer : Address) (d : Delivery) :
    Configured config (h.handle peer d) := by
  rw [Host.handle]
  split
  · exact hh
  · split
    · split
      · split
        · exact hh.emit _
        · exact hh.review _ _
      · exact hh
    · split
      · exact hh.emit _
      · split
        · exact (hh.set _).emit _
        · exact hh

theorem Configured.act [Transport σ] (hh : Configured config h) (m : HostMove σ) :
    Configured config (h.act m) := by
  cases m with
  | settle => exact hh.channels (by simp)
  | hear d now => exact hh.hear d now
  | fail text => exact hh.emit _
  | handle peer d => exact hh.handle peer d
  | expire now => exact hh.expire now
  | transmit net now =>
    have hlength := (quiet_transmitAll now h.roster.channels net).1.length_eq
    exact (hh.channels hlength.ge).of_eq rfl rfl
  | collect => exact (hh.channels (by simp)).of_eq rfl rfl
  | send peer kind critical payload =>
    rw [Host.act]
    rcases h.send_cases peer kind critical payload with hsend | ⟨c, -, hsend⟩
    · rw [hsend]
      exact hh
    · rw [hsend]
      exact hh.set _
  | broadcast kind critical payload => exact hh.channels (by simp)
  | takeEvents => exact hh.of_eq rfl rfl
  | stop => exact hh.of_eq rfl rfl

end

end Host

end Courier
