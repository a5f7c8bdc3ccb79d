import Courier.Doorman
import Courier.Exchange
import Courier.Roster

/-!
# Hosts

A host holds one channel for each peer address. A peer is created by its first
valid packet and removed after the timeout. A doorman decides on credentials.
-/

namespace Courier

structure HostConfig where
  /-- Packets per second to every peer, one per tick. -/
  sendRate : Nat := 10
  maxPeers : Nat := 192
  timeout : Interval := Channel.defaultTimeout
  deriving Repr

inductive HostEvent where
  | connected (peer : Address)
  | timedOut (peer : Address)
  | rejected (peer : Address) (reason : String)
  | message (peer : Address) (d : Delivery)
  | notice (peer : Address) (n : Notice)
  | failed (peer : Option Address) (f : Fault)
  deriving DecidableEq, Repr

inductive SendError where
  | unknownPeer (peer : Address)
  | outbox (e : OutboxError)
  deriving DecidableEq, Repr

def SendError.message : SendError → String
  | .unknownPeer peer => "unknown peer " ++ peer.toText
  | .outbox e => "queue: " ++ e.message

namespace HostEvent

def peer? : HostEvent → Option Address
  | .connected peer | .timedOut peer | .rejected peer _ | .message peer _
  | .notice peer _ => some peer
  | .failed peer? _ => peer?

/-- Puts events in the order of their peers, those about no peer first. Events
about one peer keep their order. -/
def sortByPeer (events : List HostEvent) : List HostEvent :=
  let rank (e : HostEvent) : Nat := e.peer?.elim 0 fun peer => peer.rank + 1
  events.mergeSort fun x y => rank x ≤ rank y

end HostEvent

structure Host (δ : Type) where
  config : HostConfig
  roster : Roster
  doorman : δ
  running : Bool := true
  /-- Events that were not taken yet, oldest first. -/
  events : List HostEvent := []
  /-- When each address that was turned away was last reported. -/
  turnedAway : List (Address × Time) := []
  /-- The counters of removed peers. -/
  retired : Traffic := {}
  /-- Malformed datagrams from addresses without a channel. -/
  malformed : Nat := 0
  ticks : Nat := 0

namespace Host

variable {δ : Type}

def make (config : HostConfig) (doorman : δ) : Host δ :=
  { config, roster := { capacity := config.maxPeers, timeout := config.timeout }, doorman }

def stop (h : Host δ) : Host δ := { h with running := false }

def emit (h : Host δ) (e : HostEvent) : Host δ := { h with events := h.events ++ [e] }

def setChannel (h : Host δ) (c : Channel) : Host δ := { h with roster := h.roster.set c }

def channel? (h : Host δ) (peer : Address) : Option Channel := h.roster.find? peer

def takeEvents (h : Host δ) : List HostEvent × Host δ := (h.events, { h with events := [] })

def send (h : Host δ) (peer : Address) (kind : Kind) (critical : Bool) (payload : Bytes) :
    Except SendError UInt8 × Host δ :=
  match h.channel? peer with
  | none => (.error (.unknownPeer peer), h)
  | some c =>
    let (result, c) := c.enqueue kind critical payload
    (result.mapError .outbox, h.setChannel c)

/-- Queues a payload for every peer that plays and counts those that took it. -/
def broadcast (h : Host δ) (kind : Kind) (critical : Bool) (payload : Bytes) : Nat × Host δ :=
  let attempts := h.roster.channels.map fun c =>
    if c.phase = .playing then
      let (result, c) := c.enqueue kind critical payload
      (result.isOk, c)
    else (false, c)
  (attempts.countP (·.1), { h with roster := { h.roster with channels := attempts.map (·.2) } })

/-- Reports an address that found no room, at most once per timeout. -/
def turnAway (h : Host δ) (peer : Address) (reason : String) (now : Time) : Host δ :=
  let reported := h.turnedAway.any fun (addr, stamp) =>
    addr == peer && now.since stamp < h.config.timeout
  if reported then h
  else
    { h with turnedAway := (peer, now) :: h.turnedAway.filter (·.1 != peer) }.emit
      (.rejected peer reason)

def hear (h : Host δ) (d : Datagram) (now : Time) : List Delivery × Host δ :=
  match Packet.decode d.bytes with
  | .error _ =>
    match h.channel? d.source with
    | some c => ([], h.setChannel c.recordMalformed)
    | none => ([], { h with malformed := h.malformed + 1 })
  | .ok packet =>
    match h.roster.obtain? d.source now with
    | (.error e, _) => ([], h.turnAway d.source e.message now)
    | (.ok (c, created), roster) =>
      let h := { h with roster }
      let h := if created then h.emit (.connected d.source) else h
      let (deliveries, c) := c.receive packet d.bytes.length now
      (deliveries, h.setChannel c)

def hearAll (now : Time) : Host δ → List Datagram → List (Address × Delivery) × Host δ
  | h, [] => ([], h)
  | h, d :: rest =>
    let (first, h) := h.hear d now
    let (others, h) := hearAll now h rest
    (first.map (d.source, ·) ++ others, h)

/-- What a peer reads while its credentials are under review. -/
def checking : Bytes := Utf8.encode "Checking credentials"

/-- Answers a request to be let in. -/
def review [Doorman δ] (h : Host δ) (c : Channel) (credentials : Credentials) : Host δ :=
  let c := c.setPhase .asking
  let (_, c) := c.enqueue .data false checking
  let (accepted, doorman) := Doorman.admits h.doorman c.peer credentials
  let c := c.setPhase (if accepted then .admitted else .idle)
  let (result, c) := c.enqueue .verdict true (Verdict.encode accepted)
  let h := { h with doorman }.setChannel c
  match result with
  | .ok _ => h
  | .error e => h.emit (.failed c.peer (.outbox e))

/-- Requests count only from idle peers; data of an admitted peer makes it
play, and then everything else is passed on. -/
def handle [Doorman δ] (h : Host δ) (peer : Address) (d : Delivery) : Host δ :=
  match h.channel? peer with
  | none => h
  | some c =>
    if d.kind = .credentials then
      -- a peer that asks again, or plays already, gets no second review
      if c.phase = .idle then
        match Credentials.decode d.data with
        | .error e => h.emit (.failed peer (.payload e))
        | .ok credentials => h.review c credentials
      else h
    else if c.phase = .playing then h.emit (.message peer d)
    else if c.phase = .admitted ∧ d.kind = .data then
      (h.setChannel (c.setPhase .playing)).emit (.message peer d)
    else h

/-- Removes a silent peer: its counters are kept, its last notices reported. -/
def retire (h : Host δ) (c : Channel) : Host δ :=
  { h with
    retired := h.retired.add c.traffic
    events := h.events ++ c.notices.map (.notice c.peer) ++ [.timedOut c.peer] }

def expire (h : Host δ) (now : Time) : Host δ :=
  let (expired, roster) := h.roster.expire now
  let h := expired.foldl retire { h with roster }
  { h with turnedAway := h.turnedAway.filter fun entry => now.since entry.2 < h.config.timeout }

/-- Everything a tick does before it sends. -/
def absorb [Doorman δ] (h : Host δ) (inflow : Inflow) (now : Time) : Host δ :=
  let h := { h with roster := h.roster.map fun c => c.settle.2 }
  let (deliveries, h) := h.hearAll now inflow.datagrams
  let h := inflow.failure.elim h fun text => h.emit (.failed none (.transport text))
  (deliveries.foldl (fun h (peer, d) => h.handle peer d) h).expire now

def transmitAll {σ : Type} [Transport σ] (now : Time) :
    List Channel → σ → List HostEvent × List Channel × σ
  | [], net => ([], [], net)
  | c :: rest, net =>
    let (failure, c, net) := c.transmit net now
    let (events, channels, net) := transmitAll now rest net
    (failure.toList.map (fun text => .failed c.peer (.transport text)) ++ events, c :: channels,
      net)

def transmit {σ : Type} [Transport σ] (h : Host δ) (net : σ) (now : Time) : Host δ × σ :=
  let (events, channels, net) := transmitAll now h.roster.channels net
  ({ h with roster := { h.roster with channels }, events := h.events ++ events }, net)

def collect (h : Host δ) : Host δ :=
  { h with
    events := h.events ++ h.roster.channels.flatMap fun c => c.notices.map (.notice c.peer)
    roster := h.roster.map fun c => c.takeNotices.2 }

def tick {σ : Type} [Transport σ] [Doorman δ] (h : Host δ) (net : σ) (now : Time) : Host δ × σ :=
  let (inflow, net) := Transport.receive net Packet.maxSize
  let (h, net) := (h.absorb inflow now).transmit net now
  ({ h.collect with ticks := h.ticks + 1 }, net)

def traffic (h : Host δ) : Traffic :=
  let start := { h.retired with packetsMalformed := h.retired.packetsMalformed + h.malformed }
  (h.roster.channels.foldl (fun total c => total.add c.traffic) start).updateLoss

end Host

end Courier
