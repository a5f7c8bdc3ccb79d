import Courier.Metronome
import Courier.Network.Conditions
import Courier.Text.Quantity
import Courier.Wording

/-!
# The server program

A host that lets everyone in, reports its events in words and describes its
state for display.
-/

namespace Courier

structure ServerConfig where
  sendRate : Nat := 10
  maxPeers : Nat := 192
  timeout : Interval := Channel.defaultTimeout
  journalSize : Nat := 200
  /-- What outgoing datagrams meet. -/
  conditions : Option Conditions := none

def ServerConfig.hostConfig (c : ServerConfig) : HostConfig :=
  { sendRate := max c.sendRate 1, maxPeers := c.maxPeers, timeout := c.timeout }

structure ServerStatus where
  tick : Nat
  peers : Nat
  playing : Nat
  maxPeers : Nat
  traffic : Traffic

structure PeerStatus where
  peer : String
  phase : Phase
  sequence : UInt32
  peerSequence : UInt32
  queued : Nat
  inFlight : Nat
  lossPercent : Float32
  roundTrip : Float32

def Channel.status (c : Channel) : PeerStatus :=
  { peer := c.peer.toText
    phase := c.phase
    sequence := c.departures.sequence
    peerSequence := c.arrivals.newest
    queued := c.outbox.length
    inFlight := c.outbox.inFlightCount
    lossPercent := c.traffic.lossPercent
    roundTrip := c.departures.roundTrip.smoothed }

structure Server where
  config : ServerConfig
  host : Host OpenDoor

namespace Server

def make (config : ServerConfig) : Server := { config, host := .make config.hostConfig {} }

def tick {σ : Type} [Transport σ] (s : Server) (net : σ) (now : Time) : Server × σ :=
  let (host, net) := s.host.tick net now
  ({ s with host }, net)

def takeEvents (s : Server) : List HostEvent × Server :=
  let (events, host) := s.host.takeEvents
  (events, { s with host })

def status (s : Server) : ServerStatus :=
  let roster := s.host.roster
  { tick := s.host.ticks
    peers := roster.size
    playing := roster.countIn .playing
    maxPeers := roster.capacity
    traffic := s.host.traffic }

def peerStatuses (s : Server) : List PeerStatus :=
  (s.host.roster.channels.map Channel.status).mergeSort fun x y => x.peer ≤ y.peer

/-- Ticks until the host is stopped, for `budget` ticks at most. The transport
may ask to stop while a tick is under way, which is then the last. Returns the
report that is shown without details. -/
def run {σ : Type} [Transport σ] (halted : σ → Bool) :
    (budget : Nat) → Metronome → Server → σ → List Line × Server × σ
  | 0, _, s, net => ([], s, net)
  | budget + 1, metronome, s, net =>
    if s.host.running then
      let (now, metronome) := metronome.wait metronome.nextTick
      let (s, net) := s.tick net now
      let (events, s) := s.takeEvents
      let s := if halted net then { s with host := s.host.stop } else s
      let (rest, s, net) := run halted budget metronome s net
      ((events.map Wording.hostEvent).filter (·.level.isShown) ++ rest, s, net)
    else ([], s, net)

end Server

end Courier
