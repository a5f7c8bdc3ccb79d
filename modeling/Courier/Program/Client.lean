import Courier.Address.Parse
import Courier.Metronome
import Courier.Network.Conditions
import Courier.Packet
import Courier.Text.Quantity
import Courier.Wording

/-!
# The client program

A guest with a list of texts to send. The texts go out in order once the guest
plays.
-/

namespace Courier

structure ClientConfig where
  server : String := "127.0.0.1:" ++ toString Packet.defaultPort.toNat
  guest : GuestConfig := {}
  /-- Sent in order once the guest plays. -/
  messages : List String := []
  critical : Bool := true
  /-- What outgoing datagrams meet. -/
  conditions : Option Conditions := none
  maxTicks : Option Nat := none

structure Client where
  guest : Guest
  /-- Texts that were not queued yet. -/
  messages : List String
  critical : Bool
  maxTicks : Option Nat

inductive ConnectError where
  | address (text : String) (e : AddressError)
  | payload (e : PayloadError)
  deriving DecidableEq, Repr

def ConnectError.message : ConnectError → String
  | .address text e => "resolving " ++ text ++ ": " ++ e.message
  | .payload e => e.message

namespace Client

def make (server : Address) (config : ClientConfig) (now : Time) : Except PayloadError Client :=
  (Guest.make server config.guest now).map fun guest =>
    { guest, messages := config.messages, critical := config.critical, maxTicks := config.maxTicks }

def connect (config : ClientConfig) (now : Time) : Except ConnectError Client :=
  match Address.parse config.server with
  | .error e => .error (.address config.server e)
  | .ok server => (make server config now).mapError .payload

def isFinished (c : Client) : Bool :=
  c.guest.rejected || c.maxTicks.any (· ≤ c.guest.ticks)

def maxNeeded : Nat := Outbox.capacity - 1

/-- Queues texts in order as long as there is room, and drops those that never
fit. Returns warnings about those, and the texts that are left. -/
def flush (critical : Bool) : Guest → List String → List Line × List String × Guest
  | guest, [] => ([], [], guest)
  | guest, text :: rest =>
    let payload := Utf8.encode text
    match guest.send .data critical payload with
    | (.ok _, guest) => flush critical guest rest
    | (.error (.full needed _), guest) =>
      if maxNeeded < needed then
        let warning := s!"dropping {payload.length} byte message: needs {needed} queue slots, " ++
          s!"at most {maxNeeded} fit"
        let (warnings, left, guest) := flush critical guest rest
        (⟨.warn, warning⟩ :: warnings, left, guest)
      else ([], text :: rest, guest)
    | (.error .exhausted, guest) => ([], text :: rest, guest)

def tick {σ : Type} [Transport σ] (c : Client) (net : σ) (now : Time) :
    List Line × List GuestEvent × Client × σ :=
  let (warnings, messages, guest) :=
    if c.guest.phase = .playing then flush c.critical c.guest c.messages
    else ([], c.messages, c.guest)
  let (guest, net) := guest.tick net now
  let (events, guest) := guest.takeEvents
  (warnings, events, { c with guest, messages }, net)

def summary (c : Client) : Line :=
  let t := c.guest.channel.traffic
  ⟨.info,
    s!"{t.packetsSent} packets sent, {t.packetsReceived} received, {t.packetsLost} lost, rtt " ++
    Quantity.millis 1 c.guest.channel.departures.roundTrip.smoothed⟩

/-- Ticks until the client is finished or stopped, for `budget` ticks at most.
The transport may ask to stop while a tick is under way, which is then the
last. Returns the report that is shown without details. -/
def run {σ : Type} [Transport σ] (halted : σ → Bool) :
    (budget : Nat) → Metronome → Client → σ → List Line × Client × σ
  | 0, _, c, net => ([c.summary], c, net)
  | budget + 1, metronome, c, net =>
    if c.guest.running && !c.isFinished then
      let (now, metronome) := metronome.wait metronome.nextTick
      let (warnings, events, c, net) := c.tick net now
      let c := if halted net then { c with guest := c.guest.stop } else c
      let (rest, c, net) := run halted budget metronome c net
      (warnings ++ (events.map Wording.guestEvent).filter (·.level.isShown) ++ rest, c, net)
    else ([c.summary], c, net)

end Client

end Courier
