import Courier.Exchange

/-!
# Guests

A guest holds one channel, to its host. It presents its credentials, and once
admitted it plays. A host that stays silent too long is approached anew; a host
that rejected the credentials is not asked again.
-/

namespace Courier

structure GuestConfig where
  sendRate : Nat := 32
  timeout : Interval := Channel.defaultTimeout
  user : String := "anonymous"
  password : String := "1234"
  deriving Repr

inductive GuestEvent where
  | message (d : Delivery)
  | notice (n : Notice)
  | verdict (accepted : Bool)
  | timedOut
  | failed (f : Fault)
  deriving DecidableEq, Repr

structure Guest where
  config : GuestConfig
  credentials : Credentials
  channel : Channel
  running : Bool := true
  /-- Events that were not taken yet, oldest first. -/
  events : List GuestEvent := []
  rejected : Bool := false
  ticks : Nat := 0

namespace Guest

def make (server : Address) (config : GuestConfig) (now : Time) : Except PayloadError Guest :=
  (Credentials.make config.user config.password).map fun credentials =>
    { config, credentials, channel := Channel.fresh server now }

def server (g : Guest) : Address := g.channel.peer

def phase (g : Guest) : Phase := g.channel.phase

def stop (g : Guest) : Guest := { g with running := false }

def emit (g : Guest) (e : GuestEvent) : Guest := { g with events := g.events ++ [e] }

def send (g : Guest) (kind : Kind) (critical : Bool) (payload : Bytes) :
    Except OutboxError UInt8 × Guest :=
  let (result, channel) := g.channel.enqueue kind critical payload
  (result, { g with channel })

def takeEvents (g : Guest) : List GuestEvent × Guest := (g.events, { g with events := [] })

/-- Takes in one datagram. Only those of the host count. -/
def hear (g : Guest) (d : Datagram) (now : Time) : List Delivery × Guest :=
  if d.source = g.server then
    match g.channel.accept d.bytes now with
    | .ok (deliveries, channel) => (deliveries, { g with channel })
    | .error _ => ([], { g with channel := g.channel.recordMalformed })
  else ([], g)

def hearAll (now : Time) : Guest → List Datagram → List Delivery × Guest
  | g, [] => ([], g)
  | g, d :: rest =>
    let (first, g) := g.hear d now
    let (others, g) := hearAll now g rest
    (first ++ others, g)

/-- A verdict counts only while the credentials are under review. -/
def handle (g : Guest) (d : Delivery) : Guest :=
  if d.kind = .verdict then
    match Verdict.decode d.data with
    | .error _ => g
    | .ok accepted =>
      if g.phase = .asking then
        let g := g.emit (.verdict accepted)
        if accepted then { g with channel := g.channel.setPhase .admitted }
        else { g with channel := g.channel.setPhase .idle, rejected := true }
      else g
  else g.emit (.message d)

def collect (g : Guest) : Guest :=
  let (notices, channel) := g.channel.takeNotices
  { g with channel, events := g.events ++ notices.map .notice }

/-- Starts over with a fresh channel if the host was silent for too long. -/
def expire (g : Guest) (now : Time) : Guest :=
  if g.channel.isTimedOut now g.config.timeout then
    -- the notices of the old channel come before the timeout
    { g.collect.emit .timedOut with channel := Channel.fresh g.server now }
  else g

/-- Presents the credentials, or starts to play once admitted. -/
def proceed (g : Guest) : Guest :=
  match g.phase with
  | .idle =>
    if g.rejected then g
    else
      match g.channel.enqueue .credentials true g.credentials.encode with
      | (.ok _, channel) => { g with channel := channel.setPhase .asking }
      | (.error _, channel) => { g with channel }
  | .admitted => { g with channel := g.channel.setPhase .playing }
  | .asking | .playing => g

/-- Everything a tick does before it sends. -/
def absorb (g : Guest) (inflow : Inflow) (now : Time) : Guest :=
  let g := { g with channel := g.channel.settle.2 }
  let (deliveries, g) := g.hearAll now inflow.datagrams
  let g := inflow.failure.elim g fun text => g.emit (.failed (.transport text))
  (deliveries.foldl handle g |>.expire now).proceed

def transmit {σ : Type} [Transport σ] (g : Guest) (net : σ) (now : Time) : Guest × σ :=
  let (failure, channel, net) := g.channel.transmit net now
  let g := { g with channel }
  (failure.elim g fun text => g.emit (.failed (.transport text)), net)

def tick {σ : Type} [Transport σ] (g : Guest) (net : σ) (now : Time) : Guest × σ :=
  let (inflow, net) := Transport.receive net Packet.maxSize
  let (g, net) := (g.absorb inflow now).transmit net now
  ({ g.collect with ticks := g.ticks + 1 }, net)

end Guest

end Courier
