import Courier.Network.Conditions
import Courier.Network.Filter
import Courier.Network.Transit
import Courier.Transport

/-!
# A simulated network

Any number of endpoints exchange datagrams in memory. Time moves only when told
to, and equal seeds give equal runs.
-/

namespace Courier

structure Network where
  now : Time
  /-- Conditions by sender. -/
  links : List (Address × Conditions) := []
  /-- What has arrived at each bound address, oldest first. -/
  inboxes : List (Address × List Datagram) := []
  transit : Transit := {}
  filter : Option DropFilter := none
  noise : Noise := .standard
  delivered : Nat := 0
  dropped : Nat := 0

namespace Network

/-- An address can be bound only once at a time. -/
def bindError (addr : Address) : String := addr.toText ++ " already bound"

def inbox? (n : Network) (addr : Address) : Option (List Datagram) := n.inboxes.lookup addr

def isBound (n : Network) (addr : Address) : Bool := (n.inbox? addr).isSome

def bind (n : Network) (addr : Address) : Except String Network :=
  if n.isBound addr then .error (bindError addr)
  else .ok { n with inboxes := n.inboxes ++ [(addr, [])] }

def unbind (n : Network) (addr : Address) : Network :=
  { n with inboxes := n.inboxes.filter (·.1 != addr) }

def setInbox (n : Network) (addr : Address) (inbox : List Datagram) : Network :=
  { n with inboxes := n.inboxes.map fun entry => if entry.1 == addr then (addr, inbox) else entry }

/-- Puts every datagram from `source` under conditions, or under none if they
are not enabled. -/
def setLink (n : Network) (source : Address) (c : Conditions) : Network :=
  let others := n.links.filter (·.1 != source)
  { n with links := if c.enabled then (source, c) :: others else others }

def setFilter (n : Network) (filter : Option DropFilter) : Network := { n with filter }

/-- Hands one datagram to its receiver, or drops it if there is none. -/
def arrive (n : Network) (d : InTransit) : Network :=
  match n.inbox? d.target with
  | some inbox =>
    { n.setInbox d.target (inbox ++ [{ source := d.source, bytes := d.bytes }]) with
      delivered := n.delivered + 1 }
  | none => { n with dropped := n.dropped + 1 }

def releaseDue (n : Network) : Network :=
  let (due, transit) := n.transit.release n.now
  due.foldl arrive { n with transit }

def advance (n : Network) (now : Time) : Network :=
  { n with now := max n.now now }.releaseDue

def screen (n : Network) (o : Offer) : Bool × Network :=
  match n.filter with
  | none => (false, n)
  | some filter =>
    let (drop, filter) := filter.offer o
    (drop, { n with filter := some filter })

/-- The fate of a datagram under the conditions of its sender: its latency in
milliseconds, or `none` if it is lost. -/
def impair (n : Network) (source : Address) : Option Nat × Network :=
  match n.links.lookup source with
  | none => (some 0, n)
  | some c =>
    let (lost, noise) := c.drops n.noise
    if lost then (none, { n with noise })
    else
      -- both draws are taken, also where their ranges are empty
      let (first, noise) := noise.draw
      let (second, noise) := noise.draw
      (some
        (c.minLatency.toNat + Conditions.share second c.spread + Conditions.share first c.jitter),
        { n with noise })

def dispatch (n : Network) (source target : Address) (bytes : Bytes) : Network :=
  let (drop, n) := n.screen { source, target, bytes }
  if drop then { n with dropped := n.dropped + 1 }
  else
    match n.impair source with
    | (none, n) => { n with dropped := n.dropped + 1 }
    | (some latency, n) =>
      { n with transit := n.transit.add (n.now + Interval.millis latency) source target bytes }

def send (n : Network) (source target : Address) (bytes : Bytes) : Network :=
  (n.dispatch source target bytes).releaseDue

def receive (n : Network) (addr : Address) (buffer : Nat) : Option Datagram × Network :=
  let n := n.releaseDue
  match n.inbox? addr with
  | some (d :: rest) => (some (d.cut buffer), n.setInbox addr rest)
  | _ => (none, n)

def receiveAll (n : Network) (addr : Address) (buffer : Nat) : List Datagram × Network :=
  let n := n.releaseDue
  (((n.inbox? addr).getD []).map (·.cut buffer), n.setInbox addr [])

def inTransit (n : Network) : Nat := n.transit.waiting.length

end Network

structure Endpoint where
  network : Network
  addr : Address

instance : Transport Endpoint where
  send e peer bytes := (.ok bytes.length, { e with network := e.network.send e.addr peer bytes })
  receive e buffer :=
    let (datagrams, network) := e.network.receiveAll e.addr buffer
    ({ datagrams }, { e with network })

end Courier
