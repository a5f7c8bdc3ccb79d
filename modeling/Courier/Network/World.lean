import Courier.Guest
import Courier.Host
import Courier.Network.Simulated

/-!
# A host and its guests on a simulated network

All take turns on one network: in every round time moves on, then the guests
tick in order, and the host ticks last.
-/

namespace Courier

structure Stage where
  network : Network
  clock : Time := 0

namespace Stage

def elapse (s : Stage) (interval : Interval) : Stage :=
  { network := s.network.advance (s.clock + interval), clock := s.clock + interval }

def bindAll (s : Stage) (addrs : List Address) : Except String Stage :=
  (addrs.foldlM Network.bind s.network).map fun network => { s with network }

end Stage

structure Placed (α : Type) where
  self : α
  addr : Address
  sendFault : Option String := none
  receiveFault : Option String := none

namespace Placed

def act {α β : Type} (p : Placed α) (stage : Stage)
    (f : α → Faulty Endpoint → Time → β × α × Faulty Endpoint) : β × Placed α × Stage :=
  let net : Faulty Endpoint :=
    { inner := { network := stage.network, addr := p.addr }
      sendFault := p.sendFault
      receiveFault := p.receiveFault }
  let (answer, self, net) := f p.self net stage.clock
  (answer, { p with self }, { stage with network := net.inner.network })

def actAll {α β : Type} (f : α → Faulty Endpoint → Time → β × α × Faulty Endpoint) :
    List (Placed α) → Stage → List β × List (Placed α) × Stage
  | [], stage => ([], [], stage)
  | p :: rest, stage =>
    let (answer, p, stage) := p.act stage f
    let (answers, rest, stage) := actAll f rest stage
    (answer :: answers, p :: rest, stage)

end Placed

structure World (δ : Type) where
  stage : Stage
  host : Option (Placed (Host δ))
  guests : List (Placed Guest)

namespace World

variable {δ : Type} [Doorman δ]

def tickGuest (g : Guest) (net : Faulty Endpoint) (now : Time) : Unit × Guest × Faulty Endpoint :=
  ((), g.tick net now)

def tickGuests (w : World δ) : World δ :=
  let (_, guests, stage) := Placed.actAll tickGuest w.guests w.stage
  { w with guests, stage }

def tickHost (w : World δ) : World δ :=
  match w.host with
  | none => w
  | some host =>
    let (_, host, stage) := host.act w.stage fun h net now => ((), h.tick net now)
    { w with host := some host, stage }

/-- One tick of the host, or of the guest with a number. -/
def tick (w : World δ) : Option Nat → World δ
  | none => w.tickHost
  | some i =>
    match w.guests[i]? with
    | none => w
    | some guest =>
      let (_, guest, stage) := guest.act w.stage tickGuest
      { w with stage, guests := w.guests.set i guest }

def round (w : World δ) (interval : Interval) : World δ :=
  { w with stage := w.stage.elapse interval }.tickGuests.tickHost

def run (interval : Interval) : (rounds : Nat) → World δ → World δ
  | 0, w => w
  | n + 1, w => run interval n (w.round interval)

omit [Doorman δ] in
def modify (w : World δ) (who : Option Nat) (onHost : Placed (Host δ) → Placed (Host δ))
    (onGuest : Placed Guest → Placed Guest) : World δ :=
  match who with
  | none => { w with host := w.host.map onHost }
  | some i => { w with guests := w.guests.modify i onGuest }

omit [Doorman δ] in
def setFaults (w : World δ) (who : Option Nat) (sendFault receiveFault : Option String) : World δ :=
  w.modify who (fun p => { p with sendFault, receiveFault }) fun p =>
  { p with sendFault, receiveFault }

omit [Doorman δ] in
def stop (w : World δ) (who : Option Nat) : World δ :=
  w.modify who (fun p => { p with self := p.self.stop }) fun p => { p with self := p.self.stop }

end World

end Courier
