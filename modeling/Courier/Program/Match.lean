import Courier.Network.World
import Courier.Program.Client
import Courier.Program.Server

/-!
# A server and its clients on a simulated network

In every round time moves on, the clients tick in order and the server last.
-/

namespace Courier

structure Player where
  client : Client
  /-- Whether a client that is finished no longer ticks. -/
  stops : Bool := false

structure Match where
  stage : Stage
  server : Placed Server
  players : List (Placed Player)

namespace Match

def tickPlayer (p : Player) (net : Faulty Endpoint) (now : Time) :
    List GuestEvent × Player × Faulty Endpoint :=
  if p.stops && p.client.isFinished then ([], p, net)
  else
    let (_, events, client, net) := p.client.tick net now
    (events, { p with client }, net)

def round (m : Match) (interval : Interval) (idle : Bool) : List (List GuestEvent) × Match :=
  let (events, players, stage) := Placed.actAll tickPlayer m.players (m.stage.elapse interval)
  let m := { m with stage, players }
  if idle then (events, m)
  else
    let (_, server, stage) := m.server.act m.stage fun s net now => ((), s.tick net now)
    (events, { m with server, stage })

def run (interval : Interval) (idle : Bool) :
    (rounds : Nat) → Match → List (List GuestEvent) × Match
  | 0, m => (m.players.map fun _ => [], m)
  | n + 1, m =>
    let (first, m) := m.round interval idle
    let (others, m) := run interval idle n m
    (List.zipWith (· ++ ·) first others, m)

end Match

end Courier
