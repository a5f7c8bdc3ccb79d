import Courier.Network.Socket
import Courier.Network.World

/-!
# A bench of sockets

Sockets on one network, numbered in the order in which they were opened. A
socket that is closed keeps its number, and its address can be bound again.
-/

namespace Courier

structure Bench where
  stage : Stage
  /-- Closed sockets are missing. -/
  sockets : List (Option Socket) := []

namespace Bench

def socket? (b : Bench) (i : Nat) : Option Socket :=
  (b.sockets.getD i none).map (·.attach b.stage.network)

def setNetwork (b : Bench) (network : Network) : Bench :=
  { b with stage := { b.stage with network } }

def put (b : Bench) (i : Nat) (s : Socket) : Bench :=
  { b.setNetwork s.endpoint.network with sockets := b.sockets.set i (some s) }

def bind (b : Bench) (addr : Address) (conditions : Option Conditions) :
    Except String (Nat × Bench) :=
  (b.stage.network.bind addr).map fun network =>
    (b.sockets.length,
      { b.setNetwork network with
        sockets := b.sockets ++ [some (Socket.make addr network conditions)] })

/-- A socket that is closed already stays so, whoever has its address now. -/
def close (b : Bench) (i : Nat) : Bench :=
  match b.socket? i with
  | none => b
  | some s =>
    { b.setNetwork (s.endpoint.network.unbind s.endpoint.addr) with
      sockets := b.sockets.set i none }

def elapse (b : Bench) (interval : Interval) : Bench :=
  { b with sockets := b.sockets.map fun s => s.map (·.elapse interval) }

theorem socket?_close (b : Bench) (i : Nat) : (b.close i).socket? i = none := by
  simp only [close]
  split
  · assumption
  · simp only [socket?, List.getD_eq_getElem?_getD, List.getElem?_set_self']
    cases b.sockets[i]? <;> rfl

theorem close_close (b : Bench) (i : Nat) : (b.close i).close i = b.close i := by
  rw [close.eq_def (b.close i) i, socket?_close]

end Bench

end Courier
