import Courier.Address
import Courier.Bytes

/-!
# Transports

A transport carries datagrams. Receiving never waits: it hands over everything
that has arrived.
-/

namespace Courier

structure Datagram where
  source : Address
  bytes : Bytes
  deriving DecidableEq, Repr

def Datagram.cut (d : Datagram) (size : Nat) : Datagram := { d with bytes := d.bytes.take size }

/-- What one round of receiving yields: the datagrams in order of arrival, and
the failure that ended the round if there was one. -/
structure Inflow where
  datagrams : List Datagram := []
  failure : Option String := none
  deriving DecidableEq, Repr

/-- A failure is described by its text. Sending returns the number of bytes sent. -/
class Transport (σ : Type) where
  send : σ → Address → Bytes → Except String Nat × σ
  receive : σ → (buffer : Nat) → Inflow × σ

structure Faulty (σ : Type) where
  inner : σ
  sendFault : Option String := none
  receiveFault : Option String := none

instance {σ : Type} [Transport σ] : Transport (Faulty σ) where
  send t peer bytes :=
    match t.sendFault with
    | some fault => (.error fault, t)
    | none =>
      let (result, inner) := Transport.send t.inner peer bytes
      (result, { t with inner })
  receive t buffer :=
    match t.receiveFault with
    | some fault => ({ failure := some fault }, t)
    | none =>
      let (inflow, inner) := Transport.receive t.inner buffer
      (inflow, { t with inner })

/-- A transport whose incoming datagrams are fixed beforehand, by the round in
which they arrive. It keeps what is sent, and may ask its user to stop. -/
structure Script where
  round : Nat := 0
  /-- The number of rounds after which the user shall stop. -/
  rounds : Option Nat := none
  incoming : List (Nat × Datagram) := []
  /-- Receivers and datagrams, latest first. -/
  sent : List (Address × Bytes) := []

def Script.halted (t : Script) : Bool := t.rounds.any (· == t.round)

instance : Transport Script where
  send t peer bytes := (.ok bytes.length, { t with sent := (peer, bytes) :: t.sent })
  receive t buffer :=
    let arrived := (t.incoming.filter (·.1 == t.round)).map fun entry => entry.2.cut buffer
    ({ datagrams := arrived }, { t with round := t.round + 1 })

end Courier
