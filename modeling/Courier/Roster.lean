import Courier.Channel

/-!
# The peers of a host

One channel for each address, created on demand while there is room. Channels
are kept in the order in which they were created.
-/

namespace Courier

structure RosterFull where
  capacity : Nat
  deriving DecidableEq, Repr

def RosterFull.message (e : RosterFull) : String := s!"connection table full ({e.capacity} peers)"

structure Roster where
  capacity : Nat
  timeout : Interval := Channel.defaultTimeout
  channels : List Channel := []

namespace Roster

def size (r : Roster) : Nat := r.channels.length

def isEmpty (r : Roster) : Bool := r.channels.isEmpty

def find? (r : Roster) (peer : Address) : Option Channel := r.channels.find? (·.peer == peer)

def set (r : Roster) (c : Channel) : Roster :=
  { r with channels := r.channels.map fun d => if d.peer == c.peer then c else d }

/-- The channel of `peer`, and whether it was created for this. -/
def obtain? (r : Roster) (peer : Address) (now : Time) :
    Except RosterFull (Channel × Bool) × Roster :=
  match r.find? peer with
  | some c => (.ok (c, false), r)
  | none =>
    if r.capacity ≤ r.size then (.error ⟨r.capacity⟩, r)
    else
      let c := Channel.fresh peer now
      (.ok (c, true), { r with channels := r.channels ++ [c] })

def remove (r : Roster) (peer : Address) : Roster :=
  { r with channels := r.channels.filter (·.peer != peer) }

/-- Removes and returns the channels that were silent for longer than the timeout. -/
def expire (r : Roster) (now : Time) : List Channel × Roster :=
  let (expired, channels) := r.channels.partition (·.isTimedOut now r.timeout)
  (expired, { r with channels })

def countIn (r : Roster) (phase : Phase) : Nat := r.channels.countP (·.phase == phase)

def map (r : Roster) (f : Channel → Channel) : Roster := { r with channels := r.channels.map f }

def sorted (channels : List Channel) : List Channel :=
  channels.mergeSort fun c d => c.peer.le d.peer

@[simp] theorem size_map (r : Roster) (f : Channel → Channel) : (r.map f).size = r.size := by
  simp [map, size]

@[simp] theorem size_set (r : Roster) (c : Channel) : (r.set c).size = r.size := by
  simp [set, size]

end Roster

end Courier
