import Courier.Serial
import Courier.Window

/-!
# Packets that arrived

Remembers the newest packet of the peer and which of the 32 packets up to it
were seen. This is what every outgoing packet reports back.
-/

namespace Courier

inductive Arrival where
  /-- Newer than all before it. -/
  | fresh
  /-- Newer by a whole window or more, so nothing of the old window is known. -/
  | resync (gap : UInt32)
  /-- Out of order, but seen for the first time. -/
  | late
  | duplicate
  /-- Too old to tell whether it was seen. -/
  | stale
  deriving DecidableEq, Repr

def Arrival.accepted : Arrival → Bool
  | .fresh | .resync _ | .late => true
  | .duplicate | .stale => false

structure Arrivals where
  newest : UInt32 := 0xFFFFFFFF
  seen : UInt32 := 0xFFFFFFFF
  synced : Bool := false
  deriving DecidableEq, Repr

namespace Arrivals

def advance (a : Arrivals) (sequence : UInt32) : Arrivals :=
  { newest := sequence
    seen := Window.mark a.seen (Window.index sequence) (Window.index a.newest) (sequence - a.newest)
    synced := true }

def record (a : Arrivals) (sequence : UInt32) : Arrival × Arrivals :=
  -- before the first packet `newest` names no packet, so no gap can be told
  if !a.synced then (.fresh, a.advance sequence)
  else if Serial.ahead32 sequence a.newest then
    let gap := sequence - a.newest
    (if gap < 32 then .fresh else .resync gap, a.advance sequence)
  else if sequence = a.newest then (.duplicate, a)
  else if 32 ≤ a.newest - sequence then (.stale, a)
  else if Window.has a.seen (Window.index sequence) then (.duplicate, a)
  else (.late, { a with seen := a.seen ||| Window.bit (Window.index sequence) })

theorem record_refused (a : Arrivals) (sequence : UInt32)
    (h : (a.record sequence).1.accepted = false) : (a.record sequence).2 = a := by
  revert h
  simp only [record]
  repeat' split
  all_goals simp [Arrival.accepted]

end Arrivals

end Courier
