/-!
# Instants and intervals

Both are counted in whole nanoseconds. Instants count from an arbitrary base.
-/

namespace Courier

abbrev Time := Nat

abbrev Interval := Nat

namespace Interval

def micros (n : Nat) : Interval := n * 1000

def millis (n : Nat) : Interval := n * 1000000

def seconds (n : Nat) : Interval := n * 1000000000

def toSeconds (interval : Interval) : Float32 :=
  (interval / 1000000000).toUInt64.toFloat32 +
    (interval % 1000000000).toUInt64.toFloat32 / 1000000000.0

end Interval

/-- Time that has passed since `start`, nothing if that is still to come. -/
def Time.since (now start : Time) : Interval := now - start

end Courier
