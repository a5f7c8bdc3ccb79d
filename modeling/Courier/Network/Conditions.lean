import Courier.Network.Noise
import Courier.Time

/-!
# Network conditions

Loss and latency that a sender's datagrams meet. Latencies are in milliseconds.
-/

namespace Courier

structure Conditions where
  enabled : Bool := false
  lossPercent : Float32 := 0.0
  minLatency : UInt32 := 0
  maxLatency : UInt32 := 0
  jitter : UInt32 := 0

namespace Conditions

def withLoss (lossPercent : Float32) : Conditions := { enabled := true, lossPercent }

def spread (c : Conditions) : UInt32 :=
  if c.maxLatency < c.minLatency then 0 else c.maxLatency - c.minLatency

def share (draw : Float32) (limit : UInt32) : Nat := (draw * limit.toFloat32).toUInt32.toNat

def loses (c : Conditions) (draw : Float32) : Bool := draw * 100.0 < c.lossPercent

/-- Decides whether a datagram is dropped; takes a draw only if that can matter. -/
def drops (c : Conditions) (noise : Noise) : Bool × Noise :=
  if c.enabled && 0.0 < c.lossPercent then
    let (draw, noise) := noise.draw
    (c.loses draw, noise)
  else (false, noise)

/-- The latency of a datagram, jitter drawn before spread. Without an upper
latency there is none. -/
def latency (c : Conditions) (noise : Noise) : Nat × Noise :=
  if !c.enabled || c.maxLatency = 0 then (0, noise)
  else
    let (jitter, noise) :=
      if 0 < c.jitter then
        let (draw, noise) := noise.draw
        (share draw c.jitter, noise)
      else (0, noise)
    let (draw, noise) := noise.draw
    (c.minLatency.toNat + share draw c.spread + jitter, noise)

end Conditions

end Courier
