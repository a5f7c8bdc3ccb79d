/-!
# Reproducible noise

A xorshift generator with 64 bits of state. Equal seeds give equal draws.
-/

namespace Courier

structure Noise where
  state : UInt64
  deriving DecidableEq, Repr

namespace Noise

/-- The state must not be zero, which would stay zero for ever. -/
def ofSeed (seed : UInt64) : Noise := ⟨if seed = 0 then 1 else seed⟩

def standard : Noise := .ofSeed 0x9E3779B97F4A7C15

def next (n : Noise) : Noise :=
  let x := n.state
  let x := x ^^^ (x <<< 13)
  let x := x ^^^ (x >>> 7)
  ⟨x ^^^ (x <<< 17)⟩

def draw (n : Noise) : Float32 × Noise :=
  let n := n.next
  ((n.state >>> 40).toFloat32 / 16777216.0, n)

end Noise

end Courier
