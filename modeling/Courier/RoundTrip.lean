/-!
# Round-trip estimate

Smoothed round-trip time and its mean deviation, in milliseconds. All
arithmetic is single precision, rounded after every operation.
-/

namespace Courier

structure RoundTrip where
  smoothed : Float32 := 100.0
  variation : Float32 := 50.0
  samples : Nat := 0

namespace RoundTrip

def gain : Float32 := 0.125

def variationGain : Float32 := 0.25

def sample (r : RoundTrip) (millis : Float32) : RoundTrip :=
  let deviation := (millis - r.smoothed).abs
  { smoothed := (1.0 - gain) * r.smoothed + gain * millis
    variation := (1.0 - variationGain) * r.variation + variationGain * deviation
    samples := r.samples + 1 }

@[simp] theorem samples_sample (r : RoundTrip) (millis : Float32) :
    (r.sample millis).samples = r.samples + 1 := rfl

end RoundTrip

end Courier
