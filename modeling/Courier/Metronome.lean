import Courier.Time

/-!
# Metronomes

Paces a loop at a number of ticks per second. A loop that fell behind by more
than one tick goes on from where it is instead of catching up.
-/

namespace Courier

structure Metronome where
  rate : Nat
  interval : Interval
  nextTick : Time
  ticks : Nat := 0
  deriving DecidableEq, Repr

namespace Metronome

def make (rate : Nat) (now : Time) : Metronome :=
  let rate := max rate 1
  { rate, interval := Interval.seconds 1 / rate, nextTick := now }

def remaining (m : Metronome) (now : Time) : Interval := m.nextTick - now

def isDue (m : Metronome) (now : Time) : Bool := m.nextTick ≤ now

/-- Counts a tick that starts at `now` and schedules the next one. -/
def advance (m : Metronome) (now : Time) : Metronome :=
  let next := m.nextTick + m.interval
  { m with
    nextTick := if next + m.interval < now then now + m.interval else next
    ticks := m.ticks + 1 }

/-- Waits for the next tick on a clock that shows `now`: the start of the tick,
which is late if the clock is, and the metronome after it. -/
def wait (m : Metronome) (now : Time) : Time × Metronome :=
  let start := max now m.nextTick
  (start, m.advance start)

theorem isDue_iff (m : Metronome) (now : Time) : m.isDue now = true ↔ m.remaining now = 0 := by
  simp only [isDue, remaining, decide_eq_true_eq]
  exact Nat.sub_eq_zero_iff_le.symm

theorem isDue_wait (m : Metronome) (now : Time) : m.isDue (m.wait now).1 = true := by
  exact decide_eq_true (Nat.le_max_right now m.nextTick)

end Metronome

end Courier
