import Courier.Address
import Courier.Bytes
import Courier.Time

/-!
# Datagrams in transit

Datagrams wait for their release time. Those released at the same time leave in
the order in which they were sent.
-/

namespace Courier

structure InTransit where
  release : Time
  order : Nat
  source : Address
  target : Address
  bytes : Bytes
  deriving DecidableEq, Repr

namespace InTransit

def before (x y : InTransit) : Bool :=
  x.release < y.release || (x.release == y.release && x.order < y.order)

end InTransit

structure Transit where
  waiting : List InTransit := []
  sent : Nat := 0
  deriving DecidableEq, Repr

namespace Transit

def insert (d : InTransit) : List InTransit → List InTransit
  | [] => [d]
  | e :: rest => if d.before e then d :: e :: rest else e :: insert d rest

def add (t : Transit) (release : Time) (source target : Address) (bytes : Bytes) : Transit :=
  { waiting := insert { release, order := t.sent, source, target, bytes } t.waiting
    sent := t.sent + 1 }

def release (t : Transit) (now : Time) : List InTransit × Transit :=
  (t.waiting.takeWhile (·.release ≤ now),
    { t with waiting := t.waiting.dropWhile (·.release ≤ now) })

theorem release_append (t : Transit) (now : Time) :
    (t.release now).1 ++ (t.release now).2.waiting = t.waiting := by
  simp [release]

end Transit

end Courier
