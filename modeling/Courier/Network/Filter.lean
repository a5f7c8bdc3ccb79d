import Courier.Address
import Courier.Bytes

/-!
# Drop filters

A filter decides which datagrams a network drops. It may look at everything
that was offered since it was set.
-/

namespace Courier

structure Offer where
  source : Address
  target : Address
  bytes : Bytes
  deriving DecidableEq, Repr

structure DropFilter where
  /-- Given a datagram and those offered before it, latest first. -/
  decide : Offer → List Offer → Bool
  /-- What was offered since the filter was set, latest first. -/
  offered : List Offer := []

namespace DropFilter

def offer (f : DropFilter) (o : Offer) : Bool × DropFilter :=
  (f.decide o f.offered, { f with offered := o :: f.offered })

end DropFilter

structure DropRule where
  source : Option Address := none
  target : Option Address := none
  /-- Counts that are dropped. -/
  counts : List Nat := []
  /-- Modulus and remainder of further counts that are dropped. -/
  every : Option (Nat × Nat) := none
  deriving DecidableEq, Repr

namespace DropRule

def isMatch (r : DropRule) (o : Offer) : Bool :=
  r.source.all (· == o.source) && r.target.all (· == o.target)

def drops (r : DropRule) (o : Offer) (earlier : List Offer) : Bool :=
  r.isMatch o &&
    (let count := earlier.countP r.isMatch
     r.counts.contains count ||
      r.every.any fun (modulus, remainder) => count % modulus == remainder)

end DropRule

/-- Drops what any of the rules picks. -/
def DropFilter.ofRules (rules : List DropRule) : DropFilter :=
  { decide := fun o earlier => rules.any (·.drops o earlier) }

end Courier
