import Courier.Notice
import Courier.Outbox
import Courier.Window

/-!
# The fate of sent packets

Before a window position is used again, the packet sent there one window
earlier is settled. If it was acknowledged, its messages were delivered. If
not, it is lost: its critical messages go back to the front of the outbox and
the others are dropped.
-/

namespace Courier

inductive Fate where
  | unsent
  | acknowledged
  | sentCritical
  | sentPlain
  deriving DecidableEq, Repr

/-- A packet that was not acknowledged within a window. -/
structure Loss where
  sequence : UInt32
  critical : Bool
  requeued : Nat
  dropped : Nat
  deriving DecidableEq, Repr

/-- Which window positions were sent, and which of those carried a critical message. -/
structure Flights where
  sent : UInt32 := 0
  critical : UInt32 := 0
  deriving DecidableEq, Repr

namespace Flights

def fate (f : Flights) (index acked : UInt32) : Fate :=
  if !Window.has f.sent index then .unsent
  else if Window.has acked index then .acknowledged
  else if Window.has f.critical index then .sentCritical
  else .sentPlain

def launch (f : Flights) (sequence : UInt32) (critical : Bool) : Flights :=
  let bit := Window.bit (Window.index sequence)
  { sent := f.sent ||| bit
    critical := if critical then f.critical ||| bit else f.critical &&& ~~~bit }

def clear (f : Flights) (index : UInt32) : Flights :=
  { sent := f.sent &&& ~~~(Window.bit index), critical := f.critical &&& ~~~(Window.bit index) }

end Flights

structure Outgoing where
  outbox : Outbox := {}
  flights : Flights := {}
  deriving DecidableEq, Repr

namespace Outgoing

/-- Frees the messages that the packet at `index` delivered. -/
def deliver (o : Outgoing) (index : UInt32) : List Notice × Outgoing :=
  let (messages, outbox) := o.outbox.releaseAll (o.outbox.carried index.toUInt8)
  (messages.map fun m => .delivered m.envelope, { o with outbox })

def deliverAll : Outgoing → List UInt32 → List Notice × Outgoing
  | o, [] => ([], o)
  | o, index :: rest =>
    let (first, o) := o.deliver index
    let (others, o) := deliverAll o rest
    (first ++ others, o)

/-- Frees the messages of every newly acknowledged packet; one notice each. -/
def confirm (o : Outgoing) (newly : UInt32) : List Notice × Outgoing :=
  o.deliverAll (Window.indices.filter fun i => Window.has newly i && Window.has o.flights.sent i)

/-- Requeues the critical messages of the lost packet at `index` and drops the others. -/
def lose (o : Outgoing) (sequence index : UInt32) (critical : Bool) :
    Loss × List Notice × Outgoing :=
  let carried := o.outbox.carried index.toUInt8
  let isCritical (i : Place) : Bool := (o.outbox.slot i).inFlight?.any (·.critical)
  let vital := carried.filter isCritical
  let again := vital.filterMap fun i => (o.outbox.slot i).inFlight?
  -- critical messages go first: what they displace is not looked for again
  let (requeued, outbox) := o.outbox.requeue vital
  let (gone, outbox) := outbox.releaseAll (carried.filter fun i => !isCritical i)
  ({ sequence, critical, requeued, dropped := gone.length },
    .lost sequence critical :: again.map (fun m => .requeued m.envelope) ++
      gone.map (fun m => .dropped m.envelope),
    { o with outbox })

/-- Settles the packet sent one window before `next`. -/
def settle (o : Outgoing) (next acked : UInt32) : Option Loss × List Notice × Outgoing :=
  let index := Window.index next
  let cleared := { o with flights := o.flights.clear index }
  match o.flights.fate index acked with
  | .unsent => (none, [], cleared)
  | .acknowledged =>
    let (notices, o) := cleared.deliver index
    (none, notices, o)
  | fate =>
    let (loss, notices, o) := cleared.lose (next - 32) index (fate == .sentCritical)
    (some loss, notices, o)

end Outgoing

end Courier
