import Courier.Message.Payload
import Courier.Outbox
import Courier.Serial

/-!
# Putting payloads together

A message with order 0 is a whole payload, unless it announces the size of one
that follows in parts. Parts are collected in groups by id until they add up to
the announced size. A critical payload that arrives again is recognised by its
id.

Ids wrap around. Ids are ordered relative to the newest one; going forward to a
new id makes everything known about the ids on the way obsolete, because the
sender is using them again.
-/

namespace Courier

structure Delivery where
  kind : Kind
  critical : Bool
  fragment : UInt8
  data : Bytes
  deriving DecidableEq, Repr

structure Group where
  id : UInt8
  total : Option Nat := none
  kind : Option Kind := none
  critical : Bool := false
  /-- Parts by increasing order. -/
  parts : List (UInt8 × Bytes) := []
  received : Nat := 0
  deriving DecidableEq, Repr

namespace Group

def hasPart (g : Group) (order : UInt8) : Bool := g.parts.any (·.1 == order)

def insertPart (order : UInt8) (data : Bytes) : List (UInt8 × Bytes) → List (UInt8 × Bytes)
  | [] => [(order, data)]
  | part :: rest =>
    if order < part.1 then (order, data) :: part :: rest else part :: insertPart order data rest

def addPart (g : Group) (m : Message) : Group :=
  { g with
    kind := g.kind.or (some m.kind)
    critical := g.critical || m.critical
    received := g.received + m.data.length
    parts := insertPart m.order m.data g.parts }

/-- A different size than announced before starts the group anew. -/
def announce (g : Group) (total : Nat) (critical : Bool) : Group :=
  let g := if g.total.any (· != total) then { id := g.id } else g
  { g with total := some total, critical := g.critical || critical }

/-- Whether the parts are numbered from 1 without a gap and have the announced size. -/
def isComplete (g : Group) : Bool :=
  g.total == some g.received &&
    g.parts.map (·.1) == (List.range g.parts.length).map fun i => UInt8.ofNat (i + 1)

def delivery (g : Group) : Delivery :=
  { kind := g.kind.getD .data
    critical := g.critical
    fragment := g.id
    data := g.parts.flatMap (·.2) }

end Group

structure Assembly where
  /-- Incomplete groups, oldest first. -/
  groups : List Group := []
  newest : Option UInt8 := none
  /-- Ids of critical payloads that were delivered. -/
  delivered : List UInt8 := []
  duplicates : Nat := 0
  /-- Announcements and groups that were given up. -/
  discarded : Nat := 0
  deriving DecidableEq, Repr

namespace Assembly

def maxGroups : Nat := 8

/-- The largest payload that fits an outbox together with its announcement. -/
def maxSize : Nat := (Outbox.capacity - 2) * Message.maxData

/-- Whether going forward from `newest` to `id` passes or reaches `x`. -/
def passes (newest id x : UInt8) : Bool := x != newest && x - newest ≤ id - newest

/-- Moves the newest id forward and forgets the ids on the way. -/
def observe (a : Assembly) (id : UInt8) : Assembly :=
  match a.newest with
  | none => { a with newest := some id }
  | some newest =>
    if Serial.ahead8 id newest then
      let stays (x : UInt8) : Bool := !passes newest id x
      let groups := a.groups.filter (stays ·.id)
      { a with
        newest := some id
        groups
        delivered := a.delivered.filter stays
        discarded := a.discarded + (a.groups.length - groups.length) }
    else a

def complete (a : Assembly) (d : Delivery) : Assembly :=
  if d.critical then
    { a with delivered := d.fragment :: a.delivered.filter (· != d.fragment) }
  else a

/-- Makes sure there is a group for `id`; the oldest group makes way if there are too many. -/
def openGroup (a : Assembly) (id : UInt8) : Assembly :=
  if a.groups.any (·.id == id) then a
  else if maxGroups ≤ a.groups.length then
    { a with groups := a.groups.drop 1 ++ [{ id }], discarded := a.discarded + 1 }
  else { a with groups := a.groups ++ [{ id }] }

def find? (a : Assembly) (id : UInt8) : Option Group := a.groups.find? (·.id == id)

def setGroup (a : Assembly) (g : Group) : Assembly :=
  { a with groups := a.groups.map fun h => if h.id == g.id then g else h }

def update (a : Assembly) (g : Group) : Option Delivery × Assembly :=
  if g.isComplete then
    let a := { a with groups := a.groups.filter (·.id != g.id) }
    (some g.delivery, a.complete g.delivery)
  else (none, a.setGroup g)

def acceptAnnouncement (a : Assembly) (m : Message) : Option Delivery × Assembly :=
  match Announcement.decode m.data with
  | .error _ => (none, { a with discarded := a.discarded + 1 })
  | .ok total =>
    if maxSize < total.toNat then (none, { a with discarded := a.discarded + 1 })
    else
      let a := a.openGroup m.fragment
      let group := (a.find? m.fragment).getD { id := m.fragment }
      a.update (group.announce total.toNat m.critical)

def acceptPart (a : Assembly) (m : Message) : Option Delivery × Assembly :=
  let a := a.openGroup m.fragment
  let group := (a.find? m.fragment).getD { id := m.fragment }
  if group.hasPart m.order then (none, { a with duplicates := a.duplicates + 1 })
  else a.update (group.addPart m)

/-- Takes one message and returns the payload that it completes. -/
def accept (a : Assembly) (m : Message) : Option Delivery × Assembly :=
  let a := a.observe m.fragment
  if m.critical && a.delivered.contains m.fragment then
    (none, { a with duplicates := a.duplicates + 1 })
  else if m.order != 0 then a.acceptPart m
  else if m.kind == .announcement then a.acceptAnnouncement m
  else
    let d : Delivery :=
      { kind := m.kind, critical := m.critical, fragment := m.fragment, data := m.data }
    (some d, a.complete d)

def acceptAll : Assembly → List Message → List Delivery × Assembly
  | a, [] => ([], a)
  | a, m :: rest =>
    let (d?, a) := a.accept m
    let (ds, a) := acceptAll a rest
    (d?.toList ++ ds, a)

end Assembly

end Courier
