import Courier.Message
import Courier.Message.Payload
import Courier.Window

/-!
# The outbox

A ring of 32 slots with outgoing messages. Going forward from `start`, the
first `length` slots are pending. All others form the free region: it still
holds messages that packets carry until they are acknowledged, dropped or
overwritten. A critical message whose packet is not acknowledged is never
overwritten; the write position moves it further into the free region.
-/

namespace Courier

inductive OutboxError where
  | full (needed available : Nat)
  /-- Too much of the free region is held by unacknowledged critical messages. -/
  | exhausted
  deriving DecidableEq, Repr

def OutboxError.message : OutboxError → String
  | .full needed available =>
    s!"message queue full: {needed} slots needed, {available} available"
  | .exhausted => "no reusable slot: free region is held by unacknowledged critical messages"

inductive Slot where
  | free
  | pending (m : Message)
  /-- Written into the packet at this window position. -/
  | inFlight (m : Message) (packet : UInt8)
  deriving DecidableEq, Repr

namespace Slot

def isInFlight : Slot → Bool
  | .inFlight .. => true
  | _ => false

def pending? : Slot → Option Message
  | .pending m => some m
  | _ => none

def inFlight? : Slot → Option Message
  | .inFlight m _ => some m
  | _ => none

def carriedBy (packet : UInt8) : Slot → Bool
  | .inFlight _ p => p == packet
  | _ => false

/-- Whether the slot holds a critical message whose packet is not in `acked`. -/
def isHeld (acked : UInt32) : Slot → Bool
  | .inFlight m packet => m.critical && !Window.has acked packet.toUInt32
  | _ => false

def isReusable (acked : UInt32) : Slot → Bool
  | .pending _ => false
  | slot => !slot.isHeld acked

end Slot

abbrev Place := Fin 32

namespace Place

def origin : Place := ⟨0, by decide⟩

def forward (p : Place) (steps : Nat) : Place := ⟨(p.val + steps) % 32, Nat.mod_lt _ (by decide)⟩

def previous (p : Place) : Place := p.forward 31

theorem forward_zero (p : Place) : p.forward 0 = p := Fin.ext (Nat.mod_eq_of_lt p.isLt)

theorem forward_forward (p : Place) (m n : Nat) : (p.forward m).forward n = p.forward (m + n) := by
  apply Fin.ext
  simp only [forward]
  omega

theorem forward_previous (p : Place) : p.previous.forward 1 = p := by
  apply Fin.ext
  simp only [forward, previous]
  omega

end Place

structure Outbox where
  slots : Vector Slot 32 := Vector.replicate 32 .free
  start : Place := .origin
  next : Place := .origin
  length : Nat := 0
  nextId : UInt8 := 0
  deriving DecidableEq, Repr

namespace Outbox

def capacity : Nat := 32

def slot (box : Outbox) (i : Place) : Slot := box.slots[i]

def put (box : Outbox) (i : Place) (slot : Slot) : Outbox :=
  { box with slots := box.slots.set i slot }

def isEmpty (box : Outbox) : Bool := box.length == 0

/-- The slots going forward from the write position up to the oldest pending one. -/
def freeRegion (box : Outbox) : List Place :=
  (List.range (capacity - box.length)).map box.next.forward

/-- The pending messages, oldest first. -/
def pending (box : Outbox) : List Message :=
  (List.range box.length).filterMap fun k => (box.slot (box.start.forward k)).pending?

def inFlightCount (box : Outbox) : Nat := box.slots.toList.countP Slot.isInFlight

/-- The slots that `packet` carries, oldest first. -/
def carried (box : Outbox) (packet : UInt8) : List Place :=
  box.freeRegion.filter fun i => (box.slot i).carriedBy packet

def reusableCount (box : Outbox) (acked : UInt32) : Nat :=
  box.freeRegion.countP fun i => (box.slot i).isReusable acked

/-- Slots left for new messages; one slot always stays out of use. The count is
a word of 64 bits, which wraps around when all slots are pending. -/
def room (box : Outbox) : Nat := (UInt64.size + (capacity - 1) - box.length) % UInt64.size

/-- Makes the slot at the write position ready. A held message there changes
places with the next reusable slot of the free region. -/
def prepare (box : Outbox) (acked : UInt32) : Except OutboxError Outbox :=
  if capacity ≤ box.length + 1 then .error (.full 1 box.room)
  else if (box.slot box.next).isHeld acked then
    match (box.freeRegion.drop 1).find? fun i => (box.slot i).isReusable acked with
    | none => .error .exhausted
    | some i =>
      .ok ((box.put i (box.slot box.next)).put box.next .free)
  else .ok box

def push (box : Outbox) (acked : UInt32) (m : Message) : Except OutboxError Outbox :=
  (box.prepare acked).map fun box =>
    { box.put box.next (.pending m) with
      next := box.next.forward 1
      length := box.length + 1 }

/-- Adds messages one by one up to the first that does not fit. -/
def pushAll (acked : UInt32) : Outbox → List Message → Except OutboxError Unit × Outbox
  | box, [] => (.ok (), box)
  | box, m :: rest =>
    match box.push acked m with
    | .error e => (.error e, box)
    | .ok box => pushAll acked box rest

def chunkCount (size : Nat) : Nat := (size + Message.maxData - 1) / Message.maxData

def chunks (data : Bytes) : List Bytes :=
  (List.range (chunkCount data.length)).map fun i =>
    (data.drop (i * Message.maxData)).take Message.maxData

def messagesNeeded (size : Nat) : Nat :=
  if Message.maxData < size then 1 + chunkCount size else 1

/-- The messages of a payload. A payload that does not fit one message is
announced with its total size and follows in parts with orders from 1. -/
def pieces (kind : Kind) (critical : Bool) (id : UInt8) (payload : Bytes) : List Message :=
  if Message.maxData < payload.length then
    let total := UInt32.ofNat payload.length
    { kind := .announcement, critical, fragment := id, order := 0,
      data := Announcement.encode total } ::
      (chunks payload).mapIdx fun i data =>
        { kind, critical, fragment := id, order := UInt8.ofNat (i + 1), data }
  else [{ kind, critical, fragment := id, order := 0, data := payload }]

/-- Queues a payload under the next id. Nothing is queued unless all its
messages fit. -/
def enqueue (box : Outbox) (kind : Kind) (critical : Bool) (payload : Bytes) (acked : UInt32) :
    Except OutboxError UInt8 × Outbox :=
  let needed := messagesNeeded payload.length
  if box.room < needed then (.error (.full needed box.room), box)
  -- held messages can be moved within the free region, but not out of it
  else if box.reusableCount acked < needed then (.error .exhausted, box)
  else
    let id := box.nextId
    let (result, box) :=
      pushAll acked { box with nextId := id + 1 } (pieces kind critical id payload)
    (result.map fun _ => id, box)

/-- Moves the oldest pending message into `packet` if it fits `capacity` bytes. -/
def drainOne (box : Outbox) (capacity : Nat) (packet : UInt8) : Option (Message × Outbox) :=
  if box.length = 0 then none
  else match box.slot box.start with
    | .pending m =>
      if m.wireSize ≤ capacity then
        some (m,
          { box.put box.start (.inFlight m packet) with
            start := box.start.forward 1
            length := box.length - 1 })
      else none
    | _ => none

/-- Moves at most `limit` pending messages, oldest first, into `packet` while
they fit `capacity` bytes together. -/
def drainUpTo : (limit : Nat) → Outbox → (capacity : Nat) → (packet : UInt8) → List Message × Outbox
  | 0, box, _, _ => ([], box)
  | limit + 1, box, capacity, packet =>
    match box.drainOne capacity packet with
    | none => ([], box)
    | some (m, box) =>
      let (rest, box) := drainUpTo limit box (capacity - m.wireSize) packet
      (m :: rest, box)

def drain (box : Outbox) (capacity : Nat) (packet : UInt8) : List Message × Outbox :=
  drainUpTo box.length box capacity packet

/-- Frees a slot that is in flight and returns its message. -/
def release (box : Outbox) (i : Place) : Option Message × Outbox :=
  match box.slot i with
  | .inFlight m _ => (some m, box.put i .free)
  | _ => (none, box)

def releaseAll : Outbox → List Place → List Message × Outbox
  | box, [] => ([], box)
  | box, i :: rest =>
    let (m?, box) := box.release i
    let (ms, box) := releaseAll box rest
    (m?.toList ++ ms, box)

/-- Makes `m`, which is in flight at `i`, the oldest pending message; whatever
was in front of the pending slots takes its place. -/
def restore (box : Outbox) (i : Place) (m : Message) : Outbox :=
  let target := box.start.previous
  { (box.put i (box.slot target)).put target (.pending m) with
    start := target
    length := box.length + 1 }

/-- Puts slots that are in flight back in front of the pending ones, keeping
their order, and counts them. -/
def requeue (box : Outbox) : List Place → Nat × Outbox
  | [] => (0, box)
  | i :: rest =>
    let (moved, box) := box.requeue rest
    match box.slot i with
    | .inFlight m _ => (moved + 1, box.restore i m)
    | _ => (moved, box)

theorem slot_put (box : Outbox) (i j : Place) (slot : Slot) :
    (box.put i slot).slot j = if i = j then slot else box.slot j := by
  simp only [Outbox.slot, put, Fin.getElem_fin, Vector.getElem_set, Fin.ext_iff]

@[simp] theorem length_put (box : Outbox) (i : Place) (slot : Slot) :
    (box.put i slot).length = box.length := rfl

@[simp] theorem length_chunks (data : Bytes) : (chunks data).length = chunkCount data.length := by
  simp [chunks]

@[simp] theorem length_pieces (kind : Kind) (critical : Bool) (id : UInt8) (payload : Bytes) :
    (pieces kind critical id payload).length = messagesNeeded payload.length := by
  simp only [pieces, messagesNeeded]
  split <;> simp [Nat.add_comm]

theorem room_of_le {box : Outbox} (h : box.length ≤ 31) : box.room = 31 - box.length := by
  simp only [room, capacity, UInt64.size]
  omega

end Outbox

end Courier
