/-!
# The packet window

A field of 32 bits describes the last 32 packets. Packet `s` owns the bit at
position `s` modulo 32, so moving the reference packet forward reuses the
positions it passes.
-/

namespace Courier.Window

def size : Nat := 32

def indexMask : UInt32 := 31

def index (sequence : UInt32) : UInt32 := sequence &&& indexMask

def slot (sequence : UInt32) : Fin 32 := ⟨sequence.toNat % 32, Nat.mod_lt _ (by decide)⟩

def bit (index : UInt32) : UInt32 := 1 <<< (index &&& indexMask)

def has (field index : UInt32) : Bool := field &&& bit index != 0

/-- How far a full field is shifted left and then right again to cut out the
positions between two others, and the lower one of them. -/
def shifts (old new : UInt32) : UInt32 × UInt32 × UInt32 :=
  let low := if new < old then new else old
  let high := if new < old then old else new
  let above := indexMask - high
  (low + above, above, low)

/-- All positions except those strictly after `old` up to `new`, going forward
around the window. -/
def keep (old new : UInt32) : UInt32 :=
  let old := old &&& indexMask
  let new := new &&& indexMask
  let (left, right, low) := shifts old new
  let between := (0xFFFFFFFF <<< left) >>> right
  -- `between` holds both ends; the lower one then changes sides
  (if old ≤ new then ~~~between else between) ^^^ (1 <<< low)

/-- Moves the reference from position `prior` to `new`, `delta` packets ahead:
clears what was passed on the way and sets the new position. A move of a whole
window or more clears everything else. -/
def mark (field new prior delta : UInt32) : UInt32 :=
  (field &&& (if delta < 32 then keep prior new else 0)) ||| bit new

def indices : List UInt32 := (List.range size).map UInt32.ofNat

end Courier.Window
