import Courier.Bytes

/-!
# Messages

A message is the unit that a packet carries: at most 96 bytes with a kind, a
critical flag, the id of the payload it belongs to and its place in it. On the
wire four bytes come first: length, kind with flag, id and order.
-/

namespace Courier

/-- What a message is for; seven bits on the wire. -/
structure Kind where
  code : UInt8
  code_le : code ≤ 0x7F := by decide
  deriving DecidableEq, Repr

namespace Kind

def data : Kind := { code := 0 }

def credentials : Kind := { code := 1 }

/-- The total size of a payload that is split over several messages. -/
def announcement : Kind := { code := 2 }

def verdict : Kind := { code := 3 }

def maxCode : UInt8 := 0x7F

/-- The bit of the wire byte that marks a critical message. -/
def criticalFlag : UInt8 := 0x80

def ofCode? (code : UInt8) : Option Kind := if h : code ≤ maxCode then some ⟨code, h⟩ else none

def toWire (kind : Kind) (critical : Bool) : UInt8 :=
  kind.code ||| (if critical then criticalFlag else 0)

theorem and_maxCode_le (byte : UInt8) : byte &&& maxCode ≤ 0x7F := by
  simp only [UInt8.le_iff_toNat_le, UInt8.toNat_and]
  exact Nat.and_le_right

def ofWire (byte : UInt8) : Kind × Bool :=
  (⟨byte &&& maxCode, and_maxCode_le byte⟩, byte &&& criticalFlag != 0)

set_option maxRecDepth 4000 in
private theorem wire_table : ∀ i : Fin 256, i.val ≤ 127 → ∀ critical : Bool,
    (UInt8.ofNat i.val ||| (if critical then criticalFlag else 0)) &&& maxCode = UInt8.ofNat i.val ∧
      ((UInt8.ofNat i.val ||| (if critical then criticalFlag else 0)) &&& criticalFlag != 0) =
        critical := by
  decide

theorem ofWire_toWire (kind : Kind) (critical : Bool) :
    ofWire (kind.toWire critical) = (kind, critical) := by
  obtain ⟨code, hc⟩ := kind
  obtain ⟨low, high⟩ :=
    wire_table ⟨code.toNat, code.toNat_lt⟩ (UInt8.le_iff_toNat_le.mp hc) critical
  simp only [UInt8.ofNat_toNat] at low high
  simp only [ofWire, toWire, low, high]

end Kind

structure Message where
  kind : Kind
  /-- Sent again until it is acknowledged. -/
  critical : Bool
  fragment : UInt8
  order : UInt8
  data : Bytes
  deriving DecidableEq, Repr

namespace Message

def headerSize : Nat := 4

def maxData : Nat := 96

def wireSize (m : Message) : Nat := headerSize + m.data.length

def toWire (m : Message) : Bytes :=
  UInt8.ofNat m.data.length :: m.kind.toWire m.critical :: m.fragment :: m.order :: m.data

@[simp] theorem length_toWire (m : Message) : m.toWire.length = m.wireSize := by
  simp only [toWire, wireSize, headerSize, List.length_cons]
  omega

end Message

end Courier
