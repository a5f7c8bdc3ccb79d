/-!
# Byte sequences

Datagrams, payloads and fields are lists of bytes. Fixed-width numbers are
stored least significant byte first.
-/

namespace Courier

abbrev Bytes := List UInt8

namespace Bytes

def ofNat : (width n : Nat) → Bytes
  | 0, _ => []
  | width + 1, n => UInt8.ofNat n :: ofNat width (n / 256)

def toNat : Bytes → Nat
  | [] => 0
  | b :: rest => b.toNat + 256 * toNat rest

def span : (width : Nat) → Nat
  | 0 => 1
  | width + 1 => 256 * span width

@[simp] theorem length_ofNat (width n : Nat) : (ofNat width n).length = width := by
  induction width generalizing n with
  | zero => rfl
  | succ width ih => simp [ofNat, ih]

theorem toNat_ofNat (width n : Nat) : toNat (ofNat width n) = n % span width := by
  induction width generalizing n with
  | zero => simp [ofNat, toNat, span, Nat.mod_one]
  | succ width ih =>
    have byte : (UInt8.ofNat n).toNat = n % 256 := by simp
    rw [ofNat, toNat, ih, byte, span, Nat.mod_mul]

theorem ofNat_toNat (bytes : Bytes) : ofNat bytes.length (toNat bytes) = bytes := by
  induction bytes with
  | nil => rfl
  | cons b rest ih =>
    have hb : b.toNat < 256 := b.toNat_lt
    have hq : (b.toNat + 256 * toNat rest) / 256 = toNat rest := by omega
    have hm : UInt8.ofNat (b.toNat + 256 * toNat rest) = b := by
      apply UInt8.toNat_inj.mp
      simp only [UInt8.toNat_ofNat']
      omega
    simp only [List.length_cons, ofNat, toNat, hq, hm, ih]

/-- `size` bytes from the front, zeros filling what is missing. -/
def padTo (size : Nat) (bytes : Bytes) : Bytes :=
  bytes.take size ++ List.replicate (size - bytes.length) 0

@[simp] theorem length_padTo (size : Nat) (bytes : Bytes) : (padTo size bytes).length = size := by
  simp only [padTo, List.length_append, List.length_take, List.length_replicate]
  omega

def untilZero (bytes : Bytes) : Bytes := bytes.takeWhile (· != 0)

end Bytes

end Courier
