import Courier.Message
import Courier.Text.Utf8

/-!
# Payloads with a fixed form

The payloads that the two ends exchange themselves: the credentials of a user,
the announcement of a long payload and the verdict on the credentials.
-/

namespace Courier

inductive PayloadError where
  | length (expected actual : Nat)
  | fieldTooLong (max : Nat)
  deriving DecidableEq, Repr

def PayloadError.message : PayloadError → String
  | .length expected actual => s!"expected {expected} payload bytes, got {actual}"
  | .fieldTooLong max => s!"field longer than {max} bytes"

structure Credentials where
  user : String
  password : String
  deriving DecidableEq, Repr

namespace Credentials

def fieldSize : Nat := 16

def payloadSize : Nat := 2 * fieldSize

def make (user password : String) : Except PayloadError Credentials :=
  if fieldSize < (Utf8.encode user).length ∨ fieldSize < (Utf8.encode password).length then
    .error (.fieldTooLong fieldSize)
  else .ok { user, password }

/-- Each field takes 16 bytes: a longer one is cut, a shorter one is filled
with zeros. -/
def encode (c : Credentials) : Bytes :=
  (Utf8.encode c.user).padTo fieldSize ++ (Utf8.encode c.password).padTo fieldSize

/-- A field ends at its first zero. -/
def decode (data : Bytes) : Except PayloadError Credentials :=
  if data.length = payloadSize then
    .ok
      { user := Utf8.decode (Bytes.untilZero (data.take fieldSize))
        password := Utf8.decode (Bytes.untilZero (data.drop fieldSize)) }
  else .error (.length payloadSize data.length)

@[simp] theorem length_encode (c : Credentials) : c.encode.length = payloadSize := by
  simp [encode, payloadSize, fieldSize]

end Credentials

namespace Announcement

def encode (total : UInt32) : Bytes := Bytes.ofNat 4 total.toNat

def decode (data : Bytes) : Except PayloadError UInt32 :=
  if data.length = 4 then .ok (UInt32.ofNat data.toNat) else .error (.length 4 data.length)

theorem decode_encode (total : UInt32) : decode (encode total) = .ok total := by
  have h : total.toNat % Bytes.span 4 = total.toNat := Nat.mod_eq_of_lt total.toNat_lt
  simp only [decode, encode, Bytes.length_ofNat, Bytes.toNat_ofNat, h, if_true, UInt32.ofNat_toNat]

end Announcement

namespace Verdict

def encode (accepted : Bool) : Bytes := [if accepted then 1 else 0]

def decode : Bytes → Except PayloadError Bool
  | [flag] => .ok (flag != 0)
  | data => .error (.length 1 data.length)

theorem decode_encode (accepted : Bool) : decode (encode accepted) = .ok accepted := by
  cases accepted <;> rfl

end Verdict

end Courier
