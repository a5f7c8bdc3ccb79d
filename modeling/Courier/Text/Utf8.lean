import Courier.Bytes

/-!
# Text as bytes

Text travels as UTF-8. Reading never fails: each longest beginning of a
sequence that cannot be completed turns into one replacement character.
-/

namespace Courier.Utf8

def encode (text : String) : Bytes := text.toList.flatMap String.utf8EncodeChar

/-- A character under way: how many bytes are missing, the bounds of the next
one, and the code point bits read so far. -/
structure Partial where
  missing : Nat
  low : UInt8
  high : UInt8
  code : Nat
  deriving DecidableEq, Repr

inductive Lead where
  | whole (c : Char)
  | opens (p : Partial)
  | invalid
  deriving DecidableEq, Repr

def Lead.ofByte (b : UInt8) : Lead :=
  let code := b.toNat
  if b < 0x80 then .whole (Char.ofNat code)
  else if b < 0xC2 then .invalid
  else if b < 0xE0 then .opens ⟨1, 0x80, 0xBF, code % 32⟩
  else if b < 0xF0 then
    .opens ⟨2, if b = 0xE0 then 0xA0 else 0x80, if b = 0xED then 0x9F else 0xBF, code % 16⟩
  else if b < 0xF5 then
    .opens ⟨3, if b = 0xF0 then 0x90 else 0x80, if b = 0xF4 then 0x8F else 0xBF, code % 8⟩
  else .invalid

def Partial.step (p : Partial) (b : UInt8) : Option Lead :=
  if p.low ≤ b ∧ b ≤ p.high then
    let code := p.code * 64 + b.toNat % 64
    if p.missing ≤ 1 then some (.whole (Char.ofNat code))
    else some (.opens ⟨p.missing - 1, 0x80, 0xBF, code⟩)
  else none

def replacement : Char := Char.ofNat 0xFFFD

/-- A reading step: the characters it completes and the character then under way. -/
def Lead.emit : Lead → List Char × Option Partial
  | .whole c => ([c], none)
  | .opens p => ([], some p)
  | .invalid => ([replacement], none)

def step : Option Partial → UInt8 → List Char × Option Partial
  | none, b => (Lead.ofByte b).emit
  | some p, b =>
    match p.step b with
    | some lead => lead.emit
    | none =>
      let (chars, next) := (Lead.ofByte b).emit
      (replacement :: chars, next)

def decodeFrom : Option Partial → Bytes → List Char
  | none, [] => []
  | some _, [] => [replacement]
  | state, b :: rest => (step state b).1 ++ decodeFrom (step state b).2 rest

def decode (bytes : Bytes) : String := String.ofList (decodeFrom none bytes)

@[simp] theorem decodeFrom_none_nil : decodeFrom none [] = [] := rfl

theorem decodeFrom_cons (state : Option Partial) (b : UInt8) (rest : Bytes) :
    decodeFrom state (b :: rest) = (step state b).1 ++ decodeFrom (step state b).2 rest := by
  cases state <;> rfl

theorem decodeFrom_ascii (b : UInt8) (rest : Bytes) (h : b < 0x80) :
    decodeFrom none (b :: rest) = Char.ofNat b.toNat :: decodeFrom none rest := by
  simp [decodeFrom_cons, step, Lead.ofByte, h, Lead.emit]

end Courier.Utf8
