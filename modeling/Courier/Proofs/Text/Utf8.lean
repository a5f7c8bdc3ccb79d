import Mathlib.Data.List.TakeWhile
import Courier.Text.Utf8

/-!
# Text is read back as it was written

`decode_encode`: the bytes of a text are read as that text. Only NUL has a zero
byte, so the bytes up to the first zero are those of the text up to its first
NUL (`untilZero_encode`).
-/

namespace Courier.Utf8

-- ---------------------------------------------------------------------------
-- First bytes
-- ---------------------------------------------------------------------------

private theorem ofByte_two : ∀ n < 32, 2 ≤ n →
    Lead.ofByte (UInt8.ofNat (n + 192)) = .opens ⟨1, 0x80, 0xBF, n⟩ := by
  decide

private theorem ofByte_three : ∀ n < 16, Lead.ofByte (UInt8.ofNat (n + 224)) =
    .opens ⟨2, if n = 0 then 0xA0 else 0x80, if n = 13 then 0x9F else 0xBF, n⟩ := by
  decide

private theorem ofByte_four : ∀ n < 5, Lead.ofByte (UInt8.ofNat (n + 240)) =
    .opens ⟨3, if n = 0 then 0x90 else 0x80, if n = 4 then 0x8F else 0xBF, n⟩ := by
  decide

theorem decodeFrom_opens {b : UInt8} {p : Partial} (h : Lead.ofByte b = .opens p) (rest : Bytes) :
    decodeFrom none (b :: rest) = decodeFrom (some p) rest := by
  rw [decodeFrom_cons, step, h]
  rfl

-- ---------------------------------------------------------------------------
-- Further bytes
-- ---------------------------------------------------------------------------

section
variable {p : Partial} {missing code m : Nat} {low high : UInt8}

theorem step_tail (hm : m < 64) (hlow : p.low.toNat ≤ m + 128) (hhigh : m + 128 ≤ p.high.toNat) :
    p.step (UInt8.ofNat (m + 128)) =
      if p.missing ≤ 1 then some (.whole (Char.ofNat (p.code * 64 + m)))
      else some (.opens ⟨p.missing - 1, 0x80, 0xBF, p.code * 64 + m⟩) := by
  have hbyte : (UInt8.ofNat (m + 128)).toNat = m + 128 :=
    UInt8.toNat_ofNat_of_lt' (by show m + 128 < 256; omega)
  have hdigit : (m + 128) % 64 = m := by omega
  rw [Partial.step, if_pos, hbyte, hdigit]
  rw [UInt8.le_iff_toNat_le, UInt8.le_iff_toNat_le, hbyte]
  exact ⟨hlow, hhigh⟩

theorem decodeFrom_last (hm : m < 64) (rest : Bytes) :
    decodeFrom (some ⟨1, 0x80, 0xBF, code⟩) (UInt8.ofNat (m + 128) :: rest) =
      Char.ofNat (code * 64 + m) :: decodeFrom none rest := by
  have hlow : (0x80 : UInt8).toNat ≤ m + 128 := by show 128 ≤ _; omega
  have hhigh : m + 128 ≤ (0xBF : UInt8).toNat := by show _ ≤ 191; omega
  rw [decodeFrom_cons, step, step_tail hm hlow hhigh]
  rfl

theorem decodeFrom_more (hm : m < 64) (hlow : low.toNat ≤ m + 128) (hhigh : m + 128 ≤ high.toNat)
    (rest : Bytes) :
    decodeFrom (some ⟨missing + 2, low, high, code⟩) (UInt8.ofNat (m + 128) :: rest) =
      decodeFrom (some ⟨missing + 1, 0x80, 0xBF, code * 64 + m⟩) rest := by
  rw [decodeFrom_cons, step, step_tail hm hlow hhigh, if_neg (by show ¬ missing + 2 ≤ 1; omega)]
  rfl

end

-- ---------------------------------------------------------------------------
-- Whole characters
-- ---------------------------------------------------------------------------

section
variable {v : Nat}

theorem decodeFrom_two (h : 0x80 ≤ v) (hv : v < 0x800) (rest : Bytes) :
    decodeFrom none (UInt8.ofNat (v / 64 % 32 + 192) :: UInt8.ofNat (v % 64 + 128) :: rest) =
      Char.ofNat v :: decodeFrom none rest := by
  have hcode : v / 64 % 32 * 64 + v % 64 = v := by omega
  rw [decodeFrom_opens (ofByte_two _ (by omega) (by omega)), decodeFrom_last (by omega), hcode]

theorem decodeFrom_three (h : 0x800 ≤ v) (hv : v < 0x10000) (hvalid : v.isValidChar)
    (rest : Bytes) :
    decodeFrom none (UInt8.ofNat (v / 4096 % 16 + 224) :: UInt8.ofNat (v / 64 % 64 + 128) ::
        UInt8.ofNat (v % 64 + 128) :: rest) = Char.ofNat v :: decodeFrom none rest := by
  -- overlong forms lie below the first bound, surrogates above the second
  have hlow : (if v / 4096 % 16 = 0 then 0xA0 else 0x80 : UInt8).toNat ≤ v / 64 % 64 + 128 := by
    split
    · show 160 ≤ _; omega
    · show 128 ≤ _; omega
  have hhigh : v / 64 % 64 + 128 ≤ (if v / 4096 % 16 = 13 then 0x9F else 0xBF : UInt8).toNat := by
    split
    · show _ ≤ 159; omega
    · show _ ≤ 191; omega
  have hcode : (v / 4096 % 16 * 64 + v / 64 % 64) * 64 + v % 64 = v := by omega
  rw [decodeFrom_opens (ofByte_three _ (by omega)), decodeFrom_more (by omega) hlow hhigh,
    decodeFrom_last (by omega), hcode]

theorem decodeFrom_four (h : 0x10000 ≤ v) (hv : v < 0x110000) (rest : Bytes) :
    decodeFrom none (UInt8.ofNat (v / 262144 % 8 + 240) :: UInt8.ofNat (v / 4096 % 64 + 128) ::
        UInt8.ofNat (v / 64 % 64 + 128) :: UInt8.ofNat (v % 64 + 128) :: rest) =
      Char.ofNat v :: decodeFrom none rest := by
  -- overlong forms lie below the first bound, what is no code point above the second
  have hlow : (if v / 262144 % 8 = 0 then 0x90 else 0x80 : UInt8).toNat ≤ v / 4096 % 64 + 128 := by
    split
    · show 144 ≤ _; omega
    · show 128 ≤ _; omega
  have hhigh : v / 4096 % 64 + 128 ≤ (if v / 262144 % 8 = 4 then 0x8F else 0xBF : UInt8).toNat := by
    split
    · show _ ≤ 143; omega
    · show _ ≤ 191; omega
  have hcode : ((v / 262144 % 8 * 64 + v / 4096 % 64) * 64 + v / 64 % 64) * 64 + v % 64 = v := by
    omega
  rw [decodeFrom_opens (ofByte_four _ (by omega)), decodeFrom_more (by omega) hlow hhigh,
    decodeFrom_more (by omega) (by show 128 ≤ _; omega) (by show _ ≤ 191; omega),
    decodeFrom_last (by omega), hcode]

end

theorem decodeFrom_utf8EncodeChar (c : Char) (rest : Bytes) :
    decodeFrom none (String.utf8EncodeChar c ++ rest) = c :: decodeFrom none rest := by
  have hvalid : c.val.toNat.isValidChar := c.valid
  have hchar : Char.ofNat c.val.toNat = c := Char.ofNat_toNat c
  simp only [String.utf8EncodeChar]
  split
  next h =>
    have hbyte : (UInt8.ofNat c.val.toNat).toNat = c.val.toNat :=
      UInt8.toNat_ofNat_of_lt' (by show _ < 256; omega)
    rw [List.singleton_append, decodeFrom_ascii, hbyte, hchar]
    rw [UInt8.lt_iff_toNat_lt, hbyte]
    exact Nat.lt_succ_of_le h
  next h1 =>
    split
    next h2 => exact (decodeFrom_two (by omega) (by omega) rest).trans (by rw [hchar])
    next h2 =>
      split
      next h3 => exact (decodeFrom_three (by omega) (by omega) hvalid rest).trans (by rw [hchar])
      next h3 =>
        have : c.val.toNat < 0x110000 := by omega
        exact (decodeFrom_four (by omega) this rest).trans (by rw [hchar])

theorem decode_encode (text : String) : decode (encode text) = text := by
  have hchars (chars : List Char) :
      decodeFrom none (chars.flatMap String.utf8EncodeChar) = chars := by
    induction chars with
    | nil => rfl
    | cons c rest ih => rw [List.flatMap_cons, decodeFrom_utf8EncodeChar, ih]
  rw [decode, encode, hchars, String.ofList_toList]

theorem length_encode (text : String) : (encode text).length = text.utf8ByteSize := by
  rw [← String.size_toByteArray, ← String.utf8Encode_toList, List.utf8Encode, List.size_toByteArray]
  rfl

-- ---------------------------------------------------------------------------
-- NUL
-- ---------------------------------------------------------------------------

/-- The characters before the first NUL, or all if there is none. -/
def untilNul (text : String) : String := String.ofList (text.toList.takeWhile (· != '\x00'))

theorem untilNul_eq_self_iff {text : String} : untilNul text = text ↔ '\x00' ∉ text.toList := by
  rw [untilNul, ← String.toList_inj, String.toList_ofList, List.takeWhile_eq_self_iff]
  constructor
  · intro h hmem
    simpa using h _ hmem
  · intro h c hc
    have hne : c ≠ '\x00' := fun e => h (e ▸ hc)
    simpa using hne

theorem ofNat_ne_zero {k : Nat} (hk : 0 < k) (hlt : k < 256) : UInt8.ofNat k ≠ 0 := by
  intro h
  have hzero := congrArg UInt8.toNat h
  rw [UInt8.toNat_ofNat_of_lt' hlt] at hzero
  exact Nat.ne_of_gt hk hzero

theorem ne_zero_of_mem {c : Char} {b : UInt8} (hc : c ≠ '\x00') (hb : b ∈ String.utf8EncodeChar c) :
    b ≠ 0 := by
  have hpos : 0 < c.val.toNat := Nat.pos_of_ne_zero fun h => hc (Char.ext (UInt32.toNat_inj.mp h))
  simp only [String.utf8EncodeChar] at hb
  split at hb
  · obtain rfl := List.mem_singleton.mp hb
    exact ofNat_ne_zero hpos (by omega)
  -- the other forms mark each of their bytes
  · split at hb
    · simp only [List.mem_cons, List.not_mem_nil, or_false] at hb
      rcases hb with rfl | rfl <;> exact ofNat_ne_zero (by omega) (by omega)
    · split at hb
      · simp only [List.mem_cons, List.not_mem_nil, or_false] at hb
        rcases hb with rfl | rfl | rfl <;> exact ofNat_ne_zero (by omega) (by omega)
      · simp only [List.mem_cons, List.not_mem_nil, or_false] at hb
        rcases hb with rfl | rfl | rfl | rfl <;> exact ofNat_ne_zero (by omega) (by omega)

theorem untilZero_encode (text : String) :
    Bytes.untilZero (encode text) = encode (untilNul text) := by
  have hchars (chars : List Char) : (chars.flatMap String.utf8EncodeChar).takeWhile (· != 0) =
      (chars.takeWhile (· != '\x00')).flatMap String.utf8EncodeChar := by
    induction chars with
    | nil => rfl
    | cons c rest ih =>
      by_cases hc : c = '\x00'
      · subst hc
        rfl
      · have hbytes : ∀ b ∈ String.utf8EncodeChar c, (b != 0) = true := fun b hb => by
          simpa using ne_zero_of_mem hc hb
        rw [List.flatMap_cons, List.takeWhile_append_of_pos hbytes, ih,
          List.takeWhile_cons_of_pos (by simpa using hc), List.flatMap_cons]
  rw [Bytes.untilZero, encode, hchars, encode, untilNul, String.toList_ofList]

end Courier.Utf8
