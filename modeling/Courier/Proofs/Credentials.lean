import Mathlib.Data.List.TakeWhile
import Courier.Message.Payload
import Courier.Proofs.Packet
import Courier.Proofs.Text.Utf8

/-!
# Credentials are read up to the first NUL

A field ends at its first zero or after 16 bytes, so a full field needs no
terminator, and a field that holds NUL is cut there. `survives_encoding`:
accepted credentials are read unchanged exactly if neither field holds NUL.
-/

namespace Courier

theorem Bytes.untilZero_padTo {size : Nat} {bytes : Bytes} (h : bytes.length ≤ size) :
    untilZero (padTo size bytes) = untilZero bytes := by
  have hpadding : (List.replicate (size - bytes.length) (0 : UInt8)).takeWhile (· != 0) = [] := by
    simp
  rw [padTo_eq h, untilZero, List.takeWhile_append, hpadding, List.append_nil]
  split
  next hall => exact ((List.takeWhile_prefix _).eq_of_length hall).symm
  · rfl

namespace Credentials

def Fits (c : Credentials) : Prop := c.user.utf8ByteSize ≤ 16 ∧ c.password.utf8ByteSize ≤ 16

def NulFree (c : Credentials) : Prop := '\x00' ∉ c.user.toList ∧ '\x00' ∉ c.password.toList

/-- The fields up to the first NUL of each. -/
def untilNul (c : Credentials) : Credentials where
  user := Utf8.untilNul c.user
  password := Utf8.untilNul c.password

variable {c c' : Credentials}

theorem untilNul_eq_self_iff : c.untilNul = c ↔ c.NulFree := by
  obtain ⟨user, password⟩ := c
  simp only [untilNul, NulFree, Credentials.mk.injEq, Utf8.untilNul_eq_self_iff]

theorem make_ok_iff {user password : String} :
    make user password = .ok c ↔ c = ⟨user, password⟩ ∧ Fits ⟨user, password⟩ := by
  have hlong : fieldSize < (Utf8.encode user).length ∨ fieldSize < (Utf8.encode password).length ↔
      ¬ Fits ⟨user, password⟩ := by
    simp only [Utf8.length_encode, fieldSize, Fits]
    omega
  rw [make]
  by_cases h : Fits ⟨user, password⟩
  · rw [if_neg (mt hlong.mp (not_not.mpr h)), Except.ok.injEq, and_iff_left h, eq_comm]
  · rw [if_pos (hlong.mpr h)]
    constructor
    · intro hmade
      cases hmade
    · rintro ⟨-, hfits⟩
      exact absurd hfits h

theorem read_field {text : String} (h : text.utf8ByteSize ≤ 16) :
    Utf8.decode (Bytes.untilZero ((Utf8.encode text).padTo fieldSize)) = Utf8.untilNul text := by
  rw [Bytes.untilZero_padTo (by rwa [Utf8.length_encode]), Utf8.untilZero_encode,
    Utf8.decode_encode]

theorem Fits.decode_encode (h : c.Fits) : decode c.encode = .ok c.untilNul := by
  have hlength : ((Utf8.encode c.user).padTo fieldSize).length = fieldSize := Bytes.length_padTo _ _
  rw [decode, if_pos c.length_encode, encode, List.take_left' hlength, List.drop_left' hlength,
    read_field h.1, read_field h.2]
  rfl

theorem Fits.decode_encode_eq_self_iff (h : c.Fits) : decode c.encode = .ok c ↔ c.NulFree := by
  rw [h.decode_encode, Except.ok.injEq, untilNul_eq_self_iff]

theorem Fits.eq_of_encode_eq (h : c.Fits) (h' : c'.Fits) (hfree : c.NulFree) (hfree' : c'.NulFree)
    (hsame : c.encode = c'.encode) : c = c' := by
  have hread := h.decode_encode_eq_self_iff.mpr hfree
  rw [hsame, h'.decode_encode_eq_self_iff.mpr hfree'] at hread
  exact (Except.ok.inj hread).symm

/-- Fields of at most 16 bytes are accepted. They are read up to their first NUL, so
unchanged exactly if they hold none, and without NUL different ones are written differently. -/
theorem survives_encoding (user password : String) :
    ((∃ c, make user password = .ok c) ↔ user.utf8ByteSize ≤ 16 ∧ password.utf8ByteSize ≤ 16) ∧
      ∀ c, make user password = .ok c →
        decode c.encode = .ok ⟨Utf8.untilNul user, Utf8.untilNul password⟩ ∧
          (decode c.encode = .ok c ↔ '\x00' ∉ user.toList ∧ '\x00' ∉ password.toList) ∧
          ∀ user' password' c', make user' password' = .ok c' → c.NulFree → c'.NulFree →
            c.encode = c'.encode → c = c' := by
  refine ⟨?_, fun c hc => ?_⟩
  · simp only [make_ok_iff, exists_eq_left]
    rfl
  · obtain ⟨rfl, hfits⟩ := make_ok_iff.mp hc
    refine ⟨hfits.decode_encode, hfits.decode_encode_eq_self_iff, fun user' password' c' hc' => ?_⟩
    obtain ⟨rfl, hfits'⟩ := make_ok_iff.mp hc'
    exact hfits.eq_of_encode_eq hfits'

theorem survives_encoding_cut :
    ∃ c, make "crème brûlées" "open\x00sesame" = .ok c ∧
      decode c.encode = .ok ⟨"crème brûlées", "open"⟩ ∧ decode c.encode ≠ .ok c := by
  obtain ⟨haccepts, hread⟩ := survives_encoding "crème brûlées" "open\x00sesame"
  obtain ⟨c, hc⟩ := haccepts.mpr (by decide)
  obtain ⟨hcut, hsame, -⟩ := hread c hc
  refine ⟨c, hc, hcut, fun h => ?_⟩
  exact absurd (hsame.mp h) (by decide)

end Credentials

end Courier
