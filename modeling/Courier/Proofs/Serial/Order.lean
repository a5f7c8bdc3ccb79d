import Mathlib.Data.Set.Image
import Mathlib.Order.Defs.Unbundled
import Courier.Proofs.Serial

/-!
# Counters that wrap are ordered as what they count

`Unwraps` says what comparing wrapping counters tells about the numbers counted:
their order, as long as these are less than half the range apart. `ahead_unwraps`
says so for counters of all three widths, wherever they wrap. Further apart,
counters can be ahead of each other in a circle.
-/

namespace Courier.Serial

/-- What the comparison `ahead` of `w`-bit counters says about the numbers they
stand for: `counter x` stands for `x`. Distances are measured on 32-bit counters. -/
structure Unwraps (w : Nat) {α : Type} [DecidableEq α] (counter : Int → α) (widen : α → UInt32)
    (ahead : α → α → Bool) : Prop where
  exactly_one : ∀ a b, [ahead a b, ahead b a, decide (a = b)].count true = 1
  ahead_iff : ∀ x y, (x - y).natAbs < 2 ^ (w - 1) → (ahead (counter x) (counter y) = true ↔ y < x)
  distance_eq : ∀ x y, (x - y).natAbs < 2 ^ (w - 1) → y < x →
    ((distance (widen (counter x)) (widen (counter y)) (2 ^ w)).toNat : Int) = x - y
  ordered : ∀ run : Set Int, (∀ x ∈ run, ∀ y ∈ run, (x - y).natAbs < 2 ^ (w - 1)) →
    IsStrictTotalOrder (counter '' run) fun a b => ahead b.val a.val = true

theorem ahead_exactly_one {w : Nat} (a b : BitVec w) :
    [ahead a b, ahead b a, decide (a = b)].count true = 1 := by
  by_cases hab : a = b
  · subst hab
    simp [ahead_irrefl]
  · rcases ahead_total a b hab with h | h
    · simp [h, ahead_asymm a b h, hab]
    · simp [h, ahead_asymm b a h, hab]

theorem toNat_distance {modulus : Nat} (hm : modulus ≤ 2 ^ 32) (goal start : UInt32) {x y : Int}
    (hgoal : (goal.toNat : Int) = x % modulus) (hstart : (start.toNat : Int) = y % modulus)
    (hle : y ≤ x) (hlt : x - y < modulus) :
    ((distance goal start modulus).toNat : Int) = x - y := by
  have hpos : 0 < modulus := by omega
  have hg : goal.toNat < modulus := by
    have := Int.emod_lt_of_pos x (Int.ofNat_lt.mpr hpos)
    omega
  have hs : start.toNat < modulus := by
    have := Int.emod_lt_of_pos y (Int.ofNat_lt.mpr hpos)
    omega
  have hsteps :
      ((goal.toNat + modulus - start.toNat : Nat) : Int) = x % modulus + modulus - y % modulus := by
    omega
  have hmod := Nat.mod_lt (goal.toNat + modulus - start.toNat) hpos
  rw [distance, Nat.mod_eq_of_lt hg, Nat.mod_eq_of_lt hs, UInt32.toNat_ofNat',
    Nat.mod_eq_of_lt (by omega)]
  calc ((goal.toNat + modulus - start.toNat) % modulus : Nat)
      = (x % modulus + modulus - y % modulus) % (modulus : Int) := by rw [Int.natCast_emod, hsteps]
    _ = (x - y) % modulus := by simp [Int.sub_emod]
    _ = x - y := Int.emod_eq_of_lt (by omega) hlt

section
variable {w : Nat} {α : Type}

/-- A comparison that agrees with the numbers counted orders the counters as these are ordered. -/
theorem isStrictTotalOrder_of_iff (ahead : α → α → Bool) (counter : Int → α) {run : Set Int}
    (h : ∀ x ∈ run, ∀ y ∈ run, (ahead (counter x) (counter y) = true ↔ y < x)) :
    IsStrictTotalOrder (counter '' run) fun a b => ahead b.val a.val = true where
  irrefl := by
    rintro ⟨_, x, hx, rfl⟩ hlt
    exact lt_irrefl x ((h x hx x hx).mp hlt)
  trans := by
    rintro ⟨_, x, hx, rfl⟩ ⟨_, y, hy, rfl⟩ ⟨_, z, hz, rfl⟩ hxy hyz
    exact (h z hz x hx).mpr (((h y hy x hx).mp hxy).trans ((h z hz y hy).mp hyz))
  trichotomous := by
    rintro ⟨_, x, hx, rfl⟩ ⟨_, y, hy, rfl⟩ hxy hyx
    have hle : y ≤ x := not_lt.mp fun hlt => hxy ((h y hy x hx).mpr hlt)
    have hge : x ≤ y := not_lt.mp fun hlt => hyx ((h x hx y hy).mpr hlt)
    exact Subtype.ext (congrArg counter (le_antisymm hge hle))

variable [DecidableEq α] {counter : Int → α} {widen : α → UInt32}

theorem unwraps_of_bits (hpos : 0 < w) (hle : w ≤ 32) (bits : α → BitVec w)
    (hinj : ∀ a b, bits a = bits b ↔ a = b)
    (hcounter : ∀ x, bits (counter x) = BitVec.ofNat w (x % 2 ^ w).toNat)
    (hwiden : ∀ a, (widen a).toNat = (bits a).toNat) :
    Unwraps w counter widen fun a b => Serial.ahead (bits a) (bits b) := by
  have hhalf : half w = 2 ^ (w - 1) := Nat.one_shiftLeft _
  have hturn : 2 * 2 ^ (w - 1) = 2 ^ w := hhalf ▸ two_mul_half hpos
  have hshown (x : Int) : ((bits (counter x)).toNat : Int) = x % 2 ^ w := by
    have hmod : (0 : Int) < 2 ^ w := Int.pow_pos (by decide)
    have hnonneg := Int.emod_nonneg x hmod.ne'
    have hlt := Int.emod_lt_of_pos x hmod
    have hpow : ((2 ^ w : Nat) : Int) = 2 ^ w := Nat.cast_pow 2 w
    rw [hcounter, BitVec.toNat_ofNat, Nat.mod_eq_of_lt (by omega), Int.toNat_of_nonneg hnonneg]
  have hiff (x y : Int) (hxy : (x - y).natAbs < 2 ^ (w - 1)) :
      Serial.ahead (bits (counter x)) (bits (counter y)) = true ↔ y < x :=
    Serial.ahead_iff hpos (hshown x) (hshown y) (by omega) (by omega)
  have hwide (x : Int) : ((widen (counter x)).toNat : Int) = x % (2 ^ w : Nat) := by
    rw [hwiden, hshown, Nat.cast_pow]
    rfl
  refine ⟨fun a b => ?_, hiff, fun x y hxy hlt => ?_, fun run hrun => ?_⟩
  · have hone := ahead_exactly_one (bits a) (bits b)
    rwa [decide_eq_decide.mpr (hinj a b)] at hone
  · exact toNat_distance (Nat.pow_le_pow_right (by decide) hle) _ _ (hwide x) (hwide y) (by omega)
      (by omega)
  · exact isStrictTotalOrder_of_iff (fun a b => Serial.ahead (bits a) (bits b)) counter
      fun x hx y hy => hiff x y (hrun x hx y hy)

end

/-- Counters of 32, 16 and 8 bits compare as the numbers they stand for, as long as
these are less than 2^31, 2^15 and 2^7 apart. -/
theorem ahead_unwraps :
    Unwraps 32 UInt32.ofInt id ahead32 ∧ Unwraps 16 UInt16.ofInt UInt16.toUInt32 ahead16 ∧
      Unwraps 8 UInt8.ofInt UInt8.toUInt32 ahead8 := by
  refine ⟨?_, ?_, ?_⟩
  · exact unwraps_of_bits (by decide) (by decide) UInt32.toBitVec (fun _ _ => UInt32.toBitVec_inj)
      (fun _ => rfl) fun _ => rfl
  · exact unwraps_of_bits (by decide) (by decide) UInt16.toBitVec (fun _ _ => UInt16.toBitVec_inj)
      (fun _ => rfl) UInt16.toNat_toUInt32
  · exact unwraps_of_bits (by decide) (by decide) UInt8.toBitVec (fun _ _ => UInt8.toBitVec_inj)
      (fun _ => rfl) UInt8.toNat_toUInt32

theorem ahead_unwraps_restart :
    UInt32.ofInt (-5) = 4294967291 ∧ ahead32 (UInt32.ofInt 3) (UInt32.ofInt (-5)) = true ∧
      ((distance (UInt32.ofInt 3) (UInt32.ofInt (-5)) (2 ^ 32)).toNat : Int) = 8 ∧
      IsStrictTotalOrder (UInt32.ofInt '' {x | -5 ≤ x ∧ x ≤ 3}) fun a b =>
        ahead32 b.val a.val = true := by
  obtain ⟨h, -, -⟩ := ahead_unwraps
  refine ⟨by decide, (h.ahead_iff 3 (-5) (by omega)).mpr (by omega),
    h.distance_eq 3 (-5) (by omega) (by omega), h.ordered _ fun x hx y hy => ?_⟩
  have ⟨hx, hx'⟩ := hx
  have ⟨hy, hy'⟩ := hy
  omega

/-- A third of the range apart, each of three counters is ahead of the one before. -/
example : ahead8 85 0 = true ∧ ahead8 170 85 = true ∧ ahead8 0 170 = true := by decide

end Courier.Serial
