import Mathlib.Algebra.Order.Ring.Int
import Courier.Serial

/-!
# Serial numbers as numbers that do not wrap

A counter stands for every number that it is congruent to. Within half the
range of each other two numbers compare as their counters do, so a tracker may
be described by the numbers its counters stand for.
-/

namespace Courier.Serial

theorem two_mul_half {w : Nat} (hw : 0 < w) : 2 * half w = 2 ^ w := by
  obtain ⟨v, rfl⟩ : ∃ v, w = v + 1 := ⟨w - 1, by omega⟩
  simp only [half, Nat.add_sub_cancel, Nat.one_shiftLeft, Nat.pow_succ]
  omega

theorem multiples_apart {h : Int} (hpos : 0 < h) (i j : Int) :
    h * i - h * j ≤ -(2 * h) ∨ h * i - h * j = -h ∨ h * i - h * j = 0 ∨ h * i - h * j = h ∨
      2 * h ≤ h * i - h * j := by
  rw [← Int.mul_sub]
  generalize i - j = d
  rcases (by omega : d ≤ -2 ∨ d = -1 ∨ d = 0 ∨ d = 1 ∨ 2 ≤ d) with hd | rfl | rfl | rfl | hd
  · have := Int.mul_le_mul_of_nonneg_left hd (Int.le_of_lt hpos)
    omega
  · omega
  · omega
  · omega
  · have := Int.mul_le_mul_of_nonneg_left hd (Int.le_of_lt hpos)
    omega

theorem ahead_iff {w : Nat} (hw : 0 < w) {a b : BitVec w} {x y : Int}
    (ha : (a.toNat : Int) = x % 2 ^ w) (hb : (b.toNat : Int) = y % 2 ^ w)
    (hxy : x - y < half w) (hyx : y - x < half w) : ahead a b = true ↔ y < x := by
  have hh : (2 : Int) ^ w = 2 * (half w : Int) := by exact_mod_cast (two_mul_half hw).symm
  have hpow : (0 : Int) < 2 ^ w := Int.pow_pos (by decide)
  have hpos : (0 : Int) < half w := by omega
  have hx := Int.emod_add_mul_ediv x (2 ^ w)
  have hy := Int.emod_add_mul_ediv y (2 ^ w)
  have hxlt := Int.emod_lt_of_pos x hpow
  have hylt := Int.emod_lt_of_pos y hpow
  rw [← ha] at hx hxlt
  rw [← hb] at hy hylt
  rw [hh, Int.mul_assoc] at hx hy
  rw [hh] at hxlt hylt
  have hcases := multiples_apart hpos (x / (2 * half w)) (y / (2 * half w))
  simp only [ahead, Bool.or_eq_true, Bool.and_eq_true, decide_eq_true_eq]
  omega

theorem ahead32_iff {a b : UInt32} {x y : Int} (ha : (a.toNat : Int) = x % 2 ^ 32)
    (hb : (b.toNat : Int) = y % 2 ^ 32) (hxy : x - y < 2 ^ 31) (hyx : y - x < 2 ^ 31) :
    ahead32 a b = true ↔ y < x :=
  ahead_iff (by decide) ha hb hxy hyx

/-- Of two counters not far behind a third one, the one less far behind is ahead. -/
theorem ahead32_iff_back {n a b : UInt32} (ha : (n - a).toNat < 2 ^ 31)
    (hb : (n - b).toNat < 2 ^ 31) : ahead32 a b = true ↔ (n - a).toNat < (n - b).toNat := by
  have hshown (c : UInt32) : (c.toNat : Int) = ((n.toNat : Int) - (n - c).toNat) % 2 ^ 32 := by
    have hc := c.toNat_lt
    have hn := n.toNat_lt
    rw [UInt32.toNat_sub]
    omega
  rw [ahead32_iff (hshown a) (hshown b) (by omega) (by omega)]
  omega

theorem ahead8_iff {m n : Nat} (hmn : m ≤ n + 127) (hnm : n ≤ m + 127) :
    ahead8 (UInt8.ofNat m) (UInt8.ofNat n) = true ↔ n < m := by
  have h := ahead_iff (w := 8) (a := (UInt8.ofNat m).toBitVec) (b := (UInt8.ofNat n).toBitVec)
    (x := m) (y := n) (by decide) (by simp) (by simp)
    (by simp [half]; omega) (by simp [half]; omega)
  simpa [ahead8] using h

end Courier.Serial
