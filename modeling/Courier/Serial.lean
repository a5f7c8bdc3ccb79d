/-!
# Serial numbers

Counters of a fixed width that wrap around. One is ahead of another when going
forward from the second reaches it within half the range; of two numbers that
are exactly half the range apart, the larger one is ahead.
-/

namespace Courier.Serial

def half (w : Nat) : Nat := 1 <<< (w - 1)

def ahead {w : Nat} (a b : BitVec w) : Bool :=
  (b.toNat < a.toNat && a.toNat - b.toNat ≤ half w) ||
    (a.toNat < b.toNat && half w < b.toNat - a.toNat)

def ahead8 (a b : UInt8) : Bool := ahead a.toBitVec b.toBitVec

def ahead16 (a b : UInt16) : Bool := ahead a.toBitVec b.toBitVec

def ahead32 (a b : UInt32) : Bool := ahead a.toBitVec b.toBitVec

/-- Steps forward from `start` to `goal` on a circle of `modulus` positions. -/
def distance (goal start : UInt32) (modulus : Nat) : UInt32 :=
  UInt32.ofNat ((goal.toNat % modulus + modulus - start.toNat % modulus) % modulus)

theorem ahead_irrefl {w : Nat} (a : BitVec w) : ahead a a = false := by
  simp [ahead]

theorem ahead_asymm {w : Nat} (a b : BitVec w) (h : ahead a b = true) : ahead b a = false := by
  simp only [ahead, Bool.or_eq_true, Bool.and_eq_true, decide_eq_true_eq] at h
  simp only [ahead, Bool.or_eq_false_iff, Bool.and_eq_false_iff, decide_eq_false_iff_not]
  omega

theorem ahead_total {w : Nat} (a b : BitVec w) (h : a ≠ b) :
    ahead a b = true ∨ ahead b a = true := by
  have hne : a.toNat ≠ b.toNat := fun e => h (BitVec.eq_of_toNat_eq e)
  simp only [ahead, Bool.or_eq_true, Bool.and_eq_true, decide_eq_true_eq]
  omega

end Courier.Serial
