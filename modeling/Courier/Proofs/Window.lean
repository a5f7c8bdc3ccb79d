import Mathlib.Data.Nat.Bitwise
import Courier.Window

/-!
# Bits of the window

Which positions a field has after each operation on it, position by position.
`has_keep` describes the arc of positions that `keep` cuts out. Moving the reference
clears exactly the positions it passes (`has_mark_back`, case by case in
`mark_moves_arc`).
-/

namespace Courier.Window

theorem toNat_and_mask (i : UInt32) : (i &&& indexMask).toNat = i.toNat % 32 := by
  rw [UInt32.toNat_and]
  exact Nat.and_two_pow_sub_one_eq_mod i.toNat 5

theorem and_mask_lt (i : UInt32) : (i &&& indexMask).toNat < 32 := by
  rw [toNat_and_mask]
  exact Nat.mod_lt _ (by decide)

theorem toNat_bit (i : UInt32) : (bit i).toNat = 2 ^ (i.toNat % 32) := by
  have hlt : 2 ^ (i.toNat % 32) < 2 ^ 32 := Nat.pow_lt_pow_right (by decide) (by omega)
  rw [bit, UInt32.toNat_shiftLeft, toNat_and_mask, UInt32.toNat_one, Nat.mod_mod, Nat.one_shiftLeft]
  exact Nat.mod_eq_of_lt hlt

theorem has_eq_testBit (field i : UInt32) : has field i = field.toNat.testBit (i.toNat % 32) := by
  have h : (field &&& bit i).toNat =
      (field.toNat.testBit (i.toNat % 32)).toNat * 2 ^ (i.toNat % 32) := by
    rw [UInt32.toNat_and, toNat_bit, Nat.and_two_pow]
  have hpos : 0 < 2 ^ (i.toNat % 32) := Nat.two_pow_pos _
  cases hb : field.toNat.testBit (i.toNat % 32)
  · have : field &&& bit i = 0 := UInt32.toNat_inj.mp (by simpa [hb] using h)
    simp [has, this]
  · have : field &&& bit i ≠ 0 := by
      intro h0
      simp only [h0, hb, UInt32.toNat_zero, Bool.toNat_true, Nat.one_mul] at h
      omega
    simpa [has] using this

@[simp] theorem has_and (a b i : UInt32) : has (a &&& b) i = (has a i && has b i) := by
  simp [has_eq_testBit]

@[simp] theorem has_or (a b i : UInt32) : has (a ||| b) i = (has a i || has b i) := by
  simp [has_eq_testBit]

@[simp] theorem has_xor (a b i : UInt32) : has (a ^^^ b) i = (has a i ^^ has b i) := by
  simp [has_eq_testBit]

@[simp] theorem has_zero (i : UInt32) : has 0 i = false := by
  simp [has_eq_testBit]

@[simp] theorem has_full (i : UInt32) : has 0xFFFFFFFF i = true := by
  rw [has_eq_testBit]
  exact (Nat.testBit_two_pow_sub_one 32 _).trans (decide_eq_true (by omega))

@[simp] theorem has_not (a i : UInt32) : has (~~~a) i = !has a i := by
  have h : ~~~a = 0xFFFFFFFF ^^^ a := by
    rw [← UInt32.neg_one_xor]
    rfl
  rw [h, has_xor, has_full, Bool.true_xor]

theorem has_bit (i j : UInt32) : has (bit i) j = decide (i.toNat % 32 = j.toNat % 32) := by
  rw [has_eq_testBit, toNat_bit, Nat.testBit_two_pow]

theorem toNat_index (s : UInt32) : (index s).toNat = s.toNat % 32 := toNat_and_mask s

theorem has_congr {field i j : UInt32} (h : i.toNat % 32 = j.toNat % 32) :
    has field i = has field j := by
  simp only [has_eq_testBit, h]

@[simp] theorem has_index (field s : UInt32) : has field (index s) = has field s :=
  has_congr (by rw [toNat_index, Nat.mod_mod])

theorem has_shifted (left right : UInt32) (hl : left.toNat < 32) (hr : right.toNat < 32)
    (i : UInt32) :
    has ((0xFFFFFFFF <<< left) >>> right) i =
      decide (left.toNat ≤ i.toNat % 32 + right.toNat ∧ i.toNat % 32 + right.toNat < 32) := by
  have hfull : (0xFFFFFFFF : UInt32).toNat = 2 ^ 32 - 1 := rfl
  rw [has_eq_testBit, UInt32.toNat_shiftRight, UInt32.toNat_shiftLeft, Nat.mod_eq_of_lt hl,
    Nat.mod_eq_of_lt hr, Nat.testBit_shiftRight, Nat.testBit_mod_two_pow, Nat.testBit_shiftLeft,
    hfull, Nat.testBit_two_pow_sub_one, Bool.eq_iff_iff]
  simp only [Bool.and_eq_true, decide_eq_true_eq]
  omega

theorem has_one_shifted (low : UInt32) (hl : low.toNat < 32) (i : UInt32) :
    has (1 <<< low) i = decide (low.toNat = i.toNat % 32) := by
  have h : (1 : UInt32) <<< low = bit low := by
    apply UInt32.toNat_inj.mp
    rw [toNat_bit, UInt32.toNat_shiftLeft, UInt32.toNat_one, Nat.one_shiftLeft]
    exact Nat.mod_eq_of_lt (Nat.pow_lt_pow_right (by decide) (by omega))
  rw [h, has_bit, Nat.mod_eq_of_lt hl]

theorem toNat_shifts (old new : UInt32) (ho : old.toNat < 32) (hn : new.toNat < 32) :
    (shifts old new).1.toNat = min old.toNat new.toNat + (31 - max old.toNat new.toNat) ∧
      (shifts old new).2.1.toNat = 31 - max old.toNat new.toNat ∧
      (shifts old new).2.2.toNat = min old.toNat new.toNat := by
  have hlt : new < old ↔ new.toNat < old.toNat := UInt32.lt_iff_toNat_lt
  have hsub (x : UInt32) (hx : x.toNat < 32) : (indexMask - x).toNat = 31 - x.toNat := by
    rw [UInt32.toNat_sub_of_le]
    · rfl
    · exact UInt32.le_iff_toNat_le.mpr (by simpa [indexMask] using Nat.le_of_lt_succ hx)
  simp only [shifts]
  by_cases h : new.toNat < old.toNat
  · simp only [hlt.mpr h, if_true, UInt32.toNat_add, hsub old ho]
    omega
  · simp only [mt hlt.mp h, if_false, UInt32.toNat_add, hsub new hn]
    omega

/-- The positions kept are those at least as far behind `new` as `old` is. -/
theorem has_keep (old new i : UInt32) :
    has (keep old new) i =
      decide
        ((new.toNat + (32 - old.toNat % 32)) % 32 ≤ (new.toNat + (32 - i.toNat % 32)) % 32) := by
  have ho := and_mask_lt old
  have hn := and_mask_lt new
  obtain ⟨hleft, hright, hlow⟩ := toNat_shifts _ _ ho hn
  have hbetween := has_shifted (shifts (old &&& indexMask) (new &&& indexMask)).1
    (shifts (old &&& indexMask) (new &&& indexMask)).2.1 (by omega) (by omega) i
  have hone := has_one_shifted (shifts (old &&& indexMask) (new &&& indexMask)).2.2 (by omega) i
  rw [hleft, hright] at hbetween
  rw [hlow] at hone
  simp only [toNat_and_mask] at hbetween hone
  have hle : old &&& indexMask ≤ new &&& indexMask ↔ old.toNat % 32 ≤ new.toNat % 32 := by
    rw [UInt32.le_iff_toNat_le, toNat_and_mask, toNat_and_mask]
  have hi : i.toNat % 32 < 32 := Nat.mod_lt _ (by decide)
  simp only [keep, has_xor, hone]
  by_cases h : old &&& indexMask ≤ new &&& indexMask
  · rw [if_pos h, has_not, hbetween, Bool.eq_iff_iff, ← decide_not]
    rw [hle] at h
    simp only [bne_iff_ne, ne_eq, decide_eq_decide, decide_eq_true_eq]
    omega
  · rw [if_neg h, hbetween, Bool.eq_iff_iff]
    rw [hle] at h
    simp only [bne_iff_ne, ne_eq, decide_eq_decide, decide_eq_true_eq]
    omega

-- ---------------------------------------------------------------------------
-- Packets counted back from the reference
-- ---------------------------------------------------------------------------

theorem toNat_back (s : UInt32) {k : Nat} (hk : k < 32) :
    (s - UInt32.ofNat k).toNat = (s.toNat + (2 ^ 32 - k)) % 2 ^ 32 := by
  rw [UInt32.toNat_sub, UInt32.toNat_ofNat_of_lt' (Nat.lt_trans hk (by decide))]
  omega

theorem back_sub (p s : UInt32) : s - UInt32.ofNat (s - p).toNat = p := by
  have hp := p.toNat_lt
  have hs := s.toNat_lt
  apply UInt32.toNat_inj.mp
  rw [UInt32.ofNat_toNat, UInt32.toNat_sub, UInt32.toNat_sub]
  omega

theorem has_keep_back (p s : UInt32) {k : Nat} (hk : k < 32) :
    has (keep (index p) (index s)) (s - UInt32.ofNat k) = decide ((s - p).toNat % 32 ≤ k) := by
  have hp := p.toNat_lt
  have hs := s.toNat_lt
  rw [has_keep, toNat_index, toNat_index, toNat_back s hk, UInt32.toNat_sub, Bool.eq_iff_iff]
  simp only [decide_eq_true_eq]
  omega

theorem has_mark_back (field p s : UInt32) {k : Nat} (hk : k < 32) :
    has (mark field (index s) (index p) (s - p)) (s - UInt32.ofNat k) =
      (decide (k = 0) || (decide ((s - p).toNat ≤ k) && has field (s - UInt32.ofNat k))) := by
  have hzero : has (bit (index s)) (s - UInt32.ofNat k) = decide (k = 0) := by
    rw [has_bit, toNat_index, toNat_back s hk, Bool.eq_iff_iff]
    have := s.toNat_lt
    simp only [decide_eq_true_eq]
    omega
  have harc : has (if s - p < 32 then keep (index p) (index s) else 0) (s - UInt32.ofNat k) =
      decide ((s - p).toNat ≤ k) := by
    have hlt : s - p < 32 ↔ (s - p).toNat < 32 := UInt32.lt_iff_toNat_lt
    by_cases h : (s - p).toNat < 32
    · rw [if_pos (hlt.mpr h), has_keep_back p s hk, Nat.mod_eq_of_lt h]
    · rw [if_neg (mt hlt.mp h), has_zero, eq_comm, decide_eq_false_iff_not]
      omega
  rw [mark, has_or, has_and, hzero, harc, Bool.or_comm, Bool.and_comm (has field _)]

theorem has_mark_self (field p s : UInt32) :
    has (mark field (index s) (index p) (s - p)) s = true := by
  have hself := has_mark_back field p s (k := 0) (by decide)
  rwa [show UInt32.ofNat 0 = 0 from rfl, UInt32.sub_zero, decide_eq_true rfl, Bool.true_or] at hself

theorem shifts_lt (old new : UInt32) :
    (shifts (old &&& indexMask) (new &&& indexMask)).1.toNat < 32 ∧
      (shifts (old &&& indexMask) (new &&& indexMask)).2.1.toNat < 32 ∧
      (shifts (old &&& indexMask) (new &&& indexMask)).2.2.toNat < 32 := by
  have ho := and_mask_lt old
  have hn := and_mask_lt new
  obtain ⟨hleft, hright, hlow⟩ := toNat_shifts _ _ ho hn
  omega

/-- When the reference moves from `p` to `s`, packet `s` is marked. Of the 31 packets
before it those that were passed are not, and the others are as before: all if `p`
is `s`, none if `s` is a whole window ahead. No shift on the way is by a whole word. -/
theorem mark_moves_arc (field p s : UInt32) :
    has (mark field (index s) (index p) (s - p)) s = true ∧
      (∀ k, 1 ≤ k → k ≤ 31 →
        (0 < s - p → s - p < 32 →
            has (mark field (index s) (index p) (s - p)) (s - UInt32.ofNat k) =
              if k < (s - p).toNat then false else has field (s - UInt32.ofNat k)) ∧
          (s - p = 0 →
            has (mark field (index s) (index p) (s - p)) (s - UInt32.ofNat k) =
              has field (s - UInt32.ofNat k)) ∧
          (32 ≤ s - p → has (mark field (index s) (index p) (s - p)) (s - UInt32.ofNat k) =
            false)) ∧
      ∀ old new, (shifts (old &&& indexMask) (new &&& indexMask)).1.toNat < 32 ∧
        (shifts (old &&& indexMask) (new &&& indexMask)).2.1.toNat < 32 ∧
        (shifts (old &&& indexMask) (new &&& indexMask)).2.2.toNat < 32 := by
  refine ⟨has_mark_self field p s, fun k hk hk' => ?_, shifts_lt⟩
  have hback := has_mark_back field p s (k := k) (by omega)
  rw [decide_eq_false (by omega), Bool.false_or] at hback
  rw [hback]
  refine ⟨fun _ _ => ?_, fun hstill => ?_, fun hwide => ?_⟩
  · by_cases hpassed : k < (s - p).toNat
    · rw [if_pos hpassed, decide_eq_false (by omega), Bool.false_and]
    · rw [if_neg hpassed, decide_eq_true (by omega), Bool.true_and]
  · rw [hstill, UInt32.toNat_zero, decide_eq_true (Nat.zero_le k), Bool.true_and]
  · have hwindow : 32 ≤ (s - p).toNat := UInt32.le_iff_toNat_le.mp hwide
    rw [decide_eq_false (by omega), Bool.false_and]

theorem mark_moves_arc_restart :
    (2 : UInt32) - 0xFFFFFFFE = 4 ∧ (2 : UInt32) - UInt32.ofNat 3 = 0xFFFFFFFF ∧
      has (mark 0xFFFFFFFF (index 2) (index 0xFFFFFFFE) (2 - 0xFFFFFFFE)) (2 - UInt32.ofNat 3) =
        false ∧
      has (mark 0xFFFFFFFF (index 2) (index 0xFFFFFFFE) (2 - 0xFFFFFFFE)) (2 - UInt32.ofNat 4) =
        true := by
  obtain ⟨-, hbehind, -⟩ := mark_moves_arc 0xFFFFFFFF 0xFFFFFFFE 2
  have hpassed := (hbehind 3 (by decide) (by decide)).1 (by decide) (by decide)
  have hkept := (hbehind 4 (by decide) (by decide)).1 (by decide) (by decide)
  exact ⟨by decide, by decide, hpassed, hkept⟩

end Courier.Window
