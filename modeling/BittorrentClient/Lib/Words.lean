import Mathlib.Data.Nat.Basic

/-! Arithmetic on machine words that does not wrap. -/

namespace Words

theorem toNat_add_of_le {a b n : UInt32} (h : a.toNat + b.toNat ≤ n.toNat) : (a + b).toNat = a.toNat + b.toNat := by
  rw [UInt32.toNat_add]
  exact Nat.mod_eq_of_lt (Nat.lt_of_le_of_lt h n.toNat_lt)

theorem toNat_succ_of_lt {a n : UInt32} (h : a < n) : (a + 1).toNat = a.toNat + 1 :=
  toNat_add_of_le (UInt32.lt_iff_toNat_lt.mp h)

theorem toNat_pred {a : UInt32} (h : 0 < a.toNat) : (a - 1).toNat = a.toNat - 1 :=
  UInt32.toNat_sub_of_le a 1 (UInt32.le_iff_toNat_le.mpr h)

/-- A product of words fits in a word of twice the width. -/
theorem toNat_mul_toUInt64 (a b : UInt32) : (a.toUInt64 * b.toUInt64).toNat = a.toNat * b.toNat := by
  have ha := a.toNat_lt
  have hb := b.toNat_lt
  rw [UInt64.toNat_mul, UInt32.toNat_toUInt64, UInt32.toNat_toUInt64]
  exact Nat.mod_eq_of_lt (Nat.lt_of_lt_of_le (Nat.mul_lt_mul'' ha hb) (by decide))

theorem toNat_min32 (a b : UInt32) : (min a b).toNat = min a.toNat b.toNat := by
  show (if a ≤ b then a else b).toNat = _
  by_cases h : a ≤ b
  · rw [if_pos h, Nat.min_eq_left (UInt32.le_iff_toNat_le.mp h)]
  · rw [if_neg h, Nat.min_eq_right (Nat.le_of_not_le fun h' => h (UInt32.le_iff_toNat_le.mpr h'))]

theorem toNat_min64 (a b : UInt64) : (min a b).toNat = min a.toNat b.toNat := by
  show (if a ≤ b then a else b).toNat = _
  by_cases h : a ≤ b
  · rw [if_pos h, Nat.min_eq_left (UInt64.le_iff_toNat_le.mp h)]
  · rw [if_neg h, Nat.min_eq_right (Nat.le_of_not_le fun h' => h (UInt64.le_iff_toNat_le.mpr h'))]

theorem toNat_max64 (a b : UInt64) : (max a b).toNat = max a.toNat b.toNat := by
  show (if a ≤ b then b else a).toNat = _
  by_cases h : a ≤ b
  · rw [if_pos h, Nat.max_eq_right (UInt64.le_iff_toNat_le.mp h)]
  · rw [if_neg h, Nat.max_eq_left (Nat.le_of_not_le fun h' => h (UInt64.le_iff_toNat_le.mpr h'))]

end Words
