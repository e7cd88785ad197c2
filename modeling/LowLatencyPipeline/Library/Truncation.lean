import Mathlib.Algebra.Order.Floor.Ring
import Mathlib.Algebra.Order.Field.Basic
import Mathlib.Data.Int.DivMod

/-!
# Truncation toward zero

`trunc` cuts the fraction off a number of an ordered field. Division of machine integers truncates
(`trunc_div`), and so does scaling by a power that may be negative (`trunc_mul_zpow`).
-/

namespace LowLatencyPipeline

universe u

variable {K : Type u} [Field K] [LinearOrder K] [IsStrictOrderedRing K] [FloorRing K]

/-- The integer part toward zero. -/
def trunc (x : K) : ℤ := if 0 ≤ x then ⌊x⌋ else ⌈x⌉

@[simp]
theorem trunc_intCast (n : ℤ) : trunc (n : K) = n := by
  rw [trunc, Int.floor_intCast, Int.ceil_intCast, ite_self]

theorem trunc_neg (x : K) : trunc (-x) = -trunc x := by
  rcases lt_trichotomy x 0 with hneg | rfl | hpos
  · rw [trunc, trunc, if_pos (neg_nonneg.2 hneg.le), if_neg (not_le.2 hneg), Int.floor_neg]
  · rw [neg_zero, ← Int.cast_zero, trunc_intCast, neg_zero]
  · rw [trunc, trunc, if_neg (not_le.2 (neg_neg_iff_pos.2 hpos)), if_pos hpos.le, Int.ceil_neg]

/-- The division of integers truncates. -/
theorem trunc_div (n : ℤ) {d : ℤ} (hd : 0 < d) : trunc ((n : K) / d) = n.tdiv d := by
  have hcast : (0 : K) < d := Int.cast_pos.2 hd
  have hnonneg : ∀ m : ℤ, 0 ≤ m → trunc ((m : K) / d) = m.tdiv d := fun m hm => by
    rw [trunc, if_pos (div_nonneg (Int.cast_nonneg hm) hcast.le),
      Int.floor_div_cast_of_nonneg hd.le, Int.floor_intCast, Int.tdiv_eq_ediv_of_nonneg hm]
  rcases le_total 0 n with hn | hn
  · exact hnonneg n hn
  · have hneg := hnonneg (-n) (neg_nonneg.2 hn)
    rwa [Int.cast_neg, neg_div, trunc_neg, Int.neg_tdiv, neg_inj] at hneg

/-- Scaling by a power: a product where the exponent is not negative, else a division. -/
theorem trunc_mul_zpow (n : ℤ) {b : ℤ} (hb : 0 < b) (e : ℤ) :
    trunc ((n : K) * (b : K) ^ e) =
      if 0 ≤ e then n * b ^ e.toNat else n.tdiv (b ^ (-e).toNat) := by
  split_ifs with he
  · obtain ⟨k, rfl⟩ := Int.eq_ofNat_of_zero_le he
    rw [zpow_natCast, Int.toNat_natCast, ← Int.cast_pow, ← Int.cast_mul, trunc_intCast]
  · obtain ⟨k, hk⟩ := Int.eq_ofNat_of_zero_le (a := -e) (by omega)
    rw [show e = -(k : ℤ) by omega, neg_neg, Int.toNat_natCast, zpow_neg, zpow_natCast,
      ← div_eq_mul_inv, ← Int.cast_pow, trunc_div n (pow_pos hb k)]

end LowLatencyPipeline
