import Mathlib.Algebra.BigOperators.Group.List.Basic
import Mathlib.Algebra.Order.BigOperators.Group.List
import Mathlib.Algebra.Order.Ring.Int
import Mathlib.Data.Int.DivMod

/-!
# Dividing the parts of a sum

Where a sum is divided part by part, every quotient rounded down, the rounding loses
`sum_ediv_add`: the parts' remainders divided once more. So nothing is lost exactly when the
remainders add up to less than the divisor (`sum_ediv_eq_iff`), and then nothing is lost either
where some of the parts are divided together (`remainders_append_le`).
-/

namespace LowLatencyPipeline

namespace SplitDiv

variable {D : ℤ}

/-- The quotients of the parts. -/
def quotients (D : ℤ) (xs : List ℤ) : ℤ := (xs.map (· / D)).sum

/-- The remainders of the parts. -/
def remainders (D : ℤ) (xs : List ℤ) : ℤ := (xs.map (· % D)).sum

theorem sum_eq (D : ℤ) (xs : List ℤ) : xs.sum = remainders D xs + D * quotients D xs := by
  induction xs with
  | nil => simp [quotients, remainders]
  | cons x xs ih =>
    have hx := Int.emod_add_mul_ediv x D
    simp only [quotients, remainders, List.map_cons, List.sum_cons, mul_add] at ih ⊢
    omega

theorem remainders_nonneg (hD : D ≠ 0) (xs : List ℤ) : 0 ≤ remainders D xs := by
  refine List.sum_nonneg fun r hr => ?_
  obtain ⟨x, -, rfl⟩ := List.mem_map.1 hr
  exact Int.emod_nonneg x hD

/-- What the rounding of the parts loses. -/
theorem sum_ediv_add (hD : D ≠ 0) (xs : List ℤ) :
    xs.sum / D = remainders D xs / D + quotients D xs := by
  rw [sum_eq D xs, Int.add_mul_ediv_left _ _ hD]

theorem quotients_le (hD : 0 < D) (xs : List ℤ) : quotients D xs ≤ xs.sum / D := by
  have hlost := Int.ediv_nonneg (remainders_nonneg hD.ne' xs) hD.le
  rw [sum_ediv_add hD.ne']
  omega

/-- **Nothing is lost** exactly when the remainders add up to less than the divisor. -/
theorem sum_ediv_eq_iff (hD : 0 < D) (xs : List ℤ) :
    quotients D xs = xs.sum / D ↔ remainders D xs < D := by
  have hlost := Int.ediv_nonneg (remainders_nonneg hD.ne' xs) hD.le
  rw [sum_ediv_add hD.ne', right_eq_add]
  constructor
  · intro hzero
    have hmod := Int.emod_add_mul_ediv (remainders D xs) D
    have hlt := Int.emod_lt_of_pos (remainders D xs) hD
    rw [hzero] at hmod
    omega
  · exact Int.ediv_eq_zero_of_lt (remainders_nonneg hD.ne' xs)

/-- The remainder of a sum is at most the sum of the remainders. -/
theorem sum_emod_le (hD : 0 < D) (xs : List ℤ) : xs.sum % D ≤ remainders D xs := by
  have hnonneg := remainders_nonneg hD.ne' xs
  have hmod := Int.emod_add_mul_ediv (remainders D xs) D
  have hquot := mul_nonneg hD.le (Int.ediv_nonneg hnonneg hD.le)
  rw [sum_eq D xs, Int.add_mul_emod_self_left]
  omega

/-- Dividing some of the parts together loses no more. -/
theorem remainders_append_le (hD : 0 < D) (xs ys : List ℤ) :
    remainders D (xs ++ [ys.sum]) ≤ remainders D (xs ++ ys) := by
  have hle := sum_emod_le hD ys
  simp only [remainders, List.map_append, List.sum_append, List.map_cons, List.map_nil,
    List.sum_cons, List.sum_nil, add_zero] at hle ⊢
  omega

end SplitDiv

end LowLatencyPipeline
